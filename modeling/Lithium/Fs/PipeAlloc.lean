/-
# A `pipe_alloc` that fails

`pipe_alloc` as one call, from its first line to its `return`, over the states of `FileState`: the
label `bad` gives back the page, then the first file, then the second, each if it was obtained.
The call is a run of the machine in which one process moves alone (`run_pipeAlloc`).

At `bad` the type of a file has not been set by this call.  That `file_close` has nothing to give
back for it rests on what the table looks like at any time: an entry without references is
`FD_NONE`, so the entry `file_alloc` has handed out still is.
-/
import Lithium.Fs.FileRun

namespace Lithium

open Transition

/-! ## 1. One page, one entry -/

/-- Freeing the page just obtained. -/
theorem Physmem.freePage_allocPage {p : Physmem} (h : p.allocPage.2 ≠ 0) :
    (∀ i, (p.allocPage.1.freePage p.allocPage.2).isPageFree i = p.isPageFree i) ∧
    (p.allocPage.1.freePage p.allocPage.2).freePagesCount = p.freePagesCount := by
  rcases p.allocPage_cases with ⟨halloc, -⟩ | ⟨i, hi, hfree, halloc⟩
  · rw [halloc] at h
    exact absurd rfl h
  · have htaken : (p.markPageAllocated i).isPageFree i = false := by
      rw [isPageFree_markPageAllocated, decide_eq_false (not_not_intro rfl), Bool.and_false]
    rw [halloc, freePage_pageAddr _ hi, htaken, if_neg (by decide)]
    constructor
    · intro j
      rw [isPageFree_markPageFree, isPageFree_markPageAllocated]
      by_cases hj : j = i
      · rw [hj, hfree]
        simp
      · simp [hj]
    · exact BitVec.sub_add_cancel _ _

namespace FileTable

variable {files : FileTable} {f : Fin nfile}

/-- **Closing the file just obtained** gives nothing back and leaves the table as it was, since the
entry is `FD_NONE` all the time. -/
theorem fileClose_fileAlloc (hclosed : (files f).Closed) (hfind : files.findFree = some f) :
    ((files.fileAlloc f).fileClose f).2 = none ∧
    ∀ g, (((files.fileAlloc f).fileClose f).1 g).ref = (files g).ref ∧
      (((files.fileAlloc f).fileClose f).1 g).type = (files g).type := by
  have hzero := ref_of_findFree hfind
  have htype := hclosed hzero
  have hone : (files.fileAlloc f f).ref = 1 := by rw [fileAlloc, modify_self]
  have htype' : (files.fileAlloc f f).type = .none := by rw [fileAlloc, modify_self]; exact htype
  rw [fileClose_of_one hone]
  refine ⟨File.target_eq_none.mpr htype', fun g => ?_⟩
  dsimp only
  by_cases hg : g = f
  · rw [hg, modify_self, hzero, htype]
    exact ⟨rfl, rfl⟩
  · rw [modify_of_ne _ hg, fileAlloc, modify_of_ne _ hg]
    exact ⟨rfl, rfl⟩

end FileTable

namespace FileState

variable {T : Type*} [DecidableEq T]

/-! ## 2. The calls -/

/-- `file_close` by `t`, to its end; with what it has called `pipe_close` or `inode_put` for. -/
def fileCloseCall (s : FileState T) (t : T) (f : Fin nfile) : FileState T × List Target :=
  let s' := s.closeFile t f
  match (s.files.fileClose f).2 with
  | none => (s', [])
  | some (.pipeEnd q writable) =>
    let s'' := s'.closeEnd t q writable
    (if s''.act t = .freeing q then (s''.freePipe q).goto t .idle else s'', [.pipeEnd q writable])
  | some (.inode r) => ({ s' with done := .inode r :: s'.done }.goto t .idle, [.inode r])

/-- `if (f) file_close(f);` -/
def fileCloseIf (s : FileState T) (t : T) (f : Option (Fin nfile)) : FileState T × List Target :=
  f.elim (s, []) (s.fileCloseCall t)

/-- What a call of `pipe_alloc` leaves and returns, and what it has called `pipe_close` or
`inode_put` for. -/
structure PipeAlloc (T : Type*) where
  state : FileState T
  ret : Int
  closed : List Target

/-- The label `bad` of `pipe_alloc`, where `pi`, `*f0` and `*f1` may be `NULL`. -/
def pipeAllocBad (s : FileState T) (t : T) (pi : Option PipeRef) (f0 f1 : Option (Fin nfile)) :
    PipeAlloc T :=
  let s := pi.elim s s.freePipe
  let r0 := s.fileCloseIf t f0
  let r1 := r0.1.fileCloseIf t f1
  { state := r1.1, ret := -1, closed := r0.2 ++ r1.2 }

/-- `*pi` as `pipe_alloc` initialises it. -/
def withPipe (s : FileState T) (q : PipeRef) : FileState T :=
  { s with pipes := Function.update s.pipes q.page (Pipe.alloc (s.pipes q.page).data) }

/-- `pipe_alloc` from the first `file_alloc` on. -/
def pipeAllocFiles (s : FileState T) (t : T) (q : PipeRef) : PipeAlloc T :=
  match s.allocFile t with
  | none => s.pipeAllocBad t (some q) none none
  | some (s, f0) =>
    match s.allocFile t with
    | none => s.pipeAllocBad t (some q) (some f0) none
    | some (s, f1) =>
      { state := ((s.withPipe q).setEnd q f0 false).setEnd q f1 true, ret := 0, closed := [] }

/-- `pipe_alloc` by `t`.  The serial number is the new pipe's. -/
def pipeAlloc (s : FileState T) (t : T) (serial : Nat) : PipeAlloc T :=
  if s.mem.allocPage.2 = 0 then
    { s with mem := s.mem.allocPage.1 }.pipeAllocBad t none none none
  else
    let q : PipeRef := ⟨s.mem.allocPage.2, serial⟩
    { s with mem := s.mem.allocPage.1, made := q :: s.made }.pipeAllocFiles t q

/-! ## 3. The call as a run -/

variable {s s' : FileState T} {t : T} {f : Fin nfile} {q : PipeRef} {pool : Nat → Prop}

/-- Two points one after the other. -/
theorem goto_goto (s : FileState T) (t : T) (a b : FileAct) :
    (s.goto t a).goto t b = s.goto t b := by
  simp [goto]

theorem goto_of_act (h : s.act t = .idle) : s.goto t .idle = s := by
  rw [goto, ← h, Function.update_eq_self]

@[simp] theorem goto_self (s : FileState T) (t : T) (a : FileAct) : (s.goto t a).act t = a := by
  simp [goto]

/-- Freeing a page and filling a file are the same wherever `t` is. -/
theorem goto_freePipe (s : FileState T) (t : T) (a : FileAct) (q : PipeRef) :
    (s.goto t a).freePipe q = (s.freePipe q).goto t a := rfl

theorem goto_withPipe (s : FileState T) (t : T) (a b : FileAct) (q : PipeRef) :
    ({ s.goto t a with
      pipes := Function.update (s.goto t a).pipes q.page
        (Pipe.alloc ((s.goto t a).pipes q.page).data) } : FileState T).goto t b
      = (s.withPipe q).goto t b := by
  rw [← goto_goto (s.withPipe q) t a b]
  rfl

theorem goto_setEnd (s : FileState T) (t : T) (a : FileAct) (q : PipeRef) (f : Fin nfile)
    (w : Bool) : (s.goto t a).setEnd q f w = (s.setEnd q f w).goto t a := rfl

omit [DecidableEq T] in
/-- `file_alloc` does not move `t`. -/
theorem act_allocFile {f : Fin nfile} (h : s.allocFile t = some (s', f)) : s'.act = s.act := by
  rw [allocFile, Option.map_eq_some_iff] at h
  obtain ⟨g, -, hg⟩ := h
  rw [← (Prod.mk.inj hg).1]

/-- One step of a process that moves alone, and the steps after it. -/
theorem run_next (hs : s.next t = some s') (n : Nat) :
    run step s (List.replicate (n + 1) (.next t)) = run step s' (List.replicate n (.next t)) := by
  rw [List.replicate_succ, run_cons, show s.step (.next t) = some s' from hs, Option.bind_some]

/-- Where a process is does not matter to `file_alloc`. -/
theorem allocFile_goto (s : FileState T) (t : T) (a : FileAct) :
    (s.goto t a).allocFile t = (s.allocFile t).map fun r => (r.1.goto t a, r.2) := by
  rw [allocFile, allocFile, Option.map_map]
  rfl

/-- `file_close` from the label `bad` goes on to its end. -/
theorem run_badFile (s : FileState T) (t : T) (f : Fin nfile) :
    ∃ n, run step (s.goto t (.badFile f)) (List.replicate n (.next t))
      = some (s.fileCloseCall t f).1 := by
  have hclose : (s.goto t (.badFile f)).next t = some (s.closeFile t f) := by
    simp [next, goto, closeFile]
  unfold fileCloseCall
  cases htarget : (s.files.fileClose f).2 with
  | none => exact ⟨1, run_next hclose 0⟩
  | some o =>
    have hact : (s.closeFile t f).act t = .closing o := by simp [closeFile, goto, htarget]
    cases o with
    | inode r => exact ⟨2, (run_next hclose 1).trans (run_next (by rw [next, hact]) 0)⟩
    | pipeEnd q w =>
      have hend : (s.closeFile t f).next t = some ((s.closeFile t f).closeEnd t q w) := by
        rw [next, hact]
      by_cases hfree : ((s.closeFile t f).closeEnd t q w).act t = .freeing q
      · refine ⟨3, (run_next hclose 2).trans ((run_next hend 1).trans ?_)⟩
        exact (run_next (by rw [next, hfree]) 0).trans (by simp only [hfree, if_true]; rfl)
      · refine ⟨2, (run_next hclose 1).trans ((run_next hend 0).trans ?_)⟩
        simp only [hfree, if_false]
        rfl

/-- The rest of the call, from the first `file_alloc`. -/
theorem run_allocRead (s : FileState T) (t : T) (q : PipeRef) (hidle : s.act t = .idle) :
    ∃ n, run step (s.goto t (.allocRead q)) (List.replicate n (.next t))
      = some (s.pipeAllocFiles t q).state := by
  have hread : (s.goto t (.allocRead q)).act t = .allocRead q := goto_self s t _
  cases h0 : s.allocFile t with
  | none =>
    have hnext : (s.goto t (.allocRead q)).next t = some (s.goto t (.badPage q none)) := by
      simp [next, allocFile_goto, h0, goto_goto]
    have hbad : (s.goto t (.badPage q none)).next t = some (s.freePipe q) := by
      have hfree : (s.freePipe q).act t = .idle := hidle
      simp only [next, goto_self, goto_freePipe, Option.elim_none, goto_goto, goto_of_act hfree]
    refine ⟨2, (run_next hnext 1).trans ((run_next hbad 0).trans ?_)⟩
    simp [pipeAllocFiles, h0, pipeAllocBad, fileCloseIf]
  | some r =>
    obtain ⟨s1, f0⟩ := r
    have hnext : (s.goto t (.allocRead q)).next t = some (s1.goto t (.allocWrite q f0)) := by
      simp [next, allocFile_goto, h0, goto_goto]
    cases h1 : s1.allocFile t with
    | none =>
      have hnext' : (s1.goto t (.allocWrite q f0)).next t = some (s1.goto t (.badPage q f0)) := by
        simp [next, allocFile_goto, h1, goto_goto]
      have hbad : (s1.goto t (.badPage q (some f0))).next t
          = some ((s1.freePipe q).goto t (.badFile f0)) := by
        simp only [next, goto_self, goto_freePipe, Option.elim_some, goto_goto]
      obtain ⟨n, hn⟩ := run_badFile (s1.freePipe q) t f0
      refine ⟨n + 3, (run_next hnext (n + 2)).trans ((run_next hnext' (n + 1)).trans
        ((run_next hbad n).trans ?_))⟩
      rw [hn]
      simp [pipeAllocFiles, h0, h1, pipeAllocBad, fileCloseIf]
    | some r =>
      obtain ⟨s2, f1⟩ := r
      have hnext' : (s1.goto t (.allocWrite q f0)).next t
          = some (s2.goto t (.initPipe q f0 f1)) := by
        simp [next, allocFile_goto, h1, goto_goto]
      have hidle2 : s2.act t = .idle := by rw [act_allocFile h1, act_allocFile h0, hidle]
      have hinit : (s2.goto t (.initPipe q f0 f1)).next t
          = some ((s2.withPipe q).goto t (.setRead q f0 f1)) := by
        simp only [next, goto_self, goto_withPipe]
      have hset0 : ((s2.withPipe q).goto t (.setRead q f0 f1)).next t
          = some (((s2.withPipe q).setEnd q f0 false).goto t (.setWrite q f0 f1)) := by
        simp only [next, goto_self, goto_setEnd, goto_goto]
      have hset1 : (((s2.withPipe q).setEnd q f0 false).goto t (.setWrite q f0 f1)).next t
          = some (((s2.withPipe q).setEnd q f0 false).setEnd q f1 true) := by
        have hset : (((s2.withPipe q).setEnd q f0 false).setEnd q f1 true).act t = .idle := hidle2
        simp only [next, goto_self, goto_setEnd, goto_goto, goto_of_act hset]
      refine ⟨5, (run_next hnext 4).trans ((run_next hnext' 3).trans ((run_next hinit 2).trans
        ((run_next hset0 1).trans ((run_next hset1 0).trans ?_))))⟩
      simp [pipeAllocFiles, h0, h1, withPipe]

/-- **The call is a run of `t` alone.** -/
theorem run_pipeAlloc (s : FileState T) (t : T) (serial : Nat) (hidle : s.act t = .idle)
    (hnew : ⟨s.mem.allocPage.2, serial⟩ ∉ s.made) :
    ∃ n, run step s (.pipeAlloc t serial :: List.replicate n (.next t))
      = some (s.pipeAlloc t serial).state := by
  have hstep : s.step (.pipeAlloc t serial) = _ := if_pos ⟨hidle, hnew⟩
  simp only [run_cons, hstep, pipeAlloc]
  by_cases hpage : s.mem.allocPage.2 = 0
  · simp only [hpage, if_true]
    exact ⟨0, by simp [pipeAllocBad, fileCloseIf]⟩
  · simp only [hpage, if_false]
    exact run_allocRead _ t _ hidle

/-! ## 4. A failed call -/

/-- `s'` has the free pages of `s`, and each entry of the table the `ref` and the `type` it has in
`s`. -/
structure Traceless (s s' : FileState T) : Prop where
  pages : ∀ i, s'.mem.isPageFree i = s.mem.isPageFree i
  count : s'.mem.freePagesCount = s.mem.freePagesCount
  ref : ∀ f, (s'.files f).ref = (s.files f).ref
  type : ∀ f, (s'.files f).type = (s.files f).type

/-- The call fails with nothing obtained but the page, and the first file perhaps. -/
theorem pipeAllocFiles_failed (hclosed : ∀ f, (s.files f).Closed)
    (hret : (s.pipeAllocFiles t q).ret = -1) :
    (∀ f, ((s.pipeAllocFiles t q).state.files f).ref = (s.files f).ref ∧
      ((s.pipeAllocFiles t q).state.files f).type = (s.files f).type) ∧
    (s.pipeAllocFiles t q).state.mem = s.mem.freePage q.page ∧
    (s.pipeAllocFiles t q).closed = [] := by
  cases hfind : s.files.findFree with
  | none =>
    have h0 : s.allocFile t = none := by rw [allocFile, hfind, Option.map_none]
    have hbad : s.pipeAllocFiles t q = s.pipeAllocBad t (some q) none none := by
      simp only [pipeAllocFiles, h0]
    rw [hbad]
    exact ⟨fun f => ⟨rfl, rfl⟩, rfl, rfl⟩
  | some f0 =>
    have h0 : s.allocFile t = some
        ({ s with files := s.files.fileAlloc f0, handles := (t, f0) :: s.handles }, f0) := by
      rw [allocFile, hfind, Option.map_some]
    obtain ⟨hnone, hsame⟩ := FileTable.fileClose_fileAlloc (hclosed f0) hfind
    cases h1 : allocFile
        { s with files := s.files.fileAlloc f0, handles := (t, f0) :: s.handles } t with
    | some r =>
      simp only [pipeAllocFiles, h0, h1] at hret
      exact absurd hret (by decide)
    | none =>
      have hclose : fileCloseCall (freePipe
          { s with files := s.files.fileAlloc f0, handles := (t, f0) :: s.handles } q) t f0
          = (closeFile (freePipe
              { s with files := s.files.fileAlloc f0, handles := (t, f0) :: s.handles } q) t f0,
            []) := by
        simp only [fileCloseCall, freePipe, hnone]
      simp only [pipeAllocFiles, h0, h1, pipeAllocBad, fileCloseIf, Option.elim_some,
        Option.elim_none, hclose, List.append_nil]
      exact ⟨hsame, rfl, trivial⟩

/-- **A `pipe_alloc` that returns −1** leaves no trace when each entry without references is
`FD_NONE`, and then runs neither `pipe_close` nor `inode_put`. -/
theorem pipeAlloc_failed {serial : Nat} (hclosed : ∀ f, (s.files f).Closed)
    (hret : (s.pipeAlloc t serial).ret = -1) :
    s.Traceless (s.pipeAlloc t serial).state ∧ (s.pipeAlloc t serial).closed = [] := by
  unfold pipeAlloc at hret ⊢
  by_cases hpage : s.mem.allocPage.2 = 0
  · rw [if_pos hpage]
    rcases s.mem.allocPage_cases with ⟨halloc, -⟩ | ⟨i, hi, -, halloc⟩
    · have hmem : s.mem.allocPage.1 = s.mem := by rw [halloc]
      rw [hmem]
      exact ⟨⟨fun _ => rfl, rfl, fun _ => rfl, fun _ => rfl⟩, rfl⟩
    · rw [halloc] at hpage
      exact absurd hpage (pageAddr_ne_zero hi)
  · simp only [hpage, if_false] at hret ⊢
    obtain ⟨hfiles, hmem, hnone⟩ := pipeAllocFiles_failed
      (s := { s with
        mem := s.mem.allocPage.1, made := ⟨s.mem.allocPage.2, serial⟩ :: s.made })
      hclosed hret
    dsimp only at hmem
    obtain ⟨hpages, hcount⟩ := Physmem.freePage_allocPage hpage
    exact ⟨⟨by rw [hmem]; exact hpages, by rw [hmem]; exact hcount, fun f => (hfiles f).1,
      fun f => (hfiles f).2⟩, hnone⟩

/-! ## 5. Any run -/

/-- What the call of `file_close` at `bad` does: it gives up the entry, and goes no further. -/
structure GivesUp (s : FileState T) (t : T) (f : Fin nfile) (s' : FileState T) : Prop where
  returns : s'.act t = .idle
  closesNothing : s'.done = s.done
  obtained : (s.files f).ref = 1 ∧ (s.files f).type = .none
  givenUp : (s'.files f).ref = 0 ∧ (s'.files f).type = .none
  others : ∀ g, g ≠ f → s'.files g = s.files g
  mem : s'.mem = s.mem

/-- What the call of `free_physical_page` at `bad` does: it frees the one page obtained. -/
structure FreesPage (s : FileState T) (q : PipeRef) (s' : FileState T) : Prop where
  page : ∃ i, q.page = pageAddr i ∧ s.mem.isPageFree i = false ∧
    ∀ j, s'.mem.isPageFree j = (s.mem.isPageFree j || decide (j = i))
  count : s'.mem.freePagesCount = s.mem.freePagesCount + 1
  files : s'.files = s.files
  closesNothing : s'.done = s.done

namespace Ok

theorem givesUp (h : Ok pool s) (ht : s.act t = .badFile f) (hs : s.next t = some s') :
    s.GivesUp t f s' := by
  have hunused : s.Unused t f := by
    have hact := h.acts t
    rwa [ht] at hact
  have hnone : (s.files f).target = none := File.target_eq_none.mpr hunused.type
  have hclose := FileTable.fileClose_of_one hunused.ref
  simp only [next, ht, Option.some.injEq] at hs
  subst hs
  simp only [FileState.closeFile, hclose, hnone, Option.elim_none, FileState.goto]
  constructor
  · exact Function.update_self _ _ _
  · rfl
  · exact ⟨hunused.ref, hunused.type⟩
  · simp only [FileTable.modify_self, and_self]
  · intro g hg
    dsimp only
    rw [FileTable.modify_of_ne _ hg]
  · rfl

theorem freesPage (h : Ok pool s) {f0 : Option (Fin nfile)} (ht : s.act t = .badPage q f0)
    (hs : s.next t = some s') : s.FreesPage q s' := by
  have hkeep : s.KeepsPipe (.proc t) q := by
    change (s.act t).carries = some q
    rw [ht]
    rfl
  obtain ⟨hmade, hfreed⟩ := h.live_of_keeps hkeep
  obtain ⟨i, hi⟩ := h.placed q hmade hfreed
  have htaken : s.mem.isPageFree i = false := by
    rw [← Bool.not_eq_true]
    exact fun hfree => h.pages.taken hi ⟨hi.2.2.1, hfree⟩
  simp only [next, ht, Option.some.injEq] at hs
  subst hs
  have hmem : s.mem.freePage q.page = s.mem.markPageFree i := by
    rw [hi.2.2.2, Physmem.freePage_pageAddr _ hi.2.2.1, htaken, if_neg (by decide)]
  refine ⟨⟨i, hi.2.2.2, htaken, fun j => ?_⟩, ?_, rfl, rfl⟩
  · simp only [FileState.goto, FileState.freePipe, hmem]
    exact Physmem.isPageFree_markPageFree _ _ _
  · simp only [FileState.goto, FileState.freePipe, hmem]
    rfl

end Ok

/-- **A failed `pipe_alloc` leaves no trace.**  In every state that any number of processes reach,
a call that returns −1 leaves the free pages, their count, and the `ref` and the `type` of each
entry as they were, and has called neither `pipe_close` nor `inode_put`.  When others move during
the call, what it does at `bad` is still to free the page it obtained, and to give up the file it
obtained, of which nothing is closed. -/
theorem failed_pipeAlloc_traceless (pipes : Word → Pipe) (mem : Physmem) (ops : List (FileOp T))
    {s : FileState T} (hrun : run step (init pipes mem) ops = some s) (t : T) :
    (∀ serial, (s.pipeAlloc t serial).ret = -1 →
      s.Traceless (s.pipeAlloc t serial).state ∧ (s.pipeAlloc t serial).closed = []) ∧
    (∀ q f0 s', s.act t = .badPage q f0 → s.next t = some s' → s.FreesPage q s') ∧
    (∀ f0 s', s.act t = .badFile f0 → s.next t = some s' → s.GivesUp t f0 s') := by
  have h := reachable_inv (fun _ _ _ h hs => (step_spec h hs).1) (init_ok (T := T) pipes mem)
    ⟨ops, hrun⟩
  exact ⟨fun serial hret => pipeAlloc_failed h.closed hret, fun q f0 s' => h.freesPage,
    fun f0 s' => h.givesUp⟩

/-- What `file_init` leaves behind a kernel of 32 pages. -/
def initSmall : FileState Unit :=
  init (fun _ => Pipe.alloc fun _ => 0) (Physmem.physmemInit 0x80020000)

/-- A process has opened all files but one: `pipe_alloc` obtains a page and the first file, and has
to give both back. -/
theorem failed_pipeAlloc_traceless_full :
    ∃ s, run step initSmall (List.replicate (nfile - 1) (.fileAlloc ())) = some s ∧
      s.mem.allocPage.2 = pageAddr 32 ∧ (s.allocFile ()).isSome = true ∧
      s.Traceless (s.pipeAlloc () 0).state ∧ (s.pipeAlloc () 0).closed = [] := by
  have hrun : (run step initSmall (List.replicate (nfile - 1) (.fileAlloc ()))).map (fun s =>
      (s.mem.allocPage.2, (s.allocFile ()).isSome, (s.pipeAlloc () 0).ret)) =
        some (pageAddr 32, true, -1) := by decide +kernel
  obtain ⟨s, hs, hcall⟩ := Option.map_eq_some_iff.mp hrun
  obtain ⟨hpage, hcall⟩ := Prod.mk.inj hcall
  obtain ⟨hfile, hret⟩ := Prod.mk.inj hcall
  exact ⟨s, hs, hpage, hfile, (failed_pipeAlloc_traceless _ _ _ hs ()).1 0 hret⟩

end FileState

end Lithium
