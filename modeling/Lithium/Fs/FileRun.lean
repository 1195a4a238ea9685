/-
# The lifetime of open files and pipes

What holds whatever any number of processes do with files and pipes, as long as each closes only
handles of its own.  Three ledgers carry the proof:

* what is given to files: a target is with one file, or with the process that closes the last
  handle of this file, or given back;
* the pipes: one is with the process that makes or frees it, or open at one end at least, or its
  page is freed;
* the pages: each is free, or of a pipe whose page is not freed, or of other code.

`pipe_close` is called by two processes in either order, and tests the two flags under `pi->lock`;
that only the second of them frees the page is `Ledger.pass` in the second ledger.
-/
import Lithium.Fs.File
import Lithium.Lib.Handles
import Lithium.Lib.Ledger
import Lithium.Lib.Transition

namespace Lithium

open Transition

/-! ## 1. The table -/

namespace FileTable

variable {files : FileTable} {f g : Fin nfile}

@[simp] theorem modify_self (files : FileTable) (f : Fin nfile) (u : File → File) :
    files.modify f u f = u (files f) := by simp [modify]

theorem modify_of_ne (files : FileTable) {f g : Fin nfile} (h : g ≠ f) (u : File → File) :
    files.modify f u g = files g := by simp [modify, Function.update_of_ne h]

/-- What holds of the changed entry and of the others as they are holds of all. -/
theorem forall_modify {P : Fin nfile → File → Prop} {u : File → File} (hf : P f (u (files f)))
    (hne : ∀ g, g ≠ f → P g (files g)) (g : Fin nfile) : P g (files.modify f u g) :=
  (Function.forall_update_iff files P).mpr ⟨hf, hne⟩ g

/-- What the files refer to does not depend on who refers to them. -/
theorem target_modify_ref (files : FileTable) (f : Fin nfile) (n : File → Nat) (g : Fin nfile) :
    (files.modify f (fun x => { x with ref := n x }) g).target = (files g).target :=
  forall_modify (P := fun g x => x.target = (files g).target) rfl (fun _ _ => rfl) g

/-- `file_alloc` finds an entry without references. -/
theorem ref_of_findFree (h : files.findFree = some f) : (files f).ref = 0 := by
  have hf := List.find?_some h
  simpa using hf

/-- The three ways through `file_close`. -/
theorem fileClose_of_one_lt (h : 1 < (files f).ref) :
    files.fileClose f = (files.modify f fun x => { x with ref := x.ref - 1 }, none) := by
  rw [fileClose, if_neg (by omega), if_pos (by omega)]

theorem fileClose_of_one (h : (files f).ref = 1) : files.fileClose f =
    (files.modify f fun x => { x with ref := 0, type := .none }, (files f).target) := by
  rw [fileClose, if_neg (by omega), if_neg (by omega)]

end FileTable

/-- A file without a type refers to nothing. -/
theorem File.target_eq_none {x : File} : x.target = none ↔ x.type = .none := by
  unfold File.target
  cases x.type <;> simp

/-- What the file refers to does not depend on who refers to the file. -/
@[simp] theorem File.target_ref (x : File) (n : Nat) : { x with ref := n }.target = x.target := rfl

/-- An entry without references is `FD_NONE`. -/
def File.Closed (x : File) : Prop := x.ref = 0 → x.type = .none

theorem File.closed_of_pos {x : File} (h : 0 < x.ref) : x.Closed := fun h0 => absurd h0 h.ne'

/-! ## 2. Who has what -/

/-- The pipe a process is making or freeing. -/
def FileAct.carries : FileAct → Option PipeRef
  | .allocRead q | .allocWrite q _ | .initPipe q _ _ | .setRead q _ _ | .badPage q _
  | .freeing q => some q
  | _ => none

/-- The pipe a process is making. -/
def FileAct.builds : FileAct → Option PipeRef
  | .allocRead q | .allocWrite q _ | .initPipe q _ _ | .setRead q _ _ | .setWrite q _ _
  | .badPage q _ => some q
  | _ => none

/-- What a process is about to give back. -/
def FileAct.closes : FileAct → Option Target
  | .closing o => some o
  | _ => none

@[simp] theorem FileAct.closes_idle : FileAct.idle.closes = none := rfl

@[simp] theorem FileAct.closes_closing (o : Target) : (FileAct.closing o).closes = some o := rfl

/-- Outside of `pipe_alloc`, or at its very end, and not giving anything back. -/
structure FileAct.Quiet (a : FileAct) : Prop where
  builds : a.builds = none
  carries : a.carries = none
  closes : a.closes = none

theorem FileAct.Quiet.ne_setWrite {a : FileAct} (h : a.Quiet) (q : PipeRef) (f0 f1 : Fin nfile) :
    a ≠ .setWrite q f0 f1 := by
  rintro rfl
  cases h.builds

/-- Who has a target. -/
inductive Keeper (T : Type*) where
  | file (f : Fin nfile)
  | closer (t : T)

/-- Who has a pipe: a process, or the pipe itself while an end is open. -/
inductive PipeKeeper (T : Type*) where
  | proc (t : T)
  | pipe (q : PipeRef)

/-- Who has a page. -/
inductive PageKeeper where
  | pipe (q : PipeRef)
  | other (page : Word)

namespace FileState

variable {T : Type*}

def Keeps (s : FileState T) : Keeper T → Target → Prop
  | .file f, o => (s.files f).target = some o
  | .closer t, o => (s.act t).closes = some o

/-- An end of the pipe has been given to a file and not yet been closed. -/
def Open (s : FileState T) (q : PipeRef) : Prop :=
  ∃ w, .pipeEnd q w ∈ s.given ∧ .pipeEnd q w ∉ s.done

def KeepsPipe (s : FileState T) : PipeKeeper T → PipeRef → Prop
  | .proc t, q => (s.act t).carries = some q
  | .pipe q', q => q' = q ∧ s.Open q

def KeepsPage (s : FileState T) : PageKeeper → Nat → Prop
  | .pipe q, i => q ∈ s.made ∧ q ∉ s.freed ∧ i < numPages ∧ q.page = pageAddr i
  | .other page, i => page ∈ s.others ∧ i < numPages ∧ page = pageAddr i

/-- A file `t` has allocated and not yet filled: nobody else has a handle. -/
structure Unused (s : FileState T) (t : T) (f : Fin nfile) : Prop where
  ref : (s.files f).ref = 1
  type : (s.files f).type = .none
  handle : (t, f) ∈ s.handles

/-- No end of the pipe has been given to a file. -/
def NoEnd (s : FileState T) (q : PipeRef) : Prop := ∀ w, .pipeEnd q w ∉ s.given

/-- `setRead` is done: `f0` is the read end, and nobody else has a handle; there is no write end. -/
structure Half (s : FileState T) (t : T) (q : PipeRef) (f0 : Fin nfile) : Prop where
  ref : (s.files f0).ref = 1
  target : (s.files f0).target = some (.pipeEnd q false)
  handle : (t, f0) ∈ s.handles
  noWrite : .pipeEnd q true ∉ s.given

/-- What `t` knows at each point of `pipe_alloc` and `pipe_close`. -/
def ActOk (s : FileState T) (t : T) : FileAct → Prop
  | .idle | .closing _ => True
  | .allocRead q => s.NoEnd q
  | .allocWrite q f0 => s.NoEnd q ∧ s.Unused t f0
  | .initPipe q f0 f1 => s.NoEnd q ∧ s.Unused t f0 ∧ s.Unused t f1 ∧ f0 ≠ f1
  | .setRead q f0 f1 => (s.NoEnd q ∧ s.Unused t f0 ∧ s.Unused t f1 ∧ f0 ≠ f1) ∧
      (s.pipes q.page).readopen = true ∧ (s.pipes q.page).writeopen = true
  | .setWrite q f0 f1 => s.Half t q f0 ∧ s.Unused t f1
  | .badPage q f0 => s.NoEnd q ∧ ∀ f ∈ f0, s.Unused t f
  | .badFile f0 => s.Unused t f0
  | .freeing q => ∀ w, .pipeEnd q w ∈ s.given ∧ .pipeEnd q w ∈ s.done

/-- The invariant; `pool` are the pages the allocator has in all. -/
structure Ok (pool : Nat → Prop) (s : FileState T) : Prop where
  counted : ∀ f, (s.files f).ref = handlesOf s.handles f
  closed : ∀ f, (s.files f).Closed
  acts : ∀ t, s.ActOk t (s.act t)
  targets : Ledger (· ∈ s.given) (· ∈ s.done) s.Keeps
  doneOnce : s.done.Nodup
  pipes : Ledger (· ∈ s.made) (· ∈ s.freed) s.KeepsPipe
  freedOnce : s.freed.Nodup
  ends : ∀ q w, .pipeEnd q w ∈ s.given → q ∈ s.made
  flags : ∀ q, s.Open q →
    ((s.pipes q.page).readopen = false ↔ .pipeEnd q false ∈ s.done) ∧
    ((s.pipes q.page).writeopen = false ↔ .pipeEnd q true ∈ s.done)
  paired : ∀ q w, .pipeEnd q w ∈ s.given →
    .pipeEnd q (!w) ∈ s.given ∨ w = false ∧ ∃ t f0 f1, s.act t = .setWrite q f0 f1
  pages : Ledger pool (fun i => i < numPages ∧ s.mem.isPageFree i = true) s.KeepsPage
  placed : ∀ q ∈ s.made, q ∉ s.freed → ∃ i, s.KeepsPage (.pipe q) i
  othersOnce : s.others.Nodup
  othersPlaced : ∀ page ∈ s.others, ∃ i, s.KeepsPage (.other page) i

variable {pool : Nat → Prop} {s s' : FileState T} {t u : T} {f : Fin nfile} {q : PipeRef}

/-! ## 3. First consequences -/

theorem init_ok (pipes : Word → Pipe) (mem : Physmem) :
    Ok (fun i => i < numPages ∧ mem.isPageFree i = true) (init pipes mem : FileState T) where
  counted _ := rfl
  closed _ _ := rfl
  acts _ := trivial
  targets := .start (fun _ => Iff.rfl) fun k _ hk => by cases k <;> cases hk
  doneOnce := List.nodup_nil
  pipes := .start (fun _ => Iff.rfl) fun k _ hk => by
    cases k with
    | proc t => cases hk
    | pipe q => obtain ⟨-, w, hw, -⟩ := hk; cases hw
  freedOnce := List.nodup_nil
  ends _ _ h := by cases h
  flags _ h := by obtain ⟨w, hw, -⟩ := h; cases hw
  paired _ _ h := by cases h
  pages := .start (fun _ => Iff.rfl) fun k _ hk => by cases k <;> cases hk.1
  placed _ h := by cases h
  othersOnce := List.nodup_nil
  othersPlaced _ h := by cases h

namespace Ok

theorem ref_pos (h : Ok pool s) (hf : (t, f) ∈ s.handles) : 0 < (s.files f).ref := by
  rw [h.counted]
  exact handlesOf_pos.mpr ⟨t, hf⟩

/-- A file with one handle has one owner. -/
theorem sole [DecidableEq T] (h : Ok pool s) (hone : (s.files f).ref = 1)
    (ht : (t, f) ∈ s.handles) (hu : (u, f) ∈ s.handles) : u = t := by
  rw [h.counted] at hone
  exact owner_eq_of_handlesOf_eq_one hone ht hu

/-- What a file refers to has been given to it and not yet given back. -/
theorem given_of_target (h : Ok pool s) {o : Target} (hf : (s.files f).target = some o) :
    o ∈ s.given ∧ o ∉ s.done :=
  ⟨(h.targets.total o).mpr (Or.inr ⟨.file f, hf⟩),
    h.targets.taken (show s.Keeps (.file f) o from hf)⟩

theorem given_of_closes (h : Ok pool s) {o : Target} (ht : (s.act t).closes = some o) :
    o ∈ s.given ∧ o ∉ s.done :=
  ⟨(h.targets.total o).mpr (Or.inr ⟨.closer t, ht⟩),
    h.targets.taken (show s.Keeps (.closer t) o from ht)⟩

theorem given_of_done (h : Ok pool s) {o : Target} (ho : o ∈ s.done) : o ∈ s.given :=
  (h.targets.total o).mpr (Or.inl ho)

/-- Whoever has a pipe, its page is not freed. -/
theorem live_of_keeps (h : Ok pool s) {k : PipeKeeper T} (hk : s.KeepsPipe k q) :
    q ∈ s.made ∧ q ∉ s.freed :=
  ⟨(h.pipes.total q).mpr (Or.inr ⟨k, hk⟩), h.pipes.taken hk⟩

theorem made_of_freed (h : Ok pool s) (hq : q ∈ s.freed) : q ∈ s.made :=
  (h.pipes.total q).mpr (Or.inl hq)

/-- The pipe a process carries is not open. -/
theorem not_open (h : Ok pool s) (ht : (s.act t).carries = some q) : ¬ s.Open q := fun ho => by
  have hkeep : s.KeepsPipe (.pipe q) q := ⟨rfl, ho⟩
  cases h.pipes.alone (show s.KeepsPipe (.proc t) q from ht) hkeep

/-- Two pipes whose pages are not freed are in different pages. -/
theorem page_inj (h : Ok pool s) {q' : PipeRef} (hq : q ∈ s.made ∧ q ∉ s.freed)
    (hq' : q' ∈ s.made ∧ q' ∉ s.freed) (hpage : q'.page = q.page) : q' = q := by
  obtain ⟨i, hi⟩ := h.placed q hq.1 hq.2
  have hi' : s.KeepsPage (.pipe q') i := ⟨hq'.1, hq'.2, hi.2.2.1, hpage.trans hi.2.2.2⟩
  exact PageKeeper.pipe.inj (h.pages.alone hi' hi)

/-- The pipe of another process, or an open one, is in another page than the pipe of `t`. -/
theorem page_ne (h : Ok pool s) {k k' : PipeKeeper T} {q' : PipeRef} (hk : s.KeepsPipe k q)
    (hk' : s.KeepsPipe k' q') (hne : k' ≠ k) : q'.page ≠ q.page := fun hpage => by
  have heq := h.page_inj (h.live_of_keeps hk) (h.live_of_keeps hk') hpage
  exact hne (h.pipes.alone hk' (heq ▸ hk))

end Ok

/-! ## 4. One step at a time -/

namespace ActOk

/-- What `t` knows is not touched by a step that leaves alone the files `t` alone has, the page it
works on, and the ends of the pipe it makes. -/
theorem frame {a : FileAct} (h : s.ActOk t a)
    (hfiles : ∀ f, (t, f) ∈ s.handles → (s.files f).ref = 1 →
      s'.files f = s.files f ∧ (t, f) ∈ s'.handles)
    (hends : ∀ q w, a.builds = some q → .pipeEnd q w ∈ s'.given → .pipeEnd q w ∈ s.given)
    (hgiven : ∀ o ∈ s.given, o ∈ s'.given) (hdone : ∀ o ∈ s.done, o ∈ s'.done)
    (hpipes : ∀ q, a.carries = some q → s'.pipes q.page = s.pipes q.page) : s'.ActOk t a := by
  have hunused : ∀ {f}, s.Unused t f → s'.Unused t f := fun {f} hf => by
    obtain ⟨hsame, hhandle⟩ := hfiles f hf.handle hf.ref
    exact ⟨by rw [hsame]; exact hf.ref, by rw [hsame]; exact hf.type, hhandle⟩
  have hnone : ∀ {q}, a.builds = some q → s.NoEnd q → s'.NoEnd q := fun hb hq w hw =>
    hq w (hends _ w hb hw)
  cases a with
  | idle => trivial
  | closing o => trivial
  | allocRead q => exact hnone rfl h
  | allocWrite q f0 => exact ⟨hnone rfl h.1, hunused h.2⟩
  | initPipe q f0 f1 => exact ⟨hnone rfl h.1, hunused h.2.1, hunused h.2.2.1, h.2.2.2⟩
  | setRead q f0 f1 =>
    obtain ⟨⟨hq, h0, h1, hne⟩, hopen⟩ := h
    exact ⟨⟨hnone rfl hq, hunused h0, hunused h1, hne⟩, by rw [hpipes q rfl]; exact hopen⟩
  | setWrite q f0 f1 =>
    obtain ⟨hhalf, h1⟩ := h
    obtain ⟨hsame, hhandle⟩ := hfiles f0 hhalf.handle hhalf.ref
    exact ⟨⟨by rw [hsame]; exact hhalf.ref, by rw [hsame]; exact hhalf.target, hhandle,
      fun hw => hhalf.noWrite (hends q true rfl hw)⟩, hunused h1⟩
  | badPage q f0 => exact ⟨hnone rfl h.1, fun f hf => hunused (h.2 f hf)⟩
  | badFile f0 => exact hunused h
  | freeing q => exact fun w => ⟨hgiven _ (h w).1, hdone _ (h w).2⟩

/-- Nor by one that touches none of these. -/
theorem of_eq {a : FileAct} (h : s.ActOk t a) (hfiles : s'.files = s.files)
    (hhandles : s'.handles = s.handles) (hgiven : s'.given = s.given) (hdone : s'.done = s.done)
    (hpipes : s'.pipes = s.pipes) : s'.ActOk t a :=
  h.frame (fun f hf _ => ⟨by rw [hfiles], by rwa [hhandles]⟩)
    (fun q w _ hw => by rwa [hgiven] at hw) (fun o ho => by rwa [hgiven])
    (fun o ho => by rwa [hdone]) fun q _ => by rw [hpipes]

end ActOk

variable [DecidableEq T] {a : FileAct}

/-- After a step of `t` everybody else is where it was. -/
theorem acts_goto (ht : s'.ActOk t a) (hu : ∀ u, u ≠ t → s'.ActOk u (s.act u)) (v : T) :
    s'.ActOk v (Function.update s.act t a v) :=
  (Function.forall_update_iff s.act s'.ActOk).mpr ⟨ht, hu⟩ v

/-- A process that is filling the write end stays there while others move. -/
theorem setWrite_goto (hnot : ∀ f0 f1, s.act t ≠ .setWrite q f0 f1)
    (h : ∃ u f0 f1, s.act u = .setWrite q f0 f1) :
    ∃ u f0 f1, Function.update s.act t a u = .setWrite q f0 f1 := by
  obtain ⟨u, f0, f1, hu⟩ := h
  have hne : u ≠ t := fun he => hnot f0 f1 (he ▸ hu)
  exact ⟨u, f0, f1, by rw [Function.update_of_ne hne, hu]⟩

omit [DecidableEq T] in
/-- A change of what files are like otherwise leaves the targets where they are. -/
theorem keeps_congr (hfiles : ∀ g, (s'.files g).target = (s.files g).target)
    (hact : s'.act = s.act) (k : Keeper T) (o : Target) : s'.Keeps k o ↔ s.Keeps k o := by
  cases k with
  | closer u => rw [Keeps, Keeps, hact]
  | file g => rw [Keeps, Keeps, hfiles]

/-- A step of `t` that gives nothing back and touches no file leaves the targets where they are. -/
theorem keeps_goto (hact : s'.act = Function.update s.act t a)
    (hcloses : a.closes = (s.act t).closes)
    (hfiles : ∀ f o, s'.Keeps (.file f) o ↔ s.Keeps (.file f) o) (k : Keeper T) (o : Target) :
    s'.Keeps k o ↔ s.Keeps k o := by
  cases k with
  | file f => exact hfiles f o
  | closer u =>
    rw [Keeps, Keeps, hact]
    by_cases hu : u = t
    · rw [hu, Function.update_self, hcloses]
    · rw [Function.update_of_ne hu]

/-- A step of `t` that takes up or puts down no pipe leaves the pipes where they are. -/
theorem keepsPipe_goto (hact : s'.act = Function.update s.act t a)
    (hcarries : a.carries = (s.act t).carries) (hopen : ∀ q, s'.Open q ↔ s.Open q)
    (k : PipeKeeper T) (q : PipeRef) : s'.KeepsPipe k q ↔ s.KeepsPipe k q := by
  cases k with
  | pipe q' => exact and_congr_right fun _ => hopen q
  | proc u =>
    rw [KeepsPipe, KeepsPipe, hact]
    by_cases hu : u = t
    · rw [hu, Function.update_self, hcarries]
    · rw [Function.update_of_ne hu]

namespace Ok

/-- A pipe that has one end only is being made by somebody other than `t`. -/
theorem paired_goto (h : Ok pool s) (hnot : ∀ q f0 f1, s.act t ≠ .setWrite q f0 f1) (q : PipeRef)
    (w : Bool) (hw : .pipeEnd q w ∈ s.given) : .pipeEnd q (!w) ∈ s.given ∨
      w = false ∧ ∃ u f0 f1, Function.update s.act t a u = .setWrite q f0 f1 :=
  (h.paired q w hw).imp_right (And.imp_right (setWrite_goto (hnot q)))

/-- **Moving on**, with the same targets and pipes in hand. -/
theorem goto (h : Ok pool s) (hnot : ∀ q f0 f1, s.act t ≠ .setWrite q f0 f1)
    (hcloses : a.closes = (s.act t).closes) (hcarries : a.carries = (s.act t).carries)
    (ha : s.ActOk t a) : Ok pool (s.goto t a) where
  counted := h.counted
  closed := h.closed
  acts := acts_goto (ha.of_eq rfl rfl rfl rfl rfl) fun u _ =>
    (h.acts u).of_eq rfl rfl rfl rfl rfl
  targets := h.targets.congr (fun _ => Iff.rfl) (keeps_goto rfl hcloses fun _ _ => Iff.rfl)
  doneOnce := h.doneOnce
  pipes := h.pipes.congr (fun _ => Iff.rfl) (keepsPipe_goto rfl hcarries fun _ => Iff.rfl)
  freedOnce := h.freedOnce
  ends := h.ends
  flags := h.flags
  paired := h.paired_goto hnot
  pages := h.pages
  placed := h.placed
  othersOnce := h.othersOnce
  othersPlaced := h.othersPlaced

omit [DecidableEq T] in
/-- **`file_alloc`.** -/
theorem allocFile (h : Ok pool s) (hfind : s.files.findFree = some f) (t : T) :
    Ok pool { s with files := s.files.fileAlloc f, handles := (t, f) :: s.handles } := by
  have hzero := FileTable.ref_of_findFree hfind
  refine { h with
    counted := FileTable.forall_modify
      (P := fun g x => x.ref = handlesOf ((t, f) :: s.handles) g) ?_ fun g hg => ?_
    closed := FileTable.forall_modify (P := fun _ x => x.Closed)
      (File.closed_of_pos (Nat.succ_pos _)) fun g _ => h.closed g
    acts := fun u => ?_
    targets := h.targets.congr (fun _ => Iff.rfl)
      (keeps_congr (s.files.target_modify_ref f _) rfl) }
  · rw [handlesOf_cons_self, ← h.counted, hzero]
  · rw [handlesOf_cons_of_ne _ _ hg, h.counted]
  · refine (h.acts u).frame (fun g hg hone => ?_) (fun _ _ _ => id) (fun _ => id) (fun _ => id)
      fun _ _ => rfl
    have hgf : g ≠ f := by
      rintro rfl
      omega
    refine ⟨?_, List.mem_cons_of_mem _ hg⟩
    simp only [FileTable.fileAlloc, FileTable.modify_of_ne _ hgf]

omit [DecidableEq T] in
/-- The file that `file_alloc` has found is nobody else's. -/
theorem unused_allocFile (h : Ok pool s) (hfind : s.files.findFree = some f) (t : T) :
    Unused { s with files := s.files.fileAlloc f, handles := (t, f) :: s.handles } t f where
  ref := by simp [FileTable.fileAlloc]
  type := by simpa [FileTable.fileAlloc] using h.closed f (FileTable.ref_of_findFree hfind)
  handle := List.mem_cons_self

/-- What a step of `t` on a file of its own leaves alone: the files others alone have. -/
theorem other_file (h : Ok pool s) (htf : (t, f) ∈ s.handles) (hut : u ≠ t) {g : Fin nfile}
    (hg : (u, g) ∈ s.handles) (hone : (s.files g).ref = 1) : g ≠ f := by
  rintro rfl
  exact hut (h.sole hone htf hg)

/-- **A new file refers to an inode.** -/
theorem openInode (h : Ok pool s) (hidle : s.act t = .idle) (htf : (t, f) ∈ s.handles)
    (htype : (s.files f).type = .none) {r : InodeRef} (hr : .inode r ∉ s.given) (device : Bool) :
    Ok pool { s with
      files := s.files.modify f fun x =>
        { x with type := if device then .device else .inode, ip := r }
      given := .inode r :: s.given } := by
  have htarget : ∀ x : File,
      { x with type := if device then .device else .inode, ip := r }.target = some (.inode r) := by
    intro x
    cases device <;> rfl
  have hends : ∀ q w, Target.pipeEnd q w ∈ Target.inode r :: s.given ↔ .pipeEnd q w ∈ s.given := by
    simp
  have hopen : ∀ q, Open { s with given := .inode r :: s.given } q ↔ s.Open q := fun q => by
    simp [Open]
  refine { h with
    counted := FileTable.forall_modify (P := fun g x => x.ref = handlesOf s.handles g)
      (h.counted f) fun g _ => h.counted g
    closed := FileTable.forall_modify (P := fun _ x => x.Closed)
      (File.closed_of_pos (h.ref_pos htf)) fun g _ => h.closed g
    acts := fun u => ?_
    targets := h.targets.enter (g := .file f) hr (fun o ho => ?_) (fun o => ?_) fun k o => ?_
    pipes := h.pipes.congr (fun _ => Iff.rfl) fun k q => ?_
    ends := fun q w hq => h.ends q w ((hends q w).mp hq)
    flags := fun q hq => h.flags q ((hopen q).mp hq)
    paired := fun q w hq => ?_ }
  · by_cases hu : u = t
    · subst hu
      change ActOk _ u (s.act u)
      rw [hidle]
      trivial
    · refine (h.acts u).frame (fun g hg hone => ⟨?_, hg⟩) (fun q w _ => (hends q w).mp)
        (fun _ => List.mem_cons_of_mem _) (fun _ => id) fun _ _ => rfl
      simp only [FileTable.modify_of_ne _ (h.other_file htf hu hg hone)]
  · rw [Keeps, File.target_eq_none.mpr htype] at ho
    cases ho
  · rw [List.mem_cons, or_comm]
  · cases k with
    | closer u => simp [Keeps]
    | file g =>
      by_cases hg : g = f
      · subst hg
        simp [Keeps, htarget, File.target_eq_none.mpr htype, eq_comm]
      · simp [Keeps, FileTable.modify_of_ne _ hg, hg]
  · cases k with
    | proc u => exact Iff.rfl
    | pipe q' => exact and_congr_right fun _ => hopen q
  · rw [hends] at hq ⊢
    exact h.paired q w hq

/-- **`file_dup`.** -/
theorem fileDup (h : Ok pool s) (hidle : s.act t = .idle) (htf : (t, f) ∈ s.handles) (u : T) :
    Ok pool { s with
      files := s.files.modify f fun x => { x with ref := x.ref + 1 }
      handles := (u, f) :: s.handles } := by
  refine { h with
    counted := FileTable.forall_modify
      (P := fun g x => x.ref = handlesOf ((u, f) :: s.handles) g) ?_ fun g hg => ?_
    closed := FileTable.forall_modify (P := fun _ x => x.Closed)
      (File.closed_of_pos (Nat.succ_pos _)) fun g _ => h.closed g
    acts := fun v => ?_
    targets := h.targets.congr (fun _ => Iff.rfl)
      (keeps_congr (s.files.target_modify_ref f _) rfl) }
  · rw [handlesOf_cons_self, h.counted]
  · rw [handlesOf_cons_of_ne _ _ hg, h.counted]
  · by_cases hv : v = t
    · subst hv
      change ActOk _ v (s.act v)
      rw [hidle]
      trivial
    · refine (h.acts v).frame (fun g hg hone => ⟨?_, List.mem_cons_of_mem _ hg⟩)
        (fun _ _ _ => id) (fun _ => id) (fun _ => id) fun _ _ => rfl
      simp only [FileTable.modify_of_ne _ (h.other_file htf hv hg hone)]

/-- **`file_close`**, when it is not the last handle. -/
theorem closeFile_of_one_lt (h : Ok pool s) (ht : (s.act t).Quiet) (htf : (t, f) ∈ s.handles)
    (hmore : 1 < (s.files f).ref) : Ok pool (s.closeFile t f) := by
  have hclose : s.closeFile t f = { s with
      files := s.files.modify f fun x => { x with ref := x.ref - 1 }
      handles := s.handles.erase (t, f) }.goto t .idle := by
    rw [closeFile, FileTable.fileClose_of_one_lt hmore]
    rfl
  rw [hclose]
  refine goto { h with
    counted := FileTable.forall_modify
      (P := fun g x => x.ref = handlesOf (s.handles.erase (t, f)) g) ?_ fun g hg => ?_
    closed := FileTable.forall_modify (P := fun _ x => x.Closed)
      (File.closed_of_pos (Nat.sub_pos_of_lt hmore)) fun g _ => h.closed g
    acts := fun u => ?_
    targets := h.targets.congr (fun _ => Iff.rfl)
      (keeps_congr (s.files.target_modify_ref f _) rfl) }
    ?_ ?_ ?_ trivial
  · have hcount := h.counted f
    rw [handlesOf_erase_self htf] at hcount
    exact Nat.sub_eq_of_eq_add hcount
  · rw [h.counted, handlesOf_erase_of_ne htf hg]
  · refine (h.acts u).frame (fun g hg hone => ?_) (fun _ _ _ => id) (fun _ => id) (fun _ => id)
      fun _ _ => rfl
    have hgf : g ≠ f := by
      rintro rfl
      omega
    have hne : (u, g) ≠ (t, f) := fun he => hgf (congrArg Prod.snd he)
    refine ⟨?_, (List.mem_erase_of_ne hne).mpr hg⟩
    simp only [FileTable.modify_of_ne _ hgf]
  · exact ht.ne_setWrite
  · exact ht.closes.symm
  · exact ht.carries.symm

/-- **`file_close`**, when it is: what the file refers to passes to the process. -/
theorem closeFile_of_one (h : Ok pool s) (ht : (s.act t).Quiet) (htf : (t, f) ∈ s.handles)
    (hlast : (s.files f).ref = 1) : Ok pool (s.closeFile t f) := by
  have hclose : s.closeFile t f = { s with
      files := s.files.modify f fun x => { x with ref := 0, type := .none }
      handles := s.handles.erase (t, f) }.goto t ((s.files f).target.elim .idle .closing) := by
    rw [closeFile, FileTable.fileClose_of_one hlast]
  have hclosed : ∀ x : File, { x with ref := 0, type := .none }.target = none := fun _ => rfl
  have hacts : ∀ u, u ≠ t → ActOk { s with
      files := s.files.modify f fun x => { x with ref := 0, type := .none }
      handles := s.handles.erase (t, f) } u (s.act u) := fun u hu => by
    refine (h.acts u).frame (fun g hg hone => ?_) (fun _ _ _ => id) (fun _ => id) (fun _ => id)
      fun _ _ => rfl
    have hne : (u, g) ≠ (t, f) := fun he => hu (congrArg Prod.fst he)
    refine ⟨?_, (List.mem_erase_of_ne hne).mpr hg⟩
    simp only [FileTable.modify_of_ne _ (h.other_file htf hu hg hone)]
  have hfile : ∀ g o, Keeps { s with
      files := s.files.modify f fun x => { x with ref := 0, type := .none } } (.file g) o ↔
      s.Keeps (.file g) o ∧ g ≠ f := fun g o => by
    by_cases hg : g = f
    · subst hg
      simp [Keeps, hclosed]
    · simp [Keeps, FileTable.modify_of_ne _ hg, hg]
  have hcarries : ((s.files f).target.elim FileAct.idle .closing).carries = none := by
    cases (s.files f).target <;> rfl
  rw [hclose]
  refine { h with
    counted := FileTable.forall_modify
      (P := fun g x => x.ref = handlesOf (s.handles.erase (t, f)) g) ?_ fun g hg => ?_
    closed := FileTable.forall_modify (P := fun _ x => x.Closed) (fun _ => rfl) fun g _ =>
      h.closed g
    acts := acts_goto ?_ fun u hu => (hacts u hu).of_eq rfl rfl rfl rfl rfl
    targets := ?_
    pipes := h.pipes.congr (fun _ => Iff.rfl)
      (keepsPipe_goto rfl (hcarries.trans ht.carries.symm) fun _ => Iff.rfl)
    paired := h.paired_goto ht.ne_setWrite }
  · have hcount := h.counted f
    rw [handlesOf_erase_self htf] at hcount
    change 0 = _
    omega
  · rw [h.counted, handlesOf_erase_of_ne htf hg]
  · cases (s.files f).target <;> trivial
  · cases htarget : (s.files f).target with
    | none =>
      refine h.targets.congr (fun _ => Iff.rfl) fun k o => ?_
      cases k with
      | file g =>
        refine (hfile g o).trans ⟨And.left, fun hg => ⟨hg, ?_⟩⟩
        rintro rfl
        rw [Keeps, htarget] at hg
        cases hg
      | closer u =>
        by_cases hu : u = t
        · subst hu
          simp [Keeps, FileState.goto, ht.closes]
        · simp [Keeps, FileState.goto, hu]
    | some o =>
      have hnone : ∀ y, ¬ s.Keeps (.closer t) y := fun y hy => by
        rw [Keeps, ht.closes] at hy
        cases hy
      refine h.targets.pass (show s.Keeps (.file f) o from htarget) hnone fun k y => ?_
      cases k with
      | file g =>
        refine (hfile g y).trans ?_
        simp
      | closer u =>
        by_cases hu : u = t
        · subst hu
          simp [Keeps, FileState.goto, ht.closes, eq_comm]
        · simp [Keeps, FileState.goto, hu]

/-- **`pipe_alloc` takes a page.** -/
theorem pipeAlloc (h : Ok pool s) (hidle : s.act t = .idle) {i : Nat} (hi : i < numPages)
    (hfree : s.mem.isPageFree i = true) {serial : Nat} (hq : ⟨pageAddr i, serial⟩ ∉ s.made) :
    Ok pool ({ s with
      mem := s.mem.markPageAllocated i
      made := ⟨pageAddr i, serial⟩ :: s.made }.goto t (.allocRead ⟨pageAddr i, serial⟩)) := by
  generalize hqdef : (⟨pageAddr i, serial⟩ : PipeRef) = q at hq
  have hpage : q.page = pageAddr i := by rw [← hqdef]
  have hnew : q ∉ s.freed := fun hf => hq (h.made_of_freed hf)
  have hgiven : s.NoEnd q := fun w hw => hq (h.ends q w hw)
  refine { h with
    acts := acts_goto ?_ fun u _ => (h.acts u).of_eq rfl rfl rfl rfl rfl
    targets := h.targets.congr (fun _ => Iff.rfl)
      (keeps_goto rfl (by rw [hidle]; rfl) fun _ _ => Iff.rfl)
    pipes := h.pipes.enter (g := .proc t) hq (fun y hy => ?_) (fun y => ?_) fun k y => ?_
    ends := fun q' w hw => List.mem_cons_of_mem _ (h.ends q' w hw)
    paired := h.paired_goto (by simp [hidle])
    pages := h.pages.give (g := .pipe q) ⟨hi, hfree⟩ (fun y hy => hq hy.1) (fun y => ?_)
      fun k y => ?_
    placed := fun q' hq' hlive => ?_ }
  · exact hgiven
  · rw [KeepsPipe, hidle] at hy
    cases hy
  · exact List.mem_cons.trans or_comm
  · cases k with
    | pipe q' => exact (or_iff_left (by simp)).symm
    | proc u =>
      by_cases hu : u = t
      · subst hu
        simp [KeepsPipe, FileState.goto, FileAct.carries, hidle, eq_comm]
      · simp [KeepsPipe, FileState.goto, hu]
  · change y < numPages ∧ (s.mem.markPageAllocated i).isPageFree y = true ↔ _
    rw [Physmem.isPageFree_markPageAllocated, Bool.and_eq_true, decide_eq_true_eq, and_assoc]
  · cases k with
    | other page => exact (or_iff_left (by simp)).symm
    | pipe q' =>
      by_cases hq' : q' = q
      · subst hq'
        constructor
        · exact fun hy => Or.inr ⟨rfl, pageAddr_inj hy.2.2.1 hi (hy.2.2.2.symm.trans hpage)⟩
        · rintro (hy | ⟨-, rfl⟩)
          · exact absurd hy.1 hq
          · exact ⟨List.mem_cons_self, hnew, hi, hpage⟩
      · have hmem : q' ∈ q :: s.made ↔ q' ∈ s.made := by simp [hq']
        refine Iff.trans ?_ (or_iff_left (by simp [hq'])).symm
        exact and_congr_left fun _ => hmem
  · rcases List.mem_cons.mp hq' with rfl | hq'
    · exact ⟨i, List.mem_cons_self, hlive, hi, hpage⟩
    · obtain ⟨j, hj⟩ := h.placed q' hq' hlive
      exact ⟨j, List.mem_cons_of_mem _ hj.1, hj.2⟩

/-- **`pipe_alloc` initialises `*pi`.** -/
theorem initPipe (h : Ok pool s) {f0 f1 : Fin nfile} (ht : s.act t = .initPipe q f0 f1) :
    Ok pool ({ s with
      pipes := Function.update s.pipes q.page (Pipe.alloc (s.pipes q.page).data) }.goto t
        (.setRead q f0 f1)) := by
  have hkeep : s.KeepsPipe (.proc t) q := by
    rw [KeepsPipe, ht]
    rfl
  have hother : ∀ {k q'}, s.KeepsPipe k q' → k ≠ .proc t →
      Function.update s.pipes q.page (Pipe.alloc (s.pipes q.page).data) q'.page = s.pipes q'.page :=
    fun hk hne => Function.update_of_ne (h.page_ne hkeep hk hne) _ _
  have htok := h.acts t
  rw [ht] at htok
  have hbase : Ok pool { s with
      pipes := Function.update s.pipes q.page (Pipe.alloc (s.pipes q.page).data) } := by
    refine { h with
      acts := fun u => ?_
      flags := fun q' hq' => ?_ }
    · by_cases hu : u = t
      · subst hu
        change ActOk _ u (s.act u)
        rw [ht]
        exact ⟨htok.1, ⟨htok.2.1.ref, htok.2.1.type, htok.2.1.handle⟩,
          ⟨htok.2.2.1.ref, htok.2.2.1.type, htok.2.2.1.handle⟩, htok.2.2.2⟩
      · exact (h.acts u).frame (fun f hf _ => ⟨rfl, hf⟩) (fun _ _ _ => id) (fun _ => id)
          (fun _ => id) fun q' hq' =>
            hother (k := .proc u) hq' fun he => hu (PipeKeeper.proc.inj he)
    · have hsame := hother (k := .pipe q') ⟨rfl, hq'⟩ (by simp)
      simp only [hsame]
      exact h.flags q' hq'
  refine hbase.goto (by simp [ht]) ?_ ?_ ?_
  · change _ = (s.act t).closes
    rw [ht]
    rfl
  · change _ = (s.act t).carries
    rw [ht]
    rfl
  · have hnow := hbase.acts t
    change ActOk _ t (s.act t) at hnow
    rw [ht] at hnow
    refine ⟨hnow, ?_⟩
    simp [Pipe.alloc]

/-- Nobody else makes the pipe that `t` makes. -/
theorem builds_inj (h : Ok pool s) (ht : (s.act t).builds = some q)
    (hu : (s.act u).builds = some q) : u = t := by
  -- Whoever has given the read end to a file holds the only handle of this file.
  have hcase : ∀ v, (s.act v).builds = some q → (s.act v).carries = some q ∨
      ∃ f0 f1, s.act v = .setWrite q f0 f1 ∧ s.Half v q f0 := fun v hv => by
    have hok := h.acts v
    cases hact : s.act v with
    | setWrite q' f0 f1 =>
      rw [hact] at hv hok
      obtain rfl := Option.some.inj hv
      exact Or.inr ⟨f0, f1, rfl, hok.1⟩
    | freeing q' => rw [hact] at hv; cases hv
    | _ => rw [hact] at hv; exact Or.inl hv
  have hopen : ∀ {v f0}, s.Half v q f0 → s.Open q := fun hv =>
    ⟨false, h.given_of_target hv.target⟩
  rcases hcase t ht with hct | ⟨f0, f1, -, hft⟩
  · rcases hcase u hu with hcu | ⟨g0, g1, -, hfu⟩
    · exact PipeKeeper.proc.inj (h.pipes.alone (show s.KeepsPipe (.proc u) q from hcu) hct)
    · exact absurd (hopen hfu) (h.not_open hct)
  · rcases hcase u hu with hcu | ⟨g0, g1, -, hfu⟩
    · exact absurd (hopen hft) (h.not_open hcu)
    · have hfile := Keeper.file.inj (h.targets.alone
        (show s.Keeps (.file g0) _ from hfu.target) (show s.Keeps (.file f0) _ from hft.target))
      subst hfile
      exact h.sole hft.ref hft.handle hfu.handle

/-- What others know when `t` gives an end of the pipe it makes to a file of its own. -/
theorem other_setEnd (h : Ok pool s) (hb : (s.act t).builds = some q) (hf : (t, f) ∈ s.handles)
    (hut : u ≠ t) (w : Bool) : ActOk (s.setEnd q f w) u (s.act u) := by
  refine (h.acts u).frame (fun g hg hone => ⟨?_, hg⟩) (fun q' w' hq' hw' => ?_)
    (fun _ => List.mem_cons_of_mem _) (fun _ => id) fun _ _ => rfl
  · simp only [setEnd, FileTable.modify_of_ne _ (h.other_file hf hut hg hone)]
  · rcases List.mem_cons.mp hw' with he | hw'
    · injection he with hqq
      subst hqq
      exact absurd (h.builds_inj hb hq') hut
    · exact hw'

omit [DecidableEq T] in
/-- A file that `t` alone has is given an end of a pipe. -/
theorem targets_setEnd (h : Ok pool s) (hf : s.Unused t f) {w : Bool}
    (hnew : .pipeEnd q w ∉ s.given) : Ledger (· ∈ (s.setEnd q f w).given) (· ∈ s.done)
      (s.setEnd q f w).Keeps := by
  have hnone := File.target_eq_none.mpr hf.type
  refine h.targets.enter (g := .file f) hnew (fun o ho => ?_) (fun o => ?_) fun k o => ?_
  · rw [Keeps, hnone] at ho
    cases ho
  · exact List.mem_cons.trans or_comm
  · cases k with
    | closer u => exact (or_iff_left (by simp)).symm
    | file g =>
      by_cases hg : g = f
      · subst hg
        simp [Keeps, setEnd, File.target, hf.type, eq_comm]
      · simp [Keeps, setEnd, FileTable.modify_of_ne _ hg, hg]

omit [DecidableEq T] in
theorem counted_setEnd (h : Ok pool s) (q : PipeRef) (f : Fin nfile) (w : Bool) :
    ∀ g, ((s.setEnd q f w).files g).ref = handlesOf s.handles g :=
  FileTable.forall_modify (P := fun g x => x.ref = handlesOf s.handles g) (h.counted f)
    fun g _ => h.counted g

omit [DecidableEq T] in
theorem closed_setEnd (h : Ok pool s) (q : PipeRef) (hf : s.Unused t f) (w : Bool) :
    ∀ g, ((s.setEnd q f w).files g).Closed :=
  FileTable.forall_modify (P := fun _ x => x.Closed)
    (File.closed_of_pos (hf.ref ▸ Nat.one_pos)) fun g _ => h.closed g

/-- **`pipe_alloc` fills `**f0`**: the pipe is open. -/
theorem setRead (h : Ok pool s) {f0 f1 : Fin nfile} (ht : s.act t = .setRead q f0 f1) :
    Ok pool ((s.setEnd q f0 false).goto t (.setWrite q f0 f1)) := by
  have hok := h.acts t
  rw [ht] at hok
  obtain ⟨⟨hnone, h0, h1, hne⟩, hread, hwrite⟩ := hok
  have hcarries : (s.act t).carries = some q := by rw [ht]; rfl
  have hbuilds : (s.act t).builds = some q := by rw [ht]; rfl
  have hnotdone : ∀ w, .pipeEnd q w ∉ s.done := fun w hw => hnone w (h.given_of_done hw)
  have hmem : ∀ q' w, .pipeEnd q' w ∈ (s.setEnd q f0 false).given ↔
      (q' = q ∧ w = false) ∨ .pipeEnd q' w ∈ s.given := fun q' w => by
    simp [setEnd]
  have hopen : ∀ q', (s.setEnd q f0 false).Open q' ↔ s.Open q' ∨ q' = q := fun q' => by
    by_cases hq : q' = q
    · subst hq
      exact iff_of_true ⟨false, (hmem _ _).mpr (Or.inl ⟨rfl, rfl⟩), hnotdone false⟩ (Or.inr rfl)
    · simp [Open, hq, setEnd]
  refine { h with
    counted := h.counted_setEnd q f0 false
    closed := h.closed_setEnd q h0 false
    acts := acts_goto ?_ fun u hu =>
      (h.other_setEnd hbuilds h0.handle hu false).of_eq rfl rfl rfl rfl rfl
    targets := (h.targets_setEnd h0 (hnone false)).congr (fun _ => Iff.rfl)
      (keeps_goto rfl (by rw [setEnd, ht]; rfl) fun _ _ => Iff.rfl)
    pipes := h.pipes.pass (show s.KeepsPipe (.proc t) q from hcarries)
      (fun y (hy : s.KeepsPipe (.pipe q) y) => h.not_open hcarries (hy.1 ▸ hy.2)) fun k y => ?_
    ends := fun q' w hw => ?_
    flags := fun q' hq' => ?_
    paired := fun q' w hw => ?_ }
  · refine ⟨⟨?_, ?_, h0.handle, fun hw => ?_⟩, ⟨?_, ?_, h1.handle⟩⟩
    · simpa [setEnd, FileState.goto] using h0.ref
    · simp [setEnd, FileState.goto, File.target]
    · rcases (hmem q true).mp hw with ⟨-, hw⟩ | hw
      · cases hw
      · exact hnone true hw
    · simpa [setEnd, FileState.goto, FileTable.modify_of_ne _ (Ne.symm hne)] using h1.ref
    · simpa [setEnd, FileState.goto, FileTable.modify_of_ne _ (Ne.symm hne)] using h1.type
  · cases k with
    | pipe q' =>
      change q' = y ∧ (s.setEnd q f0 false).Open y ↔ _
      rw [hopen]
      simp only [KeepsPipe, ne_eq, reduceCtorEq, not_false_eq_true, and_true, PipeKeeper.pipe.injEq]
      constructor
      · rintro ⟨rfl, hy | rfl⟩
        · exact Or.inl ⟨rfl, hy⟩
        · exact Or.inr ⟨rfl, rfl⟩
      · rintro (⟨rfl, hy⟩ | ⟨rfl, rfl⟩)
        · exact ⟨rfl, Or.inl hy⟩
        · exact ⟨rfl, Or.inr rfl⟩
    | proc u =>
      by_cases hu : u = t
      · subst hu
        simp [KeepsPipe, FileState.goto, FileAct.carries]
      · simp [KeepsPipe, setEnd, FileState.goto, hu]
  · rcases (hmem q' w).mp hw with ⟨rfl, -⟩ | hw
    · exact (h.live_of_keeps (k := .proc t) hcarries).1
    · exact h.ends q' w hw
  · rcases (hopen q').mp hq' with hq' | rfl
    · exact h.flags q' hq'
    · refine ⟨?_, ?_⟩
      · simpa [setEnd, FileState.goto, hread] using hnotdone false
      · simpa [setEnd, FileState.goto, hwrite] using hnotdone true
  · rcases (hmem q' w).mp hw with ⟨rfl, rfl⟩ | hw
    · exact Or.inr ⟨rfl, t, f0, f1, by simp [FileState.goto]⟩
    · exact (h.paired_goto (by simp [ht]) q' w hw).imp_left fun hp => (hmem q' _).mpr (Or.inr hp)

/-- **`pipe_alloc` fills `**f1`** and returns. -/
theorem setWrite (h : Ok pool s) {f0 f1 : Fin nfile} (ht : s.act t = .setWrite q f0 f1) :
    Ok pool ((s.setEnd q f1 true).goto t .idle) := by
  have hok := h.acts t
  rw [ht] at hok
  obtain ⟨hhalf, h1⟩ := hok
  have hbuilds : (s.act t).builds = some q := by rw [ht]; rfl
  obtain ⟨hgiven, hnotdone⟩ := h.given_of_target hhalf.target
  have hmem : ∀ q' w, .pipeEnd q' w ∈ (s.setEnd q f1 true).given ↔
      (q' = q ∧ w = true) ∨ .pipeEnd q' w ∈ s.given := fun q' w => by
    simp [setEnd]
  have hopen : ∀ q', (s.setEnd q f1 true).Open q' ↔ s.Open q' := fun q' => by
    by_cases hq : q' = q
    · subst hq
      exact iff_of_true ⟨false, (hmem _ _).mpr (Or.inr hgiven), hnotdone⟩
        ⟨false, hgiven, hnotdone⟩
    · simp [Open, hq, setEnd]
  refine { h with
    counted := h.counted_setEnd q f1 true
    closed := h.closed_setEnd q h1 true
    acts := acts_goto trivial fun u hu =>
      (h.other_setEnd hbuilds h1.handle hu true).of_eq rfl rfl rfl rfl rfl
    targets := (h.targets_setEnd h1 hhalf.noWrite).congr (fun _ => Iff.rfl)
      (keeps_goto rfl (by rw [setEnd, ht]; rfl) fun _ _ => Iff.rfl)
    pipes := h.pipes.congr (fun _ => Iff.rfl) (keepsPipe_goto rfl (by rw [ht]; rfl) hopen)
    ends := fun q' w hw => ?_
    flags := fun q' hq' => h.flags q' ((hopen q').mp hq')
    paired := fun q' w hw => ?_ }
  · rcases (hmem q' w).mp hw with ⟨rfl, -⟩ | hw
    · exact h.ends _ false hgiven
    · exact h.ends q' w hw
  · by_cases hq : q' = q
    · subst hq
      left
      cases w with
      | false => exact (hmem _ _).mpr (Or.inl ⟨rfl, rfl⟩)
      | true => exact (hmem _ _).mpr (Or.inr hgiven)
    · rcases (hmem q' w).mp hw with ⟨he, -⟩ | hw
      · exact absurd he hq
      · refine Or.imp (fun hp => (hmem q' _).mpr (Or.inr hp)) (And.imp_right (setWrite_goto ?_))
          (h.paired q' w hw)
        intro g0 g1 hset
        change s.act t = _ at hset
        rw [ht] at hset
        injection hset with hset
        exact hq hset.symm

/-- **`free_physical_page`**, by the process that carries the pipe. -/
theorem freePipe (h : Ok pool s) (hcarries : (s.act t).carries = some q)
    (hcloses : (s.act t).closes = none) (hnot : ∀ q f0 f1, s.act t ≠ .setWrite q f0 f1)
    (ha : s.ActOk t a) (ha' : a.Quiet) : Ok pool ((s.freePipe q).goto t a) := by
  have hkeep : s.KeepsPipe (.proc t) q := hcarries
  obtain ⟨hmade, hlive⟩ := h.live_of_keeps hkeep
  obtain ⟨i, hi⟩ := h.placed q hmade hlive
  obtain ⟨-, -, hlt, hpage⟩ := id hi
  refine { h with
    acts := acts_goto (ha.of_eq rfl rfl rfl rfl rfl) fun u _ => (h.acts u).of_eq rfl rfl rfl rfl rfl
    targets := h.targets.congr (fun _ => Iff.rfl)
      (keeps_goto rfl (ha'.closes.trans hcloses.symm) fun _ _ => Iff.rfl)
    pipes := h.pipes.back hkeep (fun y => ?_) fun k y => ?_
    freedOnce := List.nodup_cons.mpr ⟨hlive, h.freedOnce⟩
    paired := h.paired_goto hnot
    pages := h.pages.back hi (fun j => ?_) fun k j => ?_
    placed := fun q' hq' hlive' => ?_ }
  · exact List.mem_cons.trans or_comm
  · cases k with
    | pipe q' => exact (and_iff_left (by simp)).symm
    | proc u =>
      by_cases hu : u = t
      · subst hu
        simp [KeepsPipe, FileState.goto, ha'.carries]
      · simp [KeepsPipe, FileState.freePipe, FileState.goto, hu]
  · change j < numPages ∧ (s.mem.freePage q.page).isPageFree j = true ↔ _
    rw [hpage, Physmem.isPageFree_freePage_pageAddr _ hlt, Bool.or_eq_true, decide_eq_true_eq]
    constructor
    · rintro ⟨hj, hfree | rfl⟩
      · exact Or.inl ⟨hj, hfree⟩
      · exact Or.inr rfl
    · rintro (⟨hj, hfree⟩ | rfl)
      · exact ⟨hj, Or.inl hfree⟩
      · exact ⟨hlt, Or.inr rfl⟩
  · cases k with
    | other page => exact (and_iff_left (by simp)).symm
    | pipe q' =>
      simp only [KeepsPage, FileState.freePipe, FileState.goto, List.mem_cons, not_or, ne_eq,
        PageKeeper.pipe.injEq]
      tauto
  · obtain ⟨hne, hlive'⟩ := not_or.mp fun hq => hlive' (List.mem_cons.mpr hq)
    obtain ⟨j, hj⟩ := h.placed q' hq' hlive'
    exact ⟨j, hj.1, fun hf => (List.mem_cons.mp hf).elim hne hlive', hj.2.2⟩

/-- **`inode_put`.** -/
theorem inodePut (h : Ok pool s) {r : InodeRef} (ht : s.act t = .closing (.inode r)) :
    Ok pool ({ s with done := .inode r :: s.done }.goto t .idle) := by
  have hcloses : (s.act t).closes = some (.inode r) := by rw [ht]; rfl
  have hends : ∀ q w, Target.pipeEnd q w ∈ Target.inode r :: s.done ↔ .pipeEnd q w ∈ s.done := by
    simp
  have hopen : ∀ q, Open { s with done := .inode r :: s.done } q ↔ s.Open q := fun q => by
    simp [Open]
  refine { h with
    acts := acts_goto trivial fun u _ => (h.acts u).frame (fun f hf _ => ⟨rfl, hf⟩)
      (fun _ _ _ => id) (fun _ => id) (fun _ => List.mem_cons_of_mem _) fun _ _ => rfl
    targets := h.targets.back (show s.Keeps (.closer t) _ from hcloses) (fun o => ?_) fun k o => ?_
    doneOnce := List.nodup_cons.mpr ⟨(h.given_of_closes hcloses).2, h.doneOnce⟩
    pipes := h.pipes.congr (fun _ => Iff.rfl) (keepsPipe_goto rfl (by rw [ht]; rfl) hopen)
    flags := fun q hq => ?_
    paired := h.paired_goto (by simp [ht]) }
  · exact List.mem_cons.trans or_comm
  · cases k with
    | file g => exact (and_iff_left (by simp)).symm
    | closer u =>
      by_cases hu : u = t
      · subst hu
        simp [Keeps, FileState.goto]
      · simp [Keeps, FileState.goto, hu]
  · exact (h.flags q ((hopen q).mp hq)).imp (fun hf => hf.trans (hends q false).symm)
      fun hf => hf.trans (hends q true).symm

omit [DecidableEq T] in
/-- The other end of a pipe that a process closes has been given to a file, since this one is not
with the file any more. -/
theorem other_end (h : Ok pool s) {w : Bool} (hcloses : (s.act t).closes = some (.pipeEnd q w)) :
    .pipeEnd q (!w) ∈ s.given := by
  refine (h.paired q w (h.given_of_closes hcloses).1).resolve_right ?_
  rintro ⟨rfl, u, f0, f1, hset⟩
  have hok := h.acts u
  rw [hset] at hok
  cases h.targets.alone (show s.Keeps (.file f0) _ from hok.1.target)
    (show s.Keeps (.closer t) _ from hcloses)

omit [DecidableEq T] in
theorem mem_done_end {q' : PipeRef} {w w' : Bool} :
    .pipeEnd q' w' ∈ Target.pipeEnd q w :: s.done ↔
      (q' = q ∧ w' = w) ∨ .pipeEnd q' w' ∈ s.done := by simp

omit [DecidableEq T] in
/-- The flags of a pipe say which of its ends are closed, also after `pipe_close`. -/
theorem close_flags (h : Ok pool s) (hopen : s.Open q) (w : Bool) :
    (((s.pipes q.page).close w).readopen = false ↔
        .pipeEnd q false ∈ Target.pipeEnd q w :: s.done) ∧
      (((s.pipes q.page).close w).writeopen = false ↔
        .pipeEnd q true ∈ Target.pipeEnd q w :: s.done) := by
  obtain ⟨hread, hwrite⟩ := h.flags q hopen
  rw [mem_done_end, mem_done_end]
  cases w with
  | false => simpa [Pipe.close] using hwrite
  | true => simpa [Pipe.close] using hread

omit [DecidableEq T] in
/-- The process that closes an end finds both flags clear when the other end is closed. -/
theorem close_both (h : Ok pool s) (hopen : s.Open q) (w : Bool) :
    (((s.pipes q.page).close w).readopen = false ∧
      ((s.pipes q.page).close w).writeopen = false) ↔ .pipeEnd q (!w) ∈ s.done := by
  obtain ⟨hread, hwrite⟩ := h.close_flags hopen w
  rw [hread, hwrite, mem_done_end, mem_done_end]
  cases w <;> simp

theorem open_closeEnd_of_ne {q' : PipeRef} (hq : q' ≠ q) (t : T) (w : Bool) :
    (s.closeEnd t q w).Open q' ↔ s.Open q' := by
  simp [Open, FileState.closeEnd, FileState.goto, hq]

/-- After `pipe_close` the pipe is open exactly when the process does not free the page. -/
theorem open_closeEnd {w : Bool} (hpair : .pipeEnd q (!w) ∈ s.given) :
    (s.closeEnd t q w).Open q ↔ .pipeEnd q (!w) ∉ s.done := by
  constructor
  · rintro ⟨w', -, hw'⟩
    obtain ⟨hne, hw'⟩ := not_or.mp fun ho => hw' (mem_done_end.mpr ho)
    have hflip : w' = !w := Bool.eq_not.mpr fun he => hne ⟨rfl, he⟩
    rwa [← hflip]
  · refine fun hw' => ⟨!w, hpair, fun hmem => ?_⟩
    rcases mem_done_end.mp hmem with ⟨-, hbad⟩ | hbad
    · cases w <;> cases hbad
    · exact hw' hbad

/-- The process gives the end back. -/
theorem closeEnd_targets (h : Ok pool s) {w : Bool}
    (hcloses : (s.act t).closes = some (.pipeEnd q w)) :
    Ledger (· ∈ s.given) (· ∈ Target.pipeEnd q w :: s.done) (s.closeEnd t q w).Keeps := by
  refine h.targets.back (show s.Keeps (.closer t) _ from hcloses) (fun o => ?_) fun k o => ?_
  · exact List.mem_cons.trans or_comm
  · cases k with
    | file g => exact (and_iff_left (by simp)).symm
    | closer u =>
      by_cases hu : u = t
      · subst hu
        simp only [Keeps, FileState.closeEnd, FileState.goto, Function.update_self]
        split <;> simp [FileAct.closes]
      · simp [Keeps, FileState.closeEnd, FileState.goto, hu]

/-- The process that closes the second end takes the pipe over; after the first end the pipe stays
with its files. -/
theorem closeEnd_pipes (h : Ok pool s) {w : Bool} (ht : s.act t = .closing (.pipeEnd q w)) :
    Ledger (· ∈ s.made) (· ∈ s.freed) (s.closeEnd t q w).KeepsPipe := by
  have hcloses : (s.act t).closes = some (.pipeEnd q w) := by rw [ht]; rfl
  have hkeep : s.KeepsPipe (.pipe q) q := ⟨rfl, w, h.given_of_closes hcloses⟩
  have hself := open_closeEnd (t := t) (h.other_end hcloses)
  have hboth := h.close_both hkeep.2 w
  by_cases hfree : .pipeEnd q (!w) ∈ s.done
  · have hact : (s.closeEnd t q w).act t = .freeing q := by
      simp [FileState.closeEnd, FileState.goto, hboth.mpr hfree]
    have hnone : ∀ y, ¬ s.KeepsPipe (.proc t) y := fun y hy => by
      rw [KeepsPipe, ht] at hy
      cases hy
    refine h.pipes.pass hkeep hnone fun k y => ?_
    cases k with
    | pipe q' =>
      simp only [KeepsPipe, ne_eq, reduceCtorEq, false_and, or_false, PipeKeeper.pipe.injEq]
      by_cases hq : q' = q
      · subst hq
        simp only [not_true_eq_false, and_false, iff_false, not_and]
        rintro rfl
        rw [hself, not_not]
        exact hfree
      · simp only [hq, not_false_eq_true, and_true]
        refine and_congr_right fun hy => ?_
        subst hy
        exact open_closeEnd_of_ne hq t w
    | proc u =>
      by_cases hu : u = t
      · subst hu
        simp [KeepsPipe, hact, FileAct.carries, ht, eq_comm]
      · simp [KeepsPipe, FileState.closeEnd, FileState.goto, hu]
  · have hact : (s.closeEnd t q w).act = Function.update s.act t .idle := by
      simp [FileState.closeEnd, FileState.goto, hboth, hfree]
    refine h.pipes.congr (fun _ => Iff.rfl)
      (keepsPipe_goto hact (by rw [ht]; rfl) fun q' => ?_)
    by_cases hq : q' = q
    · subst hq
      exact iff_of_true (hself.mpr hfree) hkeep.2
    · exact open_closeEnd_of_ne hq t w

/-- **`pipe_close`** closes an end; the process that closes the second one carries the pipe from
there on. -/
theorem closeEnd (h : Ok pool s) {w : Bool} (ht : s.act t = .closing (.pipeEnd q w)) :
    Ok pool (s.closeEnd t q w) := by
  have hcloses : (s.act t).closes = some (.pipeEnd q w) := by rw [ht]; rfl
  obtain ⟨hgiven, hnotdone⟩ := h.given_of_closes hcloses
  have hopen : s.Open q := ⟨w, hgiven, hnotdone⟩
  have hpage : ∀ {k q'}, s.KeepsPipe k q' → k ≠ .pipe q →
      (s.closeEnd t q w).pipes q'.page = s.pipes q'.page := fun hk hne =>
    Function.update_of_ne (h.page_ne (show s.KeepsPipe (.pipe q) q from ⟨rfl, hopen⟩) hk hne) _ _
  refine { h with
    acts := acts_goto ?_ fun u hu => (h.acts u).frame (fun f hf _ => ⟨rfl, hf⟩)
      (fun _ _ _ => id) (fun _ => id) (fun _ => List.mem_cons_of_mem _) fun q' hq' =>
        hpage (k := .proc u) hq' (by simp)
    targets := h.closeEnd_targets hcloses
    doneOnce := List.nodup_cons.mpr ⟨hnotdone, h.doneOnce⟩
    pipes := h.closeEnd_pipes ht
    flags := fun q' hq' => ?_
    paired := h.paired_goto (by simp [ht]) }
  · split
    case isTrue hfree =>
      intro w'
      by_cases he : w' = w
      · subst he
        exact ⟨hgiven, List.mem_cons_self⟩
      · obtain rfl : w' = !w := Bool.eq_not.mpr he
        exact ⟨h.other_end hcloses, List.mem_cons_of_mem _ ((h.close_both hopen w).mp hfree)⟩
    case isFalse => trivial
  · by_cases hq : q' = q
    · subst hq
      simpa [FileState.closeEnd, FileState.goto] using h.close_flags hopen w
    · have hq'' := (open_closeEnd_of_ne hq t w).mp hq'
      rw [hpage (k := .pipe q') ⟨rfl, hq''⟩ (by simpa using hq)]
      refine (h.flags q' hq'').imp (fun hf => hf.trans ?_) fun hf => hf.trans ?_
      · simp [FileState.closeEnd, FileState.goto, hq]
      · simp [FileState.closeEnd, FileState.goto, hq]

omit [DecidableEq T] in
/-- **Other code takes a page.** -/
theorem otherAlloc (h : Ok pool s) {i : Nat} (hi : i < numPages)
    (hfree : s.mem.isPageFree i = true) :
    Ok pool { s with mem := s.mem.markPageAllocated i, others := pageAddr i :: s.others } := by
  have hnew : pageAddr i ∉ s.others := fun hmem => by
    obtain ⟨j, hj⟩ := h.othersPlaced _ hmem
    refine h.pages.taken hj ?_
    rw [← pageAddr_inj hi hj.2.1 hj.2.2]
    exact ⟨hi, hfree⟩
  refine { h with
    acts := fun u => (h.acts u).of_eq rfl rfl rfl rfl rfl
    targets := h.targets.congr (fun _ => Iff.rfl) fun k o => Iff.rfl
    pipes := h.pipes.congr (fun _ => Iff.rfl) fun k o => ?_
    pages := h.pages.give (g := .other (pageAddr i)) ⟨hi, hfree⟩ (fun y hy => hnew hy.1)
      (fun y => ?_) fun k y => ?_
    othersOnce := List.nodup_cons.mpr ⟨hnew, h.othersOnce⟩
    othersPlaced := fun page hpage => ?_ }
  · cases k <;> exact Iff.rfl
  · change y < numPages ∧ (s.mem.markPageAllocated i).isPageFree y = true ↔ _
    rw [Physmem.isPageFree_markPageAllocated, Bool.and_eq_true, decide_eq_true_eq, and_assoc]
  · cases k with
    | pipe q => exact (or_iff_left (by simp)).symm
    | other page =>
      simp only [KeepsPage, List.mem_cons, PageKeeper.other.injEq]
      constructor
      · rintro ⟨rfl | hpage, hy, he⟩
        · exact Or.inr ⟨rfl, (pageAddr_inj hi hy he).symm⟩
        · exact Or.inl ⟨hpage, hy, he⟩
      · rintro (⟨hpage, hy⟩ | ⟨rfl, rfl⟩)
        · exact ⟨Or.inr hpage, hy⟩
        · exact ⟨Or.inl rfl, hi, rfl⟩
  · rcases List.mem_cons.mp hpage with rfl | hpage
    · exact ⟨i, List.mem_cons_self, hi, rfl⟩
    · obtain ⟨j, hj⟩ := h.othersPlaced page hpage
      exact ⟨j, List.mem_cons_of_mem _ hj.1, hj.2⟩

omit [DecidableEq T] in
/-- **Other code gives a page back.** -/
theorem otherFree (h : Ok pool s) {page : Word} (hpage : page ∈ s.others) :
    Ok pool { s with mem := s.mem.freePage page, others := s.others.erase page } := by
  obtain ⟨i, hkeep⟩ := h.othersPlaced page hpage
  obtain ⟨-, hi, rfl⟩ := id hkeep
  refine { h with
    acts := fun u => (h.acts u).of_eq rfl rfl rfl rfl rfl
    targets := h.targets.congr (fun _ => Iff.rfl) fun k o => Iff.rfl
    pipes := h.pipes.congr (fun _ => Iff.rfl) fun k o => ?_
    pages := h.pages.back hkeep (fun j => ?_) fun k j => ?_
    othersOnce := h.othersOnce.erase _
    othersPlaced := fun page' hpage' => ?_ }
  · cases k <;> exact Iff.rfl
  · change j < numPages ∧ (s.mem.freePage (pageAddr i)).isPageFree j = true ↔ _
    rw [Physmem.isPageFree_freePage_pageAddr _ hi, Bool.or_eq_true, decide_eq_true_eq]
    constructor
    · rintro ⟨hj, hfree | rfl⟩
      · exact Or.inl ⟨hj, hfree⟩
      · exact Or.inr rfl
    · rintro (⟨hj, hfree⟩ | rfl)
      · exact ⟨hj, Or.inl hfree⟩
      · exact ⟨hi, Or.inr rfl⟩
  · cases k with
    | pipe q => exact (and_iff_left (by simp)).symm
    | other page' =>
      simp only [KeepsPage, h.othersOnce.mem_erase_iff, ne_eq, PageKeeper.other.injEq]
      exact ⟨fun ⟨⟨hne, hmem⟩, hj⟩ => ⟨⟨hmem, hj⟩, hne⟩, fun ⟨⟨hmem, hj⟩, hne⟩ => ⟨⟨hne, hmem⟩, hj⟩⟩
  · obtain ⟨hne, hmem⟩ := h.othersOnce.mem_erase_iff.mp hpage'
    obtain ⟨j, hj⟩ := h.othersPlaced page' hmem
    exact ⟨j, hpage', hj.2⟩

/-- Both ways through `file_close`. -/
theorem closeFile (h : Ok pool s) (ht : (s.act t).Quiet) (htf : (t, f) ∈ s.handles) :
    Ok pool (s.closeFile t f) := by
  have hpos := h.ref_pos htf
  by_cases hlast : (s.files f).ref = 1
  · exact h.closeFile_of_one ht htf hlast
  · exact h.closeFile_of_one_lt ht htf (by omega)

end Ok

/-! ## 5. Any run -/

/-- What a step does to the table and to the handles. -/
inductive Effect (s : FileState T) (op : FileOp T) (s' : FileState T) : Prop
  | same (hfiles : s'.files = s.files) (hhandles : s'.handles = s.handles)
  | allocated (t : T) (f : Fin nfile) (hfind : s.files.findFree = some f)
      (hfiles : s'.files = s.files.fileAlloc f) (hhandles : s'.handles = (t, f) :: s.handles)
  | filled (f : Fin nfile) (htarget : (s.files f).target = none)
      (hfiles : ∀ g, g ≠ f → s'.files g = s.files g) (hhandles : s'.handles = s.handles)
  | duplicated (t : T) (f : Fin nfile) (u : T) (hop : op = .fileDup t f u)
      (hfiles : s'.files = s.files.modify f fun x => { x with ref := x.ref + 1 })
      (hhandles : s'.handles = (u, f) :: s.handles)
  | closed (t : T) (f : Fin nfile) (htf : (t, f) ∈ s.handles)
      (hfiles : s'.files = (s.files.fileClose f).1) (hhandles : s'.handles = s.handles.erase (t, f))

/-- **The first `file_alloc` of `pipe_alloc`.** -/
theorem next_allocRead {op : FileOp T} (h : Ok pool s) (hact : s.act t = .allocRead q)
    (hs : s.next t = some s') : Ok pool s' ∧ Effect s op s' := by
  have hok := h.acts t
  rw [hact] at hok
  simp only [next, hact, FileState.allocFile] at hs
  cases hfind : s.files.findFree with
  | none =>
    rw [hfind] at hs
    obtain rfl := Option.some.inj hs
    exact ⟨h.goto (by simp [hact]) (by rw [hact]; rfl) (by rw [hact]; rfl) ⟨hok, by simp⟩,
      .same rfl rfl⟩
  | some f =>
    rw [hfind] at hs
    obtain rfl := Option.some.inj hs
    have h1 := h.allocFile hfind t
    have hok1 := h1.acts t
    rw [show FileState.act _ t = .allocRead q from hact] at hok1
    exact ⟨h1.goto (by simp [hact]) (by simp [hact, FileAct.closes])
      (by simp [hact, FileAct.carries]) ⟨hok1, h.unused_allocFile hfind t⟩,
      .allocated t f hfind rfl rfl⟩

/-- **The second one** finds another file. -/
theorem next_allocWrite {op : FileOp T} (h : Ok pool s) {f0 : Fin nfile}
    (hact : s.act t = .allocWrite q f0) (hs : s.next t = some s') :
    Ok pool s' ∧ Effect s op s' := by
  have hok := h.acts t
  rw [hact] at hok
  simp only [next, hact, FileState.allocFile] at hs
  cases hfind : s.files.findFree with
  | none =>
    rw [hfind] at hs
    obtain rfl := Option.some.inj hs
    refine ⟨h.goto (by simp [hact]) (by rw [hact]; rfl) (by rw [hact]; rfl) ⟨hok.1, ?_⟩,
      .same rfl rfl⟩
    rintro f ⟨⟩
    exact hok.2
  | some f =>
    rw [hfind] at hs
    obtain rfl := Option.some.inj hs
    have hzero := FileTable.ref_of_findFree hfind
    have h1 := h.allocFile hfind t
    have hok1 := h1.acts t
    rw [show FileState.act _ t = .allocWrite q f0 from hact] at hok1
    refine ⟨h1.goto (by simp [hact]) (by simp [hact, FileAct.closes])
      (by simp [hact, FileAct.carries]) ⟨hok1.1, hok1.2, h.unused_allocFile hfind t, ?_⟩,
      .allocated t f hfind rfl rfl⟩
    rintro rfl
    have hone := hok.2.ref
    omega

/-- **The label `bad`**: the page is given back first, and then the file, if there is one. -/
theorem next_badPage {op : FileOp T} (h : Ok pool s) {f0 : Option (Fin nfile)}
    (hact : s.act t = .badPage q f0) (hs : s.next t = some s') : Ok pool s' ∧ Effect s op s' := by
  have hok := h.acts t
  rw [hact] at hok
  simp only [next, hact] at hs
  obtain rfl := Option.some.inj hs
  refine ⟨h.freePipe (by rw [hact]; rfl) (by rw [hact]; rfl) (by simp [hact]) ?_ ?_,
    .same rfl rfl⟩
  · cases f0 with
    | none => trivial
    | some f => exact hok.2 f rfl
  · cases f0 <;> exact ⟨rfl, rfl, rfl⟩

/-- **`pipe_alloc` fills its files.** -/
theorem next_setEnd {op : FileOp T} (h : Ok pool s) {f0 f1 : Fin nfile}
    (hact : s.act t = .setRead q f0 f1 ∨ s.act t = .setWrite q f0 f1) (hs : s.next t = some s') :
    Ok pool s' ∧ Effect s op s' := by
  have hok := h.acts t
  rcases hact with hact | hact <;> rw [hact] at hok <;> simp only [next, hact] at hs <;>
    obtain rfl := Option.some.inj hs
  · refine ⟨h.setRead hact,
      .filled f0 (File.target_eq_none.mpr hok.1.2.1.type) (fun g hg => ?_) rfl⟩
    simp only [setEnd, FileState.goto, FileTable.modify_of_ne _ hg]
  · refine ⟨h.setWrite hact, .filled f1 (File.target_eq_none.mpr hok.2.type) (fun g hg => ?_) rfl⟩
    simp only [setEnd, FileState.goto, FileTable.modify_of_ne _ hg]

/-- **A step of a process inside `pipe_alloc` or `file_close`.** -/
theorem next_spec {op : FileOp T} (h : Ok pool s) (hs : s.next t = some s') :
    Ok pool s' ∧ Effect s op s' := by
  cases hact : s.act t with
  | idle => simp [next, hact] at hs
  | allocRead q => exact next_allocRead h hact hs
  | allocWrite q f0 => exact next_allocWrite h hact hs
  | initPipe q f0 f1 =>
    simp only [next, hact] at hs
    obtain rfl := Option.some.inj hs
    exact ⟨h.initPipe hact, .same rfl rfl⟩
  | setRead q f0 f1 => exact next_setEnd h (Or.inl hact) hs
  | setWrite q f0 f1 => exact next_setEnd h (Or.inr hact) hs
  | badPage q f0 => exact next_badPage h hact hs
  | badFile f0 =>
    have hok := h.acts t
    rw [hact] at hok
    simp only [next, hact] at hs
    obtain rfl := Option.some.inj hs
    exact ⟨h.closeFile (by rw [hact]; exact ⟨rfl, rfl, rfl⟩) hok.handle,
      .closed t f0 hok.handle rfl rfl⟩
  | closing o =>
    cases o with
    | pipeEnd q w =>
      simp only [next, hact] at hs
      obtain rfl := Option.some.inj hs
      exact ⟨h.closeEnd hact, .same rfl rfl⟩
    | inode r =>
      simp only [next, hact] at hs
      obtain rfl := Option.some.inj hs
      exact ⟨h.inodePut hact, .same rfl rfl⟩
  | freeing q =>
    simp only [next, hact] at hs
    obtain rfl := Option.some.inj hs
    exact ⟨h.freePipe (by rw [hact]; rfl) (by rw [hact]; rfl) (by simp [hact]) trivial
      ⟨rfl, rfl, rfl⟩, .same rfl rfl⟩

/-- **One step.** -/
theorem step_spec {op : FileOp T} (h : Ok pool s) (hs : s.step op = some s') :
    Ok pool s' ∧ Effect s op s' := by
  cases op with
  | fileAlloc t =>
    obtain ⟨hidle, ⟨⟩⟩ := Option.ite_none_right_eq_some.mp hs
    cases hfind : s.files.findFree with
    | none =>
      simp only [FileState.allocFile, hfind, Option.map_none, Option.elim_none]
      exact ⟨h, .same rfl rfl⟩
    | some f =>
      simp only [FileState.allocFile, hfind, Option.map_some, Option.elim_some]
      exact ⟨h.allocFile hfind t, .allocated t f hfind rfl rfl⟩
  | openInode t f r device =>
    obtain ⟨⟨hidle, htf, htype, hr⟩, ⟨⟩⟩ := Option.ite_none_right_eq_some.mp hs
    refine ⟨h.openInode hidle htf htype hr device,
      .filled f (File.target_eq_none.mpr htype) (fun g hg => ?_) rfl⟩
    simp only [FileTable.modify_of_ne _ hg]
  | fileDup t f u =>
    obtain ⟨⟨hidle, htf⟩, ⟨⟩⟩ := Option.ite_none_right_eq_some.mp hs
    have hpos := h.ref_pos htf
    rw [FileTable.fileDup, if_neg (by omega), Option.elim_some]
    exact ⟨h.fileDup hidle htf u, .duplicated t f u rfl rfl rfl⟩
  | fileClose t f =>
    obtain ⟨⟨hidle, htf⟩, ⟨⟩⟩ := Option.ite_none_right_eq_some.mp hs
    exact ⟨h.closeFile (by rw [hidle]; exact ⟨rfl, rfl, rfl⟩) htf, .closed t f htf rfl rfl⟩
  | pipeAlloc t serial =>
    obtain ⟨⟨hidle, hnew⟩, hs⟩ := Option.ite_none_right_eq_some.mp hs
    rcases s.mem.allocPage_cases with ⟨halloc, -⟩ | ⟨i, hi, hfree, halloc⟩
    · simp only [halloc, if_true, Option.some.injEq] at hs
      subst hs
      exact ⟨h, .same rfl rfl⟩
    · simp only [halloc] at hnew hs
      rw [if_neg (pageAddr_ne_zero hi), Option.some.injEq] at hs
      subst hs
      exact ⟨h.pipeAlloc hidle hi hfree hnew, .same rfl rfl⟩
  | next t => exact next_spec h hs
  | otherAlloc =>
    simp only [FileState.step, Option.some.injEq] at hs
    rcases s.mem.allocPage_cases with ⟨halloc, -⟩ | ⟨i, hi, hfree, halloc⟩
    · simp only [halloc, if_true] at hs
      subst hs
      exact ⟨h, .same rfl rfl⟩
    · simp only [halloc, if_neg (pageAddr_ne_zero hi)] at hs
      subst hs
      exact ⟨h.otherAlloc hi hfree, .same rfl rfl⟩
  | otherFree page =>
    obtain ⟨hpage, ⟨⟩⟩ := Option.ite_none_right_eq_some.mp hs
    exact ⟨h.otherFree hpage, .same rfl rfl⟩

/-- Where a target is. -/
inductive Place (T : Type*) where
  | file (f : Fin nfile)
  | closer (t : T)
  | givenBack

/-- The target is in a file with live handles, or a process is about to call `inode_put` or
`pipe_close` for it, or has done so. -/
def At (s : FileState T) (o : Target) : Place T → Prop
  | .file f => (s.files f).target = some o ∧ ∃ t, (t, f) ∈ s.handles
  | .closer t => s.act t = .closing o
  | .givenBack => o ∈ s.done

/-- What holds of files and pipes at any time. -/
structure Lifetime (s : FileState T) : Prop where
  counted : ∀ f, (s.files f).ref = handlesOf s.handles f
  /-- What was given to a file is in one place, and is given back once. -/
  onePlace : ∀ o ∈ s.given, ∃! p, s.At o p
  doneOnce : s.done.Nodup
  /-- The page of a pipe is freed once: after both ends are closed, or without ever having been
  open, when `pipe_alloc` fails; then no file refers to the pipe. -/
  freedOnce : s.freed.Nodup
  freedAfter : ∀ q ∈ s.freed,
    (∀ w, .pipeEnd q w ∈ s.done) ∨ ∀ w, .pipeEnd q w ∉ s.given
  unreferred : ∀ q ∈ s.freed, ∀ f w, (s.files f).target ≠ some (.pipeEnd q w)
  /-- The page of a pipe is not free as long as a file refers to the pipe. -/
  referred : ∀ f q w, (s.files f).target = some (.pipeEnd q w) →
    ∃ i, i < numPages ∧ q.page = pageAddr i ∧ s.mem.isPageFree i = false
  /-- Until then an end is open, or a process is making or freeing the pipe, and the page is
  allocated, to this pipe alone. -/
  keptFor : ∀ q ∈ s.made, q ∉ s.freed → s.Open q ∨ ∃ t, (s.act t).carries = some q
  allocated : ∀ q ∈ s.made, q ∉ s.freed →
    ∃ i, i < numPages ∧ q.page = pageAddr i ∧ s.mem.isPageFree i = false
  apart : ∀ q ∈ s.made, ∀ q' ∈ s.made, q ∉ s.freed → q' ∉ s.freed → q.page = q'.page → q = q'

omit [DecidableEq T] in
/-- `int` counts as well, as long as there are fewer than `2 ^ 31` handles. -/
theorem Lifetime.ref_le (h : s.Lifetime) (f : Fin nfile) : (s.files f).ref ≤ s.handles.length := by
  rw [h.counted]
  exact handlesOf_le_length _ _

namespace Ok

omit [DecidableEq T] in
theorem handle_of_target (h : Ok pool s) {o : Target} (hf : (s.files f).target = some o) :
    ∃ t, (t, f) ∈ s.handles := by
  have hpos : 0 < (s.files f).ref := by
    by_contra hzero
    have htype := h.closed f (Nat.eq_zero_of_not_pos hzero)
    rw [File.target_eq_none.mpr htype] at hf
    cases hf
  rw [h.counted] at hpos
  exact handlesOf_pos.mp hpos

omit [DecidableEq T] in
theorem closes_eq_some {a : FileAct} {o : Target} : a.closes = some o ↔ a = .closing o := by
  cases a <;> simp [FileAct.closes]

omit [DecidableEq T] in
theorem onePlace (h : Ok pool s) {o : Target} (ho : o ∈ s.given) : ∃! p, s.At o p := by
  have hkeeper : ∀ p, s.At o p → p = .givenBack ∧ o ∈ s.done ∨
      ∃ k, s.Keeps k o ∧ p = k.casesOn Place.file Place.closer := fun p hp => by
    cases p with
    | file f => exact Or.inr ⟨.file f, hp.1, rfl⟩
    | closer t => exact Or.inr ⟨.closer t, closes_eq_some.mpr hp, rfl⟩
    | givenBack => exact Or.inl ⟨rfl, hp⟩
  rcases (h.targets.total o).mp ho with hdone | ⟨k, hk⟩
  · refine ⟨.givenBack, hdone, fun p hp => ?_⟩
    rcases hkeeper p hp with ⟨rfl, -⟩ | ⟨k, hk, -⟩
    · rfl
    · exact absurd hdone (h.targets.taken hk)
  · refine ⟨k.casesOn Place.file Place.closer, ?_, fun p hp => ?_⟩
    · cases k with
      | file f => exact ⟨hk, h.handle_of_target hk⟩
      | closer t => exact closes_eq_some.mp hk
    · rcases hkeeper p hp with ⟨-, hdone⟩ | ⟨k', hk', rfl⟩
      · exact absurd hdone (h.targets.taken hk)
      · rw [h.targets.alone hk' hk]

omit [DecidableEq T] in
/-- The ends of a pipe whose page is freed were both closed, or never given to a file. -/
theorem freedAfter (h : Ok pool s) (hq : q ∈ s.freed) :
    (∀ w, .pipeEnd q w ∈ s.done) ∨ ∀ w, .pipeEnd q w ∉ s.given := by
  have hclosed : ∀ w, .pipeEnd q w ∈ s.given → .pipeEnd q w ∈ s.done := fun w hw => by
    by_contra hnot
    exact h.pipes.taken (show s.KeepsPipe (.pipe q) q from ⟨rfl, w, hw, hnot⟩) hq
  by_cases hgiven : ∃ w, .pipeEnd q w ∈ s.given
  · obtain ⟨w, hw⟩ := hgiven
    -- No process is filling the write end, because the read end would be open.
    have hpair : .pipeEnd q (!w) ∈ s.given := by
      refine (h.paired q w hw).resolve_right ?_
      rintro ⟨rfl, u, f0, f1, hset⟩
      have hok := h.acts u
      rw [hset] at hok
      exact (h.given_of_target hok.1.target).2 (hclosed false hw)
    left
    intro w'
    cases w <;> cases w'
    · exact hclosed _ hw
    · exact hclosed _ hpair
    · exact hclosed _ hpair
    · exact hclosed _ hw
  · exact Or.inr fun w hw => hgiven ⟨w, hw⟩

omit [DecidableEq T] in
/-- The page of a pipe that is not freed is taken. -/
theorem page_taken (h : Ok pool s) (hq : q ∈ s.made) (hlive : q ∉ s.freed) :
    ∃ i, i < numPages ∧ q.page = pageAddr i ∧ s.mem.isPageFree i = false := by
  obtain ⟨i, hi⟩ := h.placed q hq hlive
  refine ⟨i, hi.2.2.1, hi.2.2.2, ?_⟩
  by_contra hfree
  exact h.pages.taken hi ⟨hi.2.2.1, by simpa using hfree⟩

omit [DecidableEq T] in
/-- The page of a pipe to which a file refers is not freed. -/
theorem live_of_target (h : Ok pool s) {w : Bool}
    (hf : (s.files f).target = some (.pipeEnd q w)) : q ∈ s.made ∧ q ∉ s.freed :=
  h.live_of_keeps (k := .pipe q) ⟨rfl, w, h.given_of_target hf⟩

omit [DecidableEq T] in
theorem lifetime (h : Ok pool s) : Lifetime s where
  counted := h.counted
  onePlace _ ho := h.onePlace ho
  doneOnce := h.doneOnce
  freedOnce := h.freedOnce
  freedAfter _ hq := h.freedAfter hq
  unreferred _ hq _ _ hf := (h.live_of_target hf).2 hq
  referred _ _ _ hf := h.page_taken (h.live_of_target hf).1 (h.live_of_target hf).2
  keptFor q hq hlive := by
    rcases (h.pipes.total q).mp hq with hfreed | ⟨k, hk⟩
    · exact absurd hfreed hlive
    · cases k with
      | pipe q' => exact Or.inl hk.2
      | proc t => exact Or.inr ⟨t, hk⟩
  allocated _ hq hlive := h.page_taken hq hlive
  apart q hq q' hq' hlive hlive' hpage := h.page_inj ⟨hq', hlive'⟩ ⟨hq, hlive⟩ hpage

end Ok

/-- What a step does to the table respects the handles. -/
theorem Effect.handedOut {op : FileOp T} (h : Ok pool s) (he : Effect s op s') {f : Fin nfile}
    (hmore : handlesOf s.handles f < handlesOf s'.handles f) :
    (∃ t u, op = .fileDup t f u) ∨ handlesOf s.handles f = 0 := by
  cases he with
  | same _ hhandles => rw [hhandles] at hmore; omega
  | filled _ _ _ hhandles => rw [hhandles] at hmore; omega
  | allocated t g hfind _ hhandles =>
    by_cases hg : f = g
    · subst hg
      exact Or.inr ((h.counted f).symm.trans (FileTable.ref_of_findFree hfind))
    · rw [hhandles, handlesOf_cons_of_ne _ _ hg] at hmore
      omega
  | duplicated t g u hop _ hhandles =>
    by_cases hg : f = g
    · subst hg
      exact Or.inl ⟨t, u, hop⟩
    · rw [hhandles, handlesOf_cons_of_ne _ _ hg] at hmore
      omega
  | closed t g htf _ hhandles =>
    by_cases hg : f = g
    · subst hg
      rw [hhandles, handlesOf_erase_self htf] at hmore
      omega
    · rw [hhandles, handlesOf_erase_of_ne htf hg] at hmore
      omega

theorem Effect.lastHandle {op : FileOp T} (h : Ok pool s) (h' : Ok pool s') (he : Effect s op s')
    {f : Fin nfile} {o : Target} (hf : (s.files f).target = some o) :
    (s'.files f).target = some o ∨ handlesOf s'.handles f = 0 := by
  cases he with
  | same hfiles _ => exact Or.inl (by rw [hfiles]; exact hf)
  | allocated t g hfind hfiles _ =>
    left
    rw [hfiles]
    exact (FileTable.target_modify_ref _ _ _ f).trans hf
  | filled g htarget hfiles _ =>
    have hne : f ≠ g := by
      rintro rfl
      rw [htarget] at hf
      cases hf
    exact Or.inl (by rw [hfiles f hne]; exact hf)
  | duplicated t g u _ hfiles _ =>
    left
    rw [hfiles]
    exact (FileTable.target_modify_ref _ _ _ f).trans hf
  | closed t g htf hfiles _ =>
    by_cases hg : f = g
    · subst hg
      by_cases hlast : (s.files f).ref = 1
      · right
        rw [← h'.counted, hfiles, FileTable.fileClose_of_one hlast]
        simp
      · left
        have hpos := h.ref_pos htf
        rw [hfiles, FileTable.fileClose_of_one_lt (by omega)]
        simpa using hf
    · left
      have hpos := h.ref_pos htf
      by_cases hlast : (s.files g).ref = 1
      · rw [hfiles, FileTable.fileClose_of_one hlast]
        simpa [FileTable.modify_of_ne _ hg] using hf
      · rw [hfiles, FileTable.fileClose_of_one_lt (by omega)]
        simpa [FileTable.modify_of_ne _ hg] using hf

end FileState

end Lithium
