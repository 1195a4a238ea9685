/-
# Open files over an allocator without a lock

`physmem.c` takes no lock, and it is called with interrupts enabled: by `pipe_alloc`, at the label
`bad` of `pipe_alloc`, by `pipe_close` after it has released `pi->lock`, and by other code.  Here
such a call is a step for each `is_page_free` and one for the mark that follows, and all processes
run in between.

As long as no call begins while another one is under way, one step of a call does what the whole
call does in `FileState`, and the others do nothing there (section 2), so that files and pipes live
as they do there (section 3).  Otherwise two calls may find the same page free, and both take it.
-/
import Lithium.Fs.FileRun

namespace Lithium

open Transition

/-! ## 1. The allocator in steps -/

/-- Where a process is in `physmem_alloc_page` or `free_physical_page`. -/
inductive PageCall where
  /-- In the loop of `physmem_alloc_page`, before `is_page_free(i)`; the caller is `pipe_alloc` or
  other code. -/
  | scan (forPipe : Bool) (i : Nat)
  /-- Page `i` was free, and is about to be marked. -/
  | take (forPipe : Bool) (i : Nat)
  /-- In `free_physical_page`, before `is_page_free`. -/
  | test (page : Word)
  /-- Page `i` was not free, and is about to be marked. -/
  | give (page : Word) (i : Nat)
  deriving DecidableEq

/-- Files and pipes, and where each process is in the allocator. -/
structure FileWindow (T : Type*) where
  base : FileState T
  call : T → Option PageCall

/-- What happens next. -/
inductive WindowOp (T : Type*) where
  /-- A step outside of the allocator. -/
  | plain (op : FileOp T)
  /-- `t` calls `pipe_alloc`, and there `physmem_alloc_page`. -/
  | pipeAlloc (t : T)
  /-- `t` calls `free_physical_page`, at `bad` or in `pipe_close`. -/
  | freePipe (t : T)
  /-- `t` calls `physmem_alloc_page` in other code. -/
  | otherAlloc (t : T)
  /-- `t` calls `free_physical_page` for a page of other code. -/
  | otherFree (t : T) (page : Word)
  /-- `t` goes on in the allocator. -/
  | inside (t : T)

/-- The pipe whose page a process is about to free. -/
def FileAct.frees : FileAct → Option PipeRef
  | .badPage q _ | .freeing q => some q
  | _ => none

namespace FileState

variable {T : Type*} [DecidableEq T]

/-- `mark_page_allocated(i)`, with which `physmem_alloc_page` returns to `pipe_alloc` or to other
code. -/
def takePage (s : FileState T) (t : T) (forPipe : Bool) (i : Nat) : FileState T :=
  if forPipe then
    let q : PipeRef := ⟨pageAddr i, s.made.length⟩
    { s with mem := s.mem.markPageAllocated i, made := q :: s.made }.goto t (.allocRead q)
  else { s with mem := s.mem.markPageAllocated i, others := pageAddr i :: s.others }

/-- `free_physical_page(page)` returns, and leaves `mem`. -/
def givePage (s : FileState T) (t : T) (page : Word) (mem : Physmem) : FileState T :=
  match s.act t with
  | .badPage q f0 => { s with mem := mem, freed := q :: s.freed }.goto t (f0.elim .idle .badFile)
  | .freeing q => { s with mem := mem, freed := q :: s.freed }.goto t .idle
  | _ => { s with mem := mem, others := s.others.erase page }

end FileState

namespace FileWindow

variable {T : Type*} [DecidableEq T]

/-- The state that `file_init` leaves, with nobody in the allocator. -/
def init (pipes : Word → Pipe) (mem : Physmem) : FileWindow T :=
  { base := .init pipes mem, call := fun _ => none }

/-- Whether a step is one outside of the allocator. -/
def outside (s : FileWindow T) : FileOp T → Bool
  | .fileAlloc t | .openInode t _ _ _ | .fileDup t _ _ | .fileClose t _ => (s.call t).isNone
  | .next t => (s.call t).isNone && (s.base.act t).frees.isNone
  | .pipeAlloc _ _ | .otherAlloc | .otherFree _ => false

/-- `t` is at this point of the allocator. -/
def enter (s : FileWindow T) (t : T) (c : PageCall) : FileWindow T :=
  { s with call := Function.update s.call t (some c) }

/-- `t` leaves the allocator. -/
def leave (s : FileWindow T) (t : T) (base : FileState T) : FileWindow T :=
  { base := base, call := Function.update s.call t none }

/-- The next step of a process in the allocator. -/
def inside (s : FileWindow T) (t : T) : PageCall → FileWindow T
  | .scan forPipe i =>
    if numPages ≤ i then s.leave t s.base
    else if s.base.mem.isPageFree i then s.enter t (.take forPipe i)
    else s.enter t (.scan forPipe (i + 1))
  | .take forPipe i => s.leave t (s.base.takePage t forPipe i)
  | .test page =>
    let stays := s.leave t (s.base.givePage t page s.base.mem)
    if page < kernelBaseAddr ∨ kernelBaseAddr + physMemSize ≤ page then stays
    else
      let i := ((page - kernelBaseAddr) / pageSize).toNat
      if numPages ≤ i then stays
      else if s.base.mem.isPageFree i then stays
      else s.enter t (.give page i)
  | .give page i => s.leave t (s.base.givePage t page (s.base.mem.markPageFree i))

/-- One step. -/
def step (s : FileWindow T) : WindowOp T → Option (FileWindow T)
  | .plain op =>
    if s.outside op then (s.base.step op).map fun base => { s with base := base } else none
  | .pipeAlloc t =>
    if s.base.act t = .idle ∧ s.call t = none then some (s.enter t (.scan true 0)) else none
  | .freePipe t =>
    if s.call t = none then (s.base.act t).frees.map fun q => s.enter t (.test q.page) else none
  | .otherAlloc t =>
    if s.base.act t = .idle ∧ s.call t = none then some (s.enter t (.scan false 0)) else none
  | .otherFree t page =>
    if s.base.act t = .idle ∧ s.call t = none ∧ s.base.others.contains page then
      some (s.enter t (.test page))
    else none
  | .inside t => (s.call t).map (s.inside t)

omit [DecidableEq T] in
/-- No call of the allocator begins while another one is under way. -/
def Uncrossed (s : FileWindow T) : WindowOp T → Prop
  | .plain _ | .inside _ => True
  | .pipeAlloc _ | .freePipe _ | .otherAlloc _ | .otherFree _ _ => ∀ t, s.call t = none

/-! ## 2. Calls that do not cross -/

end FileWindow

namespace FileState

variable {T : Type*} {s s' : FileState T} {t : T} {page : Word}

/-- `t` is about to free the page of its pipe, or has one of other code to free. -/
def Frees (s : FileState T) (t : T) (page : Word) : Prop :=
  (∃ q, (s.act t).frees = some q ∧ q.page = page) ∨ s.act t = .idle ∧ page ∈ s.others

/-- What `t` knows in the allocator when nobody else is there. -/
def CallOk (s : FileState T) (t : T) : PageCall → Prop
  | .scan _ i => s.act t = .idle ∧ ∀ j, j < i → s.mem.isPageFree j = false
  | .take _ i => s.act t = .idle ∧ i < numPages ∧ s.mem.isPageFree i = true ∧
      ∀ j, j < i → s.mem.isPageFree j = false
  | .test page => s.Frees t page
  | .give page i => s.Frees t page ∧ s.mem.freePage page = s.mem.markPageFree i

/-- It is not touched by the others. -/
theorem CallOk.congr {c : PageCall} (h : s.CallOk t c) (hact : s'.act t = s.act t)
    (hmem : s'.mem = s.mem) (hothers : s'.others = s.others) : s'.CallOk t c := by
  cases c <;> simpa only [CallOk, Frees, hact, hmem, hothers] using h

variable [DecidableEq T]

/-- **Taking a page that is the lowest free one** is a call of `physmem_alloc_page`. -/
theorem takePage_step (hidle : s.act t = .idle) {i : Nat} (hi : i < numPages)
    (hfree : s.mem.isPageFree i = true) (hbelow : ∀ j, j < i → s.mem.isPageFree j = false)
    (hserial : ∀ q ∈ s.made, q.serial < s.made.length) (forPipe : Bool) :
    ∃ op, s.step op = some (s.takePage t forPipe i) ∧ ∀ t f u, op ≠ .fileDup t f u := by
  have halloc := Physmem.allocPage_of_lowest hi hfree hbelow
  have hne := pageAddr_ne_zero hi
  cases forPipe with
  | true =>
    have hnew : (⟨pageAddr i, s.made.length⟩ : PipeRef) ∉ s.made := fun hq =>
      absurd (hserial _ hq) (Nat.lt_irrefl _)
    refine ⟨.pipeAlloc t s.made.length, ?_, by simp⟩
    rw [step, halloc]
    dsimp only
    rw [if_pos ⟨hidle, hnew⟩, if_neg hne]
    rfl
  | false =>
    refine ⟨.otherAlloc, ?_, by simp⟩
    rw [step, halloc]
    dsimp only
    rw [if_neg hne]
    rfl

/-- **Giving a page back** is a call of `free_physical_page`. -/
theorem givePage_step (h : s.Frees t page) :
    ∃ op, s.step op = some (s.givePage t page (s.mem.freePage page)) ∧
      ∀ t f u, op ≠ .fileDup t f u := by
  rcases h with ⟨q, hq, rfl⟩ | ⟨hidle, hpage⟩
  · refine ⟨.next t, ?_, by simp⟩
    rw [step, next, givePage]
    cases hact : s.act t with
    | badPage q' f0 =>
      rw [hact] at hq
      obtain rfl := Option.some.inj hq
      rfl
    | freeing q' =>
      rw [hact] at hq
      obtain rfl := Option.some.inj hq
      rfl
    | _ =>
      rw [hact] at hq
      exact absurd hq (by simp [FileAct.frees])
  · refine ⟨.otherFree page, ?_, by simp⟩
    rw [step, if_pos hpage, givePage, hidle]

/-- What a step outside of the allocator leaves alone. -/
structure Apart (s s' : FileState T) (moved : T → Prop) : Prop where
  mem : s'.mem = s.mem
  others : s'.others = s.others
  made : s'.made = s.made
  act : ∀ u, ¬ moved u → s'.act u = s.act u

omit [DecidableEq T] in
theorem Apart.refl (s : FileState T) (moved : T → Prop) : Apart s s moved :=
  ⟨rfl, rfl, rfl, fun _ _ => rfl⟩

theorem apart_closeFile (s : FileState T) (t : T) (f : Fin nfile) :
    Apart s (s.closeFile t f) (· = t) :=
  ⟨rfl, rfl, rfl, fun _ hu => Function.update_of_ne hu _ _⟩

theorem apart_closeEnd (s : FileState T) (t : T) (q : PipeRef) (w : Bool) :
    Apart s (s.closeEnd t q w) (· = t) :=
  ⟨rfl, rfl, rfl, fun _ hu => Function.update_of_ne hu _ _⟩

/-- Within `pipe_alloc` and `file_close`. -/
theorem apart_next (hfrees : (s.act t).frees = none) (hs : s.next t = some s') :
    Apart s s' (· = t) := by
  unfold next at hs
  cases hact : s.act t with
  | idle => simp [hact] at hs
  | badPage | freeing =>
    rw [hact] at hfrees
    exact absurd hfrees (by simp [FileAct.frees])
  | allocRead q | allocWrite q f0 =>
    simp only [hact, allocFile] at hs
    cases hfind : s.files.findFree with
    | none | some f =>
      rw [hfind] at hs
      obtain rfl := Option.some.inj hs
      exact ⟨rfl, rfl, rfl, fun _ hu => Function.update_of_ne hu _ _⟩
  | initPipe | setRead | setWrite =>
    simp only [hact] at hs
    obtain rfl := Option.some.inj hs
    exact ⟨rfl, rfl, rfl, fun _ hu => Function.update_of_ne hu _ _⟩
  | badFile f0 =>
    simp only [hact] at hs
    obtain rfl := Option.some.inj hs
    exact apart_closeFile s t f0
  | closing o =>
    cases o with
    | pipeEnd q w =>
      simp only [hact] at hs
      obtain rfl := Option.some.inj hs
      exact apart_closeEnd s t q w
    | inode r =>
      simp only [hact] at hs
      obtain rfl := Option.some.inj hs
      exact ⟨rfl, rfl, rfl, fun _ hu => Function.update_of_ne hu _ _⟩

end FileState

namespace FileWindow

variable {T : Type*} [DecidableEq T] {s s' : FileWindow T} {pool : Nat → Prop}

/-- **A step outside of the allocator** leaves the pages alone, and every process that is inside. -/
theorem apart_plain {op : FileOp T} (hout : s.outside op = true) {b : FileState T}
    (hs : s.base.step op = some b) : s.base.Apart b fun u => s.call u = none := by
  have hmoved : ∀ {t}, s.call t = none → s.base.Apart b (· = t) →
      s.base.Apart b fun u => s.call u = none := fun ht h =>
    ⟨h.mem, h.others, h.made, fun u hu => h.act u fun e => hu (e ▸ ht)⟩
  cases op with
  | pipeAlloc | otherAlloc | otherFree => exact absurd hout Bool.false_ne_true
  | fileAlloc t =>
    obtain ⟨-, ⟨⟩⟩ := Option.ite_none_right_eq_some.mp hs
    rw [FileState.allocFile]
    cases s.base.files.findFree with
    | none => exact .refl _ _
    | some f => exact ⟨rfl, rfl, rfl, fun _ _ => rfl⟩
  | openInode t f r device =>
    obtain ⟨-, ⟨⟩⟩ := Option.ite_none_right_eq_some.mp hs
    exact ⟨rfl, rfl, rfl, fun _ _ => rfl⟩
  | fileDup t f u =>
    obtain ⟨-, ⟨⟩⟩ := Option.ite_none_right_eq_some.mp hs
    cases s.base.files.fileDup f with
    | none => exact .refl _ _
    | some files => exact ⟨rfl, rfl, rfl, fun _ _ => rfl⟩
  | fileClose t f =>
    obtain ⟨-, ⟨⟩⟩ := Option.ite_none_right_eq_some.mp hs
    exact hmoved (Option.isNone_iff_eq_none.mp hout) (FileState.apart_closeFile _ t f)
  | next t =>
    obtain ⟨hcall, hfrees⟩ := Bool.and_eq_true_iff.mp hout
    exact hmoved (Option.isNone_iff_eq_none.mp hcall)
      (FileState.apart_next (Option.isNone_iff_eq_none.mp hfrees) hs)

/-- What holds as long as no two calls cross: the files and pipes are as in `FileState`, one process
at most is in the allocator, and it knows where it is. -/
structure Ok (pool : Nat → Prop) (s : FileWindow T) : Prop where
  base : s.base.Ok pool
  serials : ∀ q ∈ s.base.made, q.serial < s.base.made.length
  alone : ∀ t u, s.call t ≠ none → s.call u ≠ none → t = u
  calls : ∀ t c, s.call t = some c → s.base.CallOk t c

omit [DecidableEq T] in
theorem init_ok (pipes : Word → Pipe) (mem : Physmem) :
    Ok (fun i => i < numPages ∧ mem.isPageFree i = true) (init pipes mem : FileWindow T) where
  base := FileState.init_ok pipes mem
  serials _ hq := by cases hq
  alone _ _ ht := absurd rfl ht
  calls _ _ ht := by cases ht

/-- **Refinement**: a step does nothing to the files and pipes, or what a step of `FileState`
does. -/
theorem Ok.refines (h : Ok pool s) {op : WindowOp T} (hs : s.step op = some s') :
    s'.base = s.base ∨ ∃ op', s.base.step op' = some s'.base ∧
      ∀ t f u, op' = .fileDup t f u → op = .plain op' := by
  cases op with
  | plain op =>
    obtain ⟨-, hs⟩ := Option.ite_none_right_eq_some.mp hs
    obtain ⟨b, hb, rfl⟩ := Option.map_eq_some_iff.mp hs
    exact Or.inr ⟨op, hb, fun _ _ _ _ => rfl⟩
  | pipeAlloc t | otherAlloc t =>
    obtain ⟨-, ⟨⟩⟩ := Option.ite_none_right_eq_some.mp hs
    exact Or.inl rfl
  | otherFree t page =>
    obtain ⟨-, ⟨⟩⟩ := Option.ite_none_right_eq_some.mp hs
    exact Or.inl rfl
  | freePipe t =>
    obtain ⟨-, hs⟩ := Option.ite_none_right_eq_some.mp hs
    obtain ⟨q, -, rfl⟩ := Option.map_eq_some_iff.mp hs
    exact Or.inl rfl
  | inside t =>
    obtain ⟨c, hc, rfl⟩ := Option.map_eq_some_iff.mp hs
    have hok := h.calls t c hc
    have hgive : ∀ {page mem}, s.base.Frees t page → mem = s.base.mem.freePage page →
        ∃ op', s.base.step op' = some (s.base.givePage t page mem) ∧
          ∀ t' f u, op' = .fileDup t' f u → WindowOp.inside t = .plain op' := by
      rintro page mem hfrees rfl
      obtain ⟨op', hop', hne⟩ := FileState.givePage_step hfrees
      exact ⟨op', hop', fun _ _ _ he => absurd he (hne _ _ _)⟩
    cases c with
    | scan forPipe i =>
      rw [inside]
      split
      · exact Or.inl rfl
      · split <;> exact Or.inl rfl
    | take forPipe i =>
      obtain ⟨hidle, hi, hfree, hbelow⟩ := hok
      obtain ⟨op', hop', hne⟩ :=
        FileState.takePage_step hidle hi hfree hbelow h.serials forPipe
      exact Or.inr ⟨op', hop', fun _ _ _ he => absurd he (hne _ _ _)⟩
    | test page =>
      rw [inside]
      dsimp only
      split
      case isTrue hout => exact Or.inr (hgive hok (by rw [Physmem.freePage, if_pos hout]))
      case isFalse hin =>
        split
        case isTrue hi =>
          exact Or.inr (hgive hok (by rw [Physmem.freePage, if_neg hin, if_pos hi]))
        case isFalse hi =>
          split
          case isTrue hfree =>
            exact Or.inr (hgive hok (by
              rw [Physmem.freePage, if_neg hin, if_neg hi, if_pos hfree]))
          case isFalse => exact Or.inl rfl
    | give page i => exact Or.inr (hgive hok.1 hok.2.symm)

omit [DecidableEq T] in
/-- Nobody else is in the allocator. -/
theorem Ok.others_out (h : Ok pool s) {t u : T} {c : PageCall} (ht : s.call t = some c)
    (hu : u ≠ t) : s.call u = none := by
  by_contra hcall
  exact hu (h.alone u t hcall (by simp [ht]))

/-- The process that is alone in the allocator goes on there. -/
theorem Ok.enter (h : Ok pool s) {t : T} (hout : ∀ u, u ≠ t → s.call u = none) {c : PageCall}
    (hc : s.base.CallOk t c) : Ok pool (s.enter t c) where
  base := h.base
  serials := h.serials
  alone := by
    have hall : ∀ u, (s.enter t c).call u ≠ none → u = t := fun u hu => by
      by_contra hne
      exact hu ((Function.update_of_ne hne _ _).trans (hout u hne))
    exact fun u v hu hv => (hall u hu).trans (hall v hv).symm
  calls := fun u c' hu => by
    by_cases hut : u = t
    · subst hut
      rw [FileWindow.enter] at hu
      dsimp only at hu
      rw [Function.update_self] at hu
      exact Option.some.inj hu ▸ hc
    · have hnone : (s.enter t c).call u = none := (Function.update_of_ne hut _ _).trans (hout u hut)
      rw [hnone] at hu
      cases hu

/-- It leaves the allocator. -/
theorem leave_ok {t : T} (hout : ∀ u, u ≠ t → s.call u = none)
    {b : FileState T} (hb : b.Ok pool) (hserials : ∀ q ∈ b.made, q.serial < b.made.length) :
    Ok pool (s.leave t b) := by
  have hnone : ∀ u, (s.leave t b).call u = none := fun u => by
    by_cases hut : u = t
    · rw [hut]
      exact Function.update_self _ _ _
    · exact (Function.update_of_ne hut _ _).trans (hout u hut)
  refine ⟨hb, hserials, fun u _ hu => absurd (hnone u) hu, fun u c hu => ?_⟩
  rw [hnone u] at hu
  cases hu

omit [DecidableEq T] in
/-- The pipes have had their serial numbers in turn. -/
theorem serials_cons {s : FileState T} (h : ∀ q ∈ s.made, q.serial < s.made.length) (page : Word) :
    ∀ q ∈ (⟨page, s.made.length⟩ : PipeRef) :: s.made, q.serial < s.made.length + 1 := by
  intro q hq
  rcases List.mem_cons.mp hq with rfl | hq
  · exact Nat.lt_succ_self _
  · exact Nat.lt_succ_of_lt (h q hq)

theorem givePage_made (s : FileState T) (t : T) (page : Word) (mem : Physmem) :
    (s.givePage t page mem).made = s.made := by
  unfold FileState.givePage
  split <;> rfl

/-- **One step in the allocator.** -/
theorem Ok.inside (h : Ok pool s) {t : T} {c : PageCall} (hc : s.call t = some c)
    (hbase : (s.inside t c).base.Ok pool) : Ok pool (s.inside t c) := by
  have hout : ∀ u, u ≠ t → s.call u = none := fun u => h.others_out hc
  have hok := h.calls t c hc
  have hgive : ∀ page mem, (s.base.givePage t page mem).Ok pool →
      Ok pool (s.leave t (s.base.givePage t page mem)) := fun page mem hb =>
    leave_ok hout hb (by rw [givePage_made]; exact h.serials)
  cases c with
  | scan forPipe i =>
    rw [FileWindow.inside] at hbase ⊢
    by_cases hi : numPages ≤ i
    · rw [if_pos hi]
      exact leave_ok hout h.base h.serials
    · rw [if_neg hi]
      by_cases hfree : s.base.mem.isPageFree i = true
      · rw [if_pos hfree]
        exact h.enter hout ⟨hok.1, Nat.lt_of_not_le hi, hfree, hok.2⟩
      · rw [if_neg hfree]
        refine h.enter hout ⟨hok.1, fun j hj => ?_⟩
        rcases Nat.lt_succ_iff_lt_or_eq.mp hj with hj | rfl
        · exact hok.2 j hj
        · exact Bool.eq_false_iff.mpr hfree
  | take forPipe i =>
    refine leave_ok hout hbase ?_
    cases forPipe with
    | true => exact serials_cons h.serials (pageAddr i)
    | false => exact h.serials
  | test page =>
    rw [FileWindow.inside] at hbase ⊢
    dsimp only at hbase ⊢
    split
    case isTrue hrange =>
      rw [if_pos hrange] at hbase
      exact hgive _ _ hbase
    case isFalse hrange =>
      rw [if_neg hrange] at hbase
      split
      case isTrue hi =>
        rw [if_pos hi] at hbase
        exact hgive _ _ hbase
      case isFalse hi =>
        rw [if_neg hi] at hbase
        split
        case isTrue hfree =>
          rw [if_pos hfree] at hbase
          exact hgive _ _ hbase
        case isFalse hfree =>
          refine h.enter hout ⟨hok, ?_⟩
          rw [Physmem.freePage, if_neg hrange]
          dsimp only
          rw [if_neg hi, if_neg hfree]
  | give page i => exact hgive _ _ hbase

/-- **One step that does not cross a call.** -/
theorem Ok.step (h : Ok pool s) {op : WindowOp T} (hc : s.Uncrossed op)
    (hs : s.step op = some s') : Ok pool s' := by
  have hbase : s'.base.Ok pool := by
    rcases h.refines hs with he | ⟨op', hop', -⟩
    · exact he ▸ h.base
    · exact (FileState.step_spec h.base hop').1
  cases op with
  | plain op =>
    obtain ⟨hout, hs⟩ := Option.ite_none_right_eq_some.mp hs
    obtain ⟨b, hb, rfl⟩ := Option.map_eq_some_iff.mp hs
    have hapart := apart_plain hout hb
    refine ⟨hbase, ?_, h.alone, fun t c ht => ?_⟩
    · dsimp only
      rw [hapart.made]
      exact h.serials
    · have hin : s.call t ≠ none := by
        rw [ht]
        simp
      exact (h.calls t c ht).congr (hapart.act t hin) hapart.mem hapart.others
  | pipeAlloc t | otherAlloc t =>
    obtain ⟨⟨hidle, -⟩, ⟨⟩⟩ := Option.ite_none_right_eq_some.mp hs
    exact h.enter (fun u _ => hc u) ⟨hidle, fun j hj => absurd hj (Nat.not_lt_zero j)⟩
  | otherFree t page =>
    obtain ⟨⟨hidle, -, hpage⟩, ⟨⟩⟩ := Option.ite_none_right_eq_some.mp hs
    exact h.enter (fun u _ => hc u) (Or.inr ⟨hidle, List.contains_iff_mem.mp hpage⟩)
  | freePipe t =>
    obtain ⟨-, hs⟩ := Option.ite_none_right_eq_some.mp hs
    obtain ⟨q, hq, rfl⟩ := Option.map_eq_some_iff.mp hs
    exact h.enter (fun u _ => hc u) (Or.inl ⟨q, hq, rfl⟩)
  | inside t =>
    obtain ⟨c, hcall, rfl⟩ := Option.map_eq_some_iff.mp hs
    exact h.inside hcall hbase

/-! ## 3. Any run -/

/-- What a step may do to a file that has handles. -/
structure Respects (s : FileWindow T) (op : WindowOp T) : Prop where
  /-- A new handle comes from `file_dup`, or the file had none. -/
  handedOut : ∀ s', s.step op = some s' → ∀ f,
    handlesOf s.base.handles f < handlesOf s'.base.handles f →
      (∃ t u, op = .plain (.fileDup t f u)) ∨ handlesOf s.base.handles f = 0
  /-- A file keeps what it refers to as long as it has a handle. -/
  lastHandle : ∀ s', s.step op = some s' → ∀ f o, (s.base.files f).target = some o →
    (s'.base.files f).target = some o ∨ handlesOf s'.base.handles f = 0

theorem Ok.respects (h : Ok pool s) (op : WindowOp T) : s.Respects op where
  handedOut := fun s' hs f hmore => by
    rcases h.refines hs with he | ⟨op', hop', hdup⟩
    · rw [he] at hmore
      exact absurd hmore (Nat.lt_irrefl _)
    · refine ((FileState.step_spec h.base hop').2.handedOut h.base hmore).imp_left ?_
      rintro ⟨t, u, rfl⟩
      exact ⟨t, u, hdup t f u rfl⟩
  lastHandle := fun s' hs f o hf => by
    rcases h.refines hs with he | ⟨op', hop', -⟩
    · exact Or.inl (he ▸ hf)
    · obtain ⟨hok, heffect⟩ := FileState.step_spec h.base hop'
      exact heffect.lastHandle h.base hok hf

/-- **Files and pipes live as long as they are referred to.**  In any run of any number of
processes in which no two calls of the allocator cross, and whatever pages are free at first: `ref`
counts the handles, no file with a handle is handed out, what a file refers to stays until its last
handle is closed and is then given back once, and the page of a pipe is freed once, after both
ends. -/
theorem file_lifetime (pipes : Word → Pipe) (mem : Physmem) (ops : List (WindowOp T))
    (hops : EachStep step Uncrossed (init pipes mem) ops) :
    Always step (fun s => s.base.Lifetime) (init pipes mem) ops ∧
      EachStep step Respects (init pipes mem) ops := by
  have hok := init_ok (T := T) pipes mem
  constructor
  · exact Always.mono (fun _ h => h.base.lifetime)
      (always_of_eachStep (fun _ _ _ h hc hs => h.step hc hs) ops _ hok hops)
  · exact eachStep_of_eachStep (fun _ op _ h hc hs => ⟨h.step hc hs, h.respects op⟩) ops _ hok hops

instance [Fintype T] (s : FileWindow T) : ∀ op, Decidable (s.Uncrossed op)
  | .plain _ | .inside _ => .isTrue trivial
  | .pipeAlloc _ | .freePipe _ | .otherAlloc _ | .otherFree _ _ =>
    inferInstanceAs (Decidable (∀ t, s.call t = none))

/-- The rest of `pipe_alloc`, with the page. -/
def fills (t : Bool) : List (WindowOp Bool) := List.replicate 5 (.plain (.next t))

/-- `t` closes both ends of its pipe, and frees the page. -/
def closes (t : Bool) (f0 f1 : Fin nfile) : List (WindowOp Bool) :=
  [.plain (.fileClose t f0), .plain (.next t), .plain (.fileClose t f1), .plain (.next t),
    .freePipe t, .inside t, .inside t]

/-- What `file_init` leaves behind a kernel of 32 pages. -/
def start : FileWindow Bool :=
  init (fun _ => Pipe.alloc fun _ => 0) (Physmem.physmemInit 0x80020000)

/-- A process makes a pipe, in page 32, and closes it, and another one makes a pipe then. -/
def inTurn (f0 f1 : Fin nfile) : List (WindowOp Bool) :=
  .pipeAlloc true :: List.replicate 34 (.inside true) ++ fills true ++ closes true f0 f1 ++
    .pipeAlloc false :: List.replicate 34 (.inside false) ++ fills false

/-- The second pipe is in the page of the first one. -/
theorem file_lifetime_inTurn : ∃ s, run step start (inTurn 0 1) = some s ∧
    s.base.made = [⟨pageAddr 32, 1⟩, ⟨pageAddr 32, 0⟩] ∧ s.base.freed = [⟨pageAddr 32, 0⟩] ∧
      s.base.Lifetime ∧ EachStep step Respects start (inTurn 0 1) := by
  have hops : EachStep step Uncrossed start (inTurn 0 1) := by decide +kernel
  have hrun : (run step start (inTurn 0 1)).map (fun s => (s.base.made, s.base.freed)) =
      some ([⟨pageAddr 32, 1⟩, ⟨pageAddr 32, 0⟩], [⟨pageAddr 32, 0⟩]) := by decide +kernel
  obtain ⟨s, hs, hpipes⟩ := Option.map_eq_some_iff.mp hrun
  obtain ⟨hmade, hfreed⟩ := Prod.mk.inj hpipes
  obtain ⟨hlife, hrespects⟩ := file_lifetime _ _ (inTurn 0 1) hops
  exact ⟨s, hs, hmade, hfreed, (always_iff_forall_part _ _).mp hlife _ s List.prefix_rfl hs,
    hrespects⟩

/-- The second process calls `pipe_alloc` when the first one has found page 32 and not yet marked
it, and the first one closes its pipe in the end. -/
def crossing (f0 f1 : Fin nfile) : List (WindowOp Bool) :=
  .pipeAlloc true :: List.replicate 33 (.inside true) ++
    .pipeAlloc false :: List.replicate 34 (.inside false) ++ .inside true :: fills true ++
      fills false ++ closes true f0 f1

/-- **Two calls that cross take one page**, and it is freed while the files of the second process
refer to it. -/
theorem crossing_frees : ∃ s, run step start (crossing 0 1) = some s ∧
    (s.base.files 2).target = some (.pipeEnd ⟨pageAddr 32, 0⟩ false) ∧ (s.base.files 2).ref = 1 ∧
      s.base.mem.isPageFree 32 = true ∧
      ¬ Always step (fun s => s.base.Lifetime) start (crossing 0 1) := by
  have hrun : (run step start (crossing 0 1)).map (fun s =>
      ((s.base.files 2).target, (s.base.files 2).ref, s.base.mem.isPageFree 32)) =
        some (some (.pipeEnd ⟨pageAddr 32, 0⟩ false), 1, true) := by decide +kernel
  obtain ⟨s, hs, hfile⟩ := Option.map_eq_some_iff.mp hrun
  obtain ⟨htarget, hrest⟩ := Prod.mk.inj hfile
  obtain ⟨href, hfree⟩ := Prod.mk.inj hrest
  refine ⟨s, hs, htarget, href, hfree, fun halways => ?_⟩
  have hlife := (always_iff_forall_part _ _).mp halways _ s List.prefix_rfl hs
  obtain ⟨i, hi, hpage, htaken⟩ := hlife.referred 2 _ _ htarget
  have h32 : 32 < numPages := by
    change 32 < 32768
    omega
  rw [← pageAddr_inj h32 hi hpage, hfree] at htaken
  cases htaken

end FileWindow

end Lithium
