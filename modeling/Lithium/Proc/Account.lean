/-
# The account of the pages

A process that is in use holds three pages, and a free entry holds none: the free pages and those
of the processes are a `Ledger`, with the fields of the table as holders.  `fork` has three places
where it can run out of pages, and `free_proc` gives back whatever is there by then; the three
fields keep their page in three ways, the top of the stack, a pointer, and what
`phys_to_virt_helper` returns.
-/
import Lithium.Lib.Ledger
import Lithium.Proc.Supply
import Mathlib.Data.Finset.Prod

namespace Lithium

/-! ## 1. What a field stands for -/

/-- The field of a process that stands for page `f`, once paging is active. -/
def handle : Resource → Nat → Word
  | .kstack, f => physToVirt (pageAddr f) + pageSize
  | .trapframe, f => physToVirt (pageAddr f)
  | .pagetable, f => physToVirt (pageAddr f)

theorem handle_toNat (r : Resource) {f : Nat} (hf : f < numPages) :
    (handle r f).toNat = (if r = .kstack then 0xC0001000 else 0xC0000000) + 4096 * f := by
  have hf' : f < 32768 := hf
  have hoff : physToVirtOffset.toNat = 0x40000000 := rfl
  have hsize : pageSize.toNat = 4096 := rfl
  have hvirt : (physToVirt (pageAddr f)).toNat = 0xC0000000 + 4096 * f := by
    rw [physToVirt, BitVec.toNat_add, pageAddr_toNat hf, hoff]
    omega
  cases r with
  | kstack =>
    rw [handle, BitVec.toNat_add, hvirt, hsize, if_pos rfl]
    omega
  | trapframe => rw [handle, hvirt, if_neg (by decide)]
  | pagetable => rw [handle, hvirt, if_neg (by decide)]

theorem handle_inj {r : Resource} {f f' : Nat} (hf : f < numPages) (hf' : f' < numPages)
    (h : handle r f = handle r f') : f = f' := by
  have hnat := congrArg BitVec.toNat h
  rw [handle_toNat r hf, handle_toNat r hf'] at hnat
  omega

theorem handle_ne_zero (r : Resource) {f : Nat} (hf : f < numPages) : handle r f ≠ 0 := by
  intro hzero
  have hnat := congrArg BitVec.toNat hzero
  have hz : (0 : Word).toNat = 0 := rfl
  rw [handle_toNat r hf, hz] at hnat
  split at hnat <;> omega

namespace Kernel

/-- The field `h` of the table stands for page `f`. -/
def Holds (k : Kernel) (h : ProcRef × Resource) (f : Nat) : Prop :=
  f < numPages ∧ (k.procTable h.1).pointer h.2 = handle h.2 f

/-- A page of RAM that is free. -/
def IsFree (k : Kernel) (f : Nat) : Prop := f < numPages ∧ k.vm.phys.isPageFree f = true

/-- The pages `P` are the free ones and those of the processes. -/
structure Accounts (P : Finset Nat) (k : Kernel) : Prop where
  active : k.vm.pagingActive = true
  held : ∀ i r, (k.procTable i).pointer r ≠ 0 → ∃ f, k.Holds (i, r) f
  ledger : Ledger (· ∈ P) k.IsFree k.Holds

namespace Accounts

variable {P : Finset Nat} {k k' : Kernel} {i : ProcRef} {r : Resource} {f : Nat}

theorem congr (h : Accounts P k) (hactive : k'.vm.pagingActive = k.vm.pagingActive)
    (hphys : k'.vm.phys = k.vm.phys)
    (hptr : ∀ j s, (k'.procTable j).pointer s = (k.procTable j).pointer s) : Accounts P k' where
  active := hactive.trans h.active
  held j s hne := by
    rw [hptr] at hne
    obtain ⟨f, hf, hpoint⟩ := h.held j s hne
    exact ⟨f, hf, (hptr j s).trans hpoint⟩
  ledger := h.ledger.congr (fun f => by rw [IsFree, IsFree, hphys])
    fun g f => by rw [Holds, Holds, hptr]

/-- Process `i` gets the free page `f` for `r`. -/
theorem give (h : Accounts P k) (hf : f < numPages) (hfree : k.vm.phys.isPageFree f = true)
    (hnone : (k.procTable i).pointer r = 0) (hactive : k'.vm.pagingActive = k.vm.pagingActive)
    (hphys : k'.vm.phys = k.vm.phys.markPageAllocated f)
    (hpoint : (k'.procTable i).pointer r = handle r f)
    (hptr : ∀ j s, ¬ (j = i ∧ s = r) → (k'.procTable j).pointer s = (k.procTable j).pointer s) :
    Accounts P k' := by
  have hholds : ∀ g y, k'.Holds g y ↔ k.Holds g y ∨ (g = (i, r) ∧ y = f) := by
    rintro ⟨j, s⟩ y
    by_cases hjs : j = i ∧ s = r
    · obtain ⟨rfl, rfl⟩ := hjs
      simp only [Holds, hpoint, hnone, true_and]
      constructor
      · exact fun hy => Or.inr (handle_inj hf hy.1 hy.2).symm
      · rintro (⟨hy, hzero⟩ | rfl)
        · exact absurd hzero.symm (handle_ne_zero _ hy)
        · exact ⟨hf, rfl⟩
    · simp only [Holds, hptr j s hjs, Prod.mk.injEq, hjs, false_and, or_false]
  refine ⟨hactive.trans h.active, ?_, h.ledger.give (x := f) (g := (i, r)) ⟨hf, hfree⟩ ?_ ?_ hholds⟩
  · intro j s hne
    by_cases hjs : j = i ∧ s = r
    · exact ⟨f, (hholds (j, s) f).mpr (Or.inr ⟨by rw [hjs.1, hjs.2], rfl⟩)⟩
    · rw [hptr j s hjs] at hne
      obtain ⟨y, hy⟩ := h.held j s hne
      exact ⟨y, (hholds (j, s) y).mpr (Or.inl hy)⟩
  · rintro y ⟨hy, hzero⟩
    exact handle_ne_zero r hy (hzero.symm.trans hnone)
  · intro y
    rw [IsFree, IsFree, hphys, Physmem.isPageFree_markPageAllocated, Bool.and_eq_true,
      decide_eq_true_eq, and_assoc]

/-- Process `i` gives its page for `r` back. -/
theorem back (h : Accounts P k) (hf : k.Holds (i, r) f)
    (hactive : k'.vm.pagingActive = k.vm.pagingActive)
    (hphys : k'.vm.phys = k.vm.phys.freePage (pageAddr f))
    (hpoint : (k'.procTable i).pointer r = 0)
    (hptr : ∀ j s, ¬ (j = i ∧ s = r) → (k'.procTable j).pointer s = (k.procTable j).pointer s) :
    Accounts P k' := by
  have hholds : ∀ g y, k'.Holds g y ↔ k.Holds g y ∧ g ≠ (i, r) := by
    rintro ⟨j, s⟩ y
    by_cases hjs : j = i ∧ s = r
    · obtain ⟨rfl, rfl⟩ := hjs
      simp only [Holds, hpoint, ne_eq, not_true_eq_false, and_false, iff_false]
      exact fun hy => handle_ne_zero _ hy.1 hy.2.symm
    · simp only [Holds, hptr j s hjs, ne_eq, Prod.mk.injEq, hjs, not_false_eq_true, and_true]
  refine ⟨hactive.trans h.active, ?_, h.ledger.back hf ?_ hholds⟩
  · intro j s hne
    by_cases hjs : j = i ∧ s = r
    · obtain ⟨rfl, rfl⟩ := hjs
      exact absurd hpoint hne
    · rw [hptr j s hjs] at hne
      obtain ⟨y, hy⟩ := h.held j s hne
      exact ⟨y, (hholds (j, s) y).mpr ⟨hy, fun e => hjs (Prod.mk.inj e)⟩⟩
  · intro y
    rw [IsFree, IsFree, hphys, Physmem.isPageFree_freePage_pageAddr _ hf.1, Bool.or_eq_true,
      decide_eq_true_eq]
    constructor
    · rintro ⟨hy, hfree | rfl⟩
      · exact Or.inl ⟨hy, hfree⟩
      · exact Or.inr rfl
    · rintro (⟨hy, hfree⟩ | rfl)
      · exact ⟨hy, Or.inl hfree⟩
      · exact ⟨hf.1, Or.inr rfl⟩

/-- A process that has pages for `rs` gets one for `r`. -/
theorem supply (h : Accounts P k) {rs : List Resource}
    (hrs : ∀ s, (k.procTable i).pointer s = 0 ↔ s ∉ rs) (hr : r ∉ rs) (hf : f < numPages)
    (hfree : k.vm.phys.isPageFree f = true) (hactive : k'.vm.pagingActive = k.vm.pagingActive)
    (hphys : k'.vm.phys = k.vm.phys.markPageAllocated f)
    (hpoint : (k'.procTable i).pointer r = handle r f)
    (hptr : ∀ j s, ¬ (j = i ∧ s = r) → (k'.procTable j).pointer s = (k.procTable j).pointer s) :
    Accounts P k' ∧ ∀ s, (k'.procTable i).pointer s = 0 ↔ s ∉ r :: rs := by
  refine ⟨h.give hf hfree ((hrs r).mpr hr) hactive hphys hpoint hptr, ?_⟩
  intro s
  rw [List.mem_cons, not_or]
  by_cases hs : s = r
  · subst hs
    rw [hpoint]
    exact ⟨fun hzero => absurd hzero (handle_ne_zero _ hf), fun hne => absurd rfl hne.1⟩
  · rw [hptr i s fun e => hs e.2, hrs s]
    exact ⟨fun hne => ⟨hs, hne⟩, fun hne => hne.2⟩

end Accounts

/-! ## 2. Allocations and `free_proc` -/

variable {P : Finset Nat} {k k' : Kernel}

/-- **The allocations of `fork` and `proc_init`**, for an entry that has no pages yet. -/
theorem Supplied.accounts {c : ProcRef} {rs : List Resource} (hs : Supplied c k rs k')
    (h : Accounts P k) (hnone : ∀ r, (k.procTable c).pointer r = 0) :
    Accounts P k' ∧ ∀ r, (k'.procTable c).pointer r = 0 ↔ r ∉ rs := by
  induction hs with
  | claimed => exact ⟨h, fun r => by simp [hnone r]⟩
  | stack _ hrun ih =>
    obtain ⟨f, hf, hfree, rfl⟩ := giveStack_true hrun
    refine ih.1.supply ih.2 (by simp) hf hfree rfl rfl ?_
      (modify_pointer _ c fun p s hs => pointer_kstack p _ hs)
    rw [modify_self]
    rfl
  | frame _ hrun ih =>
    obtain ⟨f, hf, hfree, rfl⟩ := giveTrapframe_true hrun
    refine ih.1.supply ih.2 (by simp) hf hfree rfl rfl ?_
      (modify_pointer _ c fun p s hs => pointer_trapframe p _ hs)
    rw [modify_self]
    rfl
  | @inherit k₁ parent _ _ ih =>
    obtain ⟨vm', heq, hphys, hregs, -⟩ := k₁.inheritTrapframe_eq parent c
    rw [heq]
    exact ⟨ih.1.congr hregs.pagingActive hphys fun _ _ => rfl, ih.2⟩
  | @table k₁ k₂ _ hrun ih =>
    obtain ⟨vm', r, hr, hfree, hphys, hregs, rfl⟩ := giveTable_true hrun
    refine ih.1.supply ih.2 (by simp) hr hfree hregs.pagingActive hphys ?_
      (modify_pointer _ c fun p s hs => pointer_pagetable p _ hs)
    rw [modify_self]
    change k₁.vm.physToVirtHelper (pageAddr r) = _
    rw [Vm.physToVirtHelper, ih.1.active, if_pos rfl]
    rfl
  | @noTable k₁ k₂ _ hrun ih =>
    obtain rfl := giveTable_false hrun
    -- the table was `NULL` before
    have hsame : ∀ j s, ((k₁.modify c fun p => { p with pagetable := 0 }).procTable j).pointer s
        = (k₁.procTable j).pointer s := by
      intro j s
      by_cases hjs : j = c ∧ s = .pagetable
      · rw [hjs.1, hjs.2, modify_self, (ih.2 .pagetable).mpr (by simp)]
        rfl
      · exact modify_pointer _ c (fun p s hs => pointer_pagetable p _ hs) j s hjs
    exact ⟨ih.1.congr rfl rfl hsame, fun s => by rw [hsame, ih.2]⟩

/-- Freeing the page table leaves the two other fields. -/
theorem freeProcTable_entry (k : Kernel) (i : ProcRef) :
    (k.freeProcTable i).procTable i = { k.procTable i with pagetable := 0 } := by
  unfold freeProcTable
  split
  case isTrue => rw [modify_self]
  case isFalse hzero => rw [← not_not.mp hzero]

/-- Freeing the stack leaves the trapframe. -/
theorem freeProcStack_entry (k : Kernel) (i : ProcRef) :
    (k.freeProcStack i).procTable i = { k.procTable i with kstack := 0 } := by
  unfold freeProcStack
  split
  case isTrue =>
    rw [modify_self]
    rfl
  case isFalse hzero => rw [← not_not.mp hzero]

theorem freeProcTrapframe_entry (k : Kernel) (i : ProcRef) :
    (k.freeProcTrapframe i).procTable i = { k.procTable i with trapframe := 0 } := by
  unfold freeProcTrapframe
  split
  case isTrue =>
    rw [modify_self]
    rfl
  case isFalse hzero => rw [← not_not.mp hzero]

/-- What `free_proc` leaves of an entry. -/
theorem freeProc_self (k : Kernel) (i : ProcRef) : (k.freeProc i).procTable i =
    { k.procTable i with
      state := .unused
      pagetable := 0
      kstack := 0
      trapframe := 0 } := by
  rw [freeProc, modify_self, freeProcTrapframe_entry, freeProcStack_entry, freeProcTable_entry]

theorem freeProc_pointer (k : Kernel) (i : ProcRef) (r : Resource) :
    ((k.freeProc i).procTable i).pointer r = 0 := by
  rw [freeProc_self]
  cases r <;> rfl

namespace Accounts

theorem freeProcTable (h : Accounts P k) (i : ProcRef) : Accounts P (k.freeProcTable i) := by
  unfold Kernel.freeProcTable
  split
  case isFalse => exact h
  case isTrue hne =>
    obtain ⟨f, hf, hpoint⟩ := h.held i .pagetable hne
    have hphys : (k.vm.freePageTable (k.procTable i).pagetable).phys
        = k.vm.phys.freePage (pageAddr f) := by
      change (k.procTable i).pagetable = physToVirt (pageAddr f) at hpoint
      rw [Vm.freePageTable, if_neg hne, Vm.virtToPhysHelper, h.active, if_pos rfl, hpoint,
        virtToPhys, physToVirt, BitVec.add_sub_cancel]
    refine h.back ⟨hf, hpoint⟩ ?_ hphys (by rw [modify_self]; rfl)
      (modify_pointer _ i fun p s hs => pointer_pagetable p _ hs)
    rw [modify_vm, Vm.freePageTable, if_neg hne]

/-- A kernel stack or a trapframe goes back to the page allocator, if it lies at `phys`. -/
theorem freePage (h : Accounts P k) {i : ProcRef} {r : Resource} {phys : Word} {f : Proc → Proc}
    (hne : (k.procTable i).pointer r ≠ 0)
    (hphys : ∀ g, (k.procTable i).pointer r = handle r g → phys = pageAddr g)
    (hzero : ∀ p, (f p).pointer r = 0) (hother : ∀ p s, s ≠ r → (f p).pointer s = p.pointer s) :
    Accounts P ((k.freePage phys).modify i f) := by
  obtain ⟨g, hg, hpoint⟩ := h.held i r hne
  refine h.back ⟨hg, hpoint⟩ rfl ?_ (by rw [modify_self]; exact hzero _)
    (modify_pointer _ i hother)
  rw [modify_vm, hphys g hpoint]
  rfl

theorem freeProcStack (h : Accounts P k) (i : ProcRef) : Accounts P (k.freeProcStack i) := by
  unfold Kernel.freeProcStack
  split
  case isFalse => exact h
  case isTrue hne =>
    refine h.freePage (r := .kstack) hne (fun g hp => ?_) (fun _ => rfl)
      fun p s hs => pointer_kstack p _ hs
    change (k.procTable i).kstack = physToVirt (pageAddr g) + pageSize at hp
    rw [hp, BitVec.add_sub_cancel, virtToPhys, physToVirt, BitVec.add_sub_cancel]

theorem freeProcTrapframe (h : Accounts P k) (i : ProcRef) :
    Accounts P (k.freeProcTrapframe i) := by
  unfold Kernel.freeProcTrapframe
  split
  case isFalse => exact h
  case isTrue hne =>
    refine h.freePage (r := .trapframe) hne (fun g hp => ?_) (fun _ => rfl)
      fun p s hs => pointer_trapframe p _ hs
    change (k.procTable i).trapframe = physToVirt (pageAddr g) at hp
    rw [hp, virtToPhys, physToVirt, BitVec.add_sub_cancel]

/-- **`free_proc`** gives back what is there, whatever part of the three it is. -/
theorem freeProc (h : Accounts P k) (i : ProcRef) : Accounts P (k.freeProc i) :=
  (((h.freeProcTable i).freeProcStack i).freeProcTrapframe i).congr rfl rfl fun j s =>
    modify_field _ i (fun p => { p with state := .unused }) (fun p => p.pointer s)
      (fun p => by cases s <;> rfl) j

end Accounts

/-! ## 3. Between two calls -/

/-- The account of the pages is right, and an entry has all three pages or is free and has
none. -/
structure Conserved (P : Finset Nat) (k : Kernel) : Prop where
  accounts : Accounts P k
  full : ∀ i r, (k.procTable i).pointer r = 0 ↔ (k.procTable i).state = .unused

theorem adopt_of_ne (k : Kernel) (parent : ProcRef) {i c : ProcRef} (h : i ≠ c) :
    (k.adopt parent c).procTable i = k.procTable i := by
  rw [adopt, modify_of_ne _ _ _ h, claimProc_of_ne _ h]

theorem claimProc_pointer (k : Kernel) (c : ProcRef) (r : Resource) :
    ((k.claimProc c).procTable c).pointer r = 0 := by
  unfold claimProc
  dsimp only
  rw [modify_self]
  cases r <;> rfl

theorem adopt_pointer (k : Kernel) (parent c : ProcRef) (r : Resource) :
    ((k.adopt parent c).procTable c).pointer r = 0 := by
  rw [adopt, modify_self, ← claimProc_pointer k c r]
  cases r <;> rfl

namespace Conserved

/-- Steps that give and free nothing. -/
theorem congr (h : Conserved P k) (hactive : k'.vm.pagingActive = k.vm.pagingActive)
    (hphys : k'.vm.phys = k.vm.phys)
    (hptr : ∀ j s, (k'.procTable j).pointer s = (k.procTable j).pointer s)
    (hused : ∀ j, (k'.procTable j).state = .unused ↔ (k.procTable j).state = .unused) :
    Conserved P k' :=
  ⟨h.accounts.congr hactive hphys hptr, fun i r => by rw [hptr, hused, h.full]⟩

/-- A new state for an entry in use. -/
theorem modify (h : Conserved P k) {i : ProcRef} {f : Proc → Proc}
    (hi : (k.procTable i).state ≠ .unused) (hf : ∀ p, (f p).state ≠ .unused)
    (hptr : ∀ p r, (f p).pointer r = p.pointer r) : Conserved P (k.modify i f) := by
  refine h.congr rfl rfl
    (fun j s => modify_field k i f (fun p => p.pointer s) (fun p => hptr p s) j) ?_
  intro j
  by_cases hj : j = i
  · rw [hj, modify_self]
    exact ⟨fun e => absurd e (hf _), fun e => absurd e hi⟩
  · rw [modify_of_ne _ _ _ hj]

/-- `free_proc`, when the other entries are right. -/
theorem freed {c : ProcRef} (h : Accounts P k)
    (hothers : ∀ j, j ≠ c → ∀ r, (k.procTable j).pointer r = 0 ↔ (k.procTable j).state = .unused) :
    Conserved P (k.freeProc c) := by
  refine ⟨h.freeProc c, ?_⟩
  intro j r
  by_cases hj : j = c
  · rw [hj, freeProc_pointer, freeProc_state]
    exact ⟨fun _ => rfl, fun _ => rfl⟩
  · rw [(Fills.freeProc c k).others j hj, hothers j hj]

/-- A new process with its three pages, when the other entries are right. -/
theorem ready {c : ProcRef} (h : Accounts P k)
    (hptr : ∀ r, (k.procTable c).pointer r = 0 ↔ r ∉ [Resource.pagetable, .trapframe, .kstack])
    (hothers : ∀ j, j ≠ c → ∀ r, (k.procTable j).pointer r = 0 ↔ (k.procTable j).state = .unused) :
    Conserved P (k.modify c fun p => { p with state := .runnable }) := by
  have hsame : ∀ j r, (((k.modify c fun p => { p with state := .runnable }).procTable j).pointer r)
      = (k.procTable j).pointer r := fun j r =>
    modify_field k c (fun p => { p with state := .runnable }) (fun p => p.pointer r)
      (fun p => by cases r <;> rfl) j
  refine ⟨h.congr rfl rfl hsame, ?_⟩
  intro j r
  rw [hsame]
  by_cases hj : j = c
  · rw [hj, hptr, modify_self]
    cases r <;> simp
  · rw [modify_of_ne _ _ _ hj, hothers j hj]

/-- **`fork`**, whichever of its allocations fails. -/
theorem fork (h : Conserved P k) : Conserved P k.fork.1 := by
  cases hcur : k.currentProcess with
  | none =>
    have hfork : k.fork = (k, -1) := by
      unfold Kernel.fork
      rw [hcur]
    rw [hfork]
    exact h
  | some parent =>
    rcases fork_supplied hcur with ⟨-, -, hend⟩ | ⟨c, rs, k', hfree, -, hs, hend⟩
    · rw [hend]
      exact h
    have hnone : ∀ r, (k.procTable c).pointer r = 0 := fun r => (h.full c r).mpr hfree
    have hadopt : Accounts P (k.adopt parent c) := by
      refine h.accounts.congr rfl rfl ?_
      intro j s
      by_cases hj : j = c
      · rw [hj, adopt_pointer, hnone]
      · rw [adopt_of_ne _ _ hj]
    obtain ⟨hacc, hptr⟩ := hs.accounts hadopt (k.adopt_pointer parent c)
    have hothers : ∀ j, j ≠ c → ∀ r,
        (k'.procTable j).pointer r = 0 ↔ (k'.procTable j).state = .unused := by
      intro j hj r
      rw [(Fills.equipped hs.equipped).others j hj, adopt_of_ne _ _ hj, h.full]
    rcases hend with ⟨-, -, hend⟩ | ⟨rfl, hend⟩
    · rw [hend]
      exact freed hacc hothers
    · rw [hend]
      exact ready hacc hptr hothers

/-- **`proc_init`**, when it succeeds. -/
theorem procInit {vm : Vm} (hactive : vm.pagingActive = true)
    (hinit : (fresh vm).procInit.currentProcess ≠ none) :
    Conserved ((Finset.range numPages).filter fun f => vm.phys.isPageFree f = true)
      (fresh vm).procInit := by
  obtain ⟨init, k', hs, hend⟩ := procInit_supplied (k := fresh vm) rfl hinit
  have hbss : ∀ i r, ((fresh vm).procTable i).pointer r = 0 := by
    intro i r
    cases r <;> rfl
  set k₀ : Kernel := { fresh vm with
    procTable := fun i => { (fresh vm).procTable i with state := .unused } }
  have hzero : ∀ i r, (k₀.procTable i).pointer r = 0 := by
    intro i r
    rw [← hbss i r]
    cases r <;> rfl
  have hptr₀ : ∀ i r, ((k₀.claimProc init).procTable i).pointer r = 0 := by
    intro i r
    by_cases hi : i = init
    · rw [hi, claimProc_pointer]
    · rw [claimProc_of_ne _ hi, hzero]
  -- nobody holds a page yet
  have hnobody : ∀ g f, ¬ (k₀.claimProc init).Holds g f := by
    rintro ⟨i, r⟩ f ⟨hf, hpoint⟩
    exact handle_ne_zero r hf (hpoint.symm.trans (hptr₀ i r))
  have hacc₀ : Accounts ((Finset.range numPages).filter fun f => vm.phys.isPageFree f = true)
      (k₀.claimProc init) := by
    refine ⟨hactive, fun i r hne => absurd (hptr₀ i r) hne, ?_, ?_, ?_, ?_⟩
    · intro f
      rw [Finset.mem_filter, Finset.mem_range]
      exact ⟨Or.inl, fun h => h.elim id fun ⟨g, hg⟩ => absurd hg (hnobody g f)⟩
    · exact fun hg => absurd hg (hnobody _ _)
    · exact fun hg => absurd hg (hnobody _ _)
    · exact fun hg => absurd hg (hnobody _ _)
  obtain ⟨hacc, hptr⟩ := hs.accounts hacc₀ (hptr₀ init)
  have hothers : ∀ j, j ≠ init → ∀ r,
      (k'.procTable j).pointer r = 0 ↔ (k'.procTable j).state = .unused := by
    intro j hj r
    rw [(Fills.equipped hs.equipped).others j hj, claimProc_of_ne _ hj, hzero]
    exact ⟨fun _ => rfl, fun _ => rfl⟩
  rw [hend]
  exact (ready hacc hptr hothers).congr rfl rfl (fun _ _ => rfl) fun _ => Iff.rfl

/-- **`wait`**. -/
theorem wait (h : Conserved P k) (statusAddr : Word) : Conserved P (k.wait statusAddr).1 := by
  unfold Kernel.wait
  split
  · exact h
  case h_2 child _ =>
    dsimp only
    obtain ⟨w, hstore⟩ := storeInt_eq k.vm statusAddr (k.procTable child).exitCode
    rw [hstore]
    have hstored : Accounts P { k with vm := k.vm.store (statusAddr &&& ~~~7) w } :=
      h.accounts.congr rfl rfl fun _ _ => rfl
    exact freed hstored fun j _ r => h.full j r

theorem wakeup (h : Conserved P k) : Conserved P k.wakeup := by
  have hentry : ∀ j, (∀ s, (k.wakeup.procTable j).pointer s = (k.procTable j).pointer s) ∧
      ((k.wakeup.procTable j).state = .unused ↔ (k.procTable j).state = .unused) := by
    intro j
    unfold Kernel.wakeup
    dsimp only
    split
    case isTrue hsleep =>
      exact ⟨fun s => by cases s <;> rfl, by rw [hsleep]; simp⟩
    case isFalse => exact ⟨fun _ => rfl, Iff.rfl⟩
  exact h.congr rfl rfl (fun j => (hentry j).1) fun j => (hentry j).2

theorem exit (h : Conserved P k) (status : BitVec 32)
    (hused : ∀ i, k.currentProcess = some i → (k.procTable i).state ≠ .unused) :
    Conserved P (k.exit status) := by
  unfold Kernel.exit
  cases hcur : k.currentProcess with
  | none => exact h
  | some i =>
    have hzombie : Conserved P (k.modify i fun p => { p with
        exitCode := status
        state := .zombie }) :=
      h.modify (hused i hcur) (fun _ => by simp) fun _ r => by cases r <;> rfl
    dsimp only
    split
    · exact hzombie.wakeup
    · exact hzombie

theorem sleep (h : Conserved P k)
    (hused : ∀ i, k.currentProcess = some i → (k.procTable i).state ≠ .unused) :
    Conserved P k.sleep := by
  unfold Kernel.sleep
  cases hcur : k.currentProcess with
  | none => exact h
  | some i => exact h.modify (hused i hcur) (fun _ => by simp) fun _ r => by cases r <;> rfl

theorem yield (h : Conserved P k) : Conserved P k.yield := by
  unfold Kernel.yield
  cases k.currentProcess with
  | none => exact h
  | some i =>
    dsimp only
    split
    case isTrue hrun =>
      exact h.modify (by simp [hrun]) (fun _ => by simp) fun _ r => by cases r <;> rfl
    case isFalse => exact h

theorem dispatch (h : Conserved P k) {i : ProcRef} (hi : (k.procTable i).state = .runnable) :
    Conserved P (k.dispatch i) := by
  refine h.congr ?_ ?_ ?_ ?_
  · rw [h.accounts.active]
    have hactive := h.accounts.active
    unfold Kernel.dispatch
    dsimp only
    split <;> split <;> first | exact hactive | rfl
  · unfold Kernel.dispatch
    dsimp only
    split <;> split <;> rfl
  · intro j r
    rw [k.dispatch_field i (fun p => p.pointer r) (fun p c => by cases r <;> rfl)]
    split
    case isTrue hj =>
      rw [hj]
      cases r <;> rfl
    case isFalse => rfl
  · intro j
    rw [dispatch_state]
    split
    case isTrue hj => simp [hj, hi]
    case isFalse => rfl

end Conserved

/-! ## 4. What the account says -/

/-- How many entries are in use. -/
def numUsed (k : Kernel) : Nat :=
  (Finset.univ.filter fun i => (k.procTable i).state ≠ .unused).card

/-- The free pages, and three for every process. -/
def total (k : Kernel) : Nat := k.vm.phys.numFree + 3 * k.numUsed

/-- The page behind a field of process `i`, as `free_proc` gets at it. -/
def page (k : Kernel) (i : ProcRef) : Resource → Word
  | .kstack => virtToPhys ((k.procTable i).kstack - pageSize)
  | .trapframe => virtToPhys (k.procTable i).trapframe
  | .pagetable => k.vm.virtToPhysHelper (k.procTable i).pagetable

theorem Accounts.page_eq (h : Accounts P k) {i : ProcRef} {r : Resource} {f : Nat}
    (hf : k.Holds (i, r) f) : k.page i r = pageAddr f := by
  obtain ⟨-, hpoint⟩ := hf
  cases r with
  | kstack =>
    change (k.procTable i).kstack = physToVirt (pageAddr f) + pageSize at hpoint
    rw [page, hpoint, BitVec.add_sub_cancel, virtToPhys, physToVirt, BitVec.add_sub_cancel]
  | trapframe =>
    change (k.procTable i).trapframe = physToVirt (pageAddr f) at hpoint
    rw [page, hpoint, virtToPhys, physToVirt, BitVec.add_sub_cancel]
  | pagetable =>
    change (k.procTable i).pagetable = physToVirt (pageAddr f) at hpoint
    rw [page, hpoint, Vm.virtToPhysHelper, h.active, if_pos rfl, virtToPhys, physToVirt,
      BitVec.add_sub_cancel]

theorem numFree_eq_card (p : Physmem) :
    p.numFree = ((Finset.range numPages).filter fun f => p.isPageFree f = true).card := by
  rw [Physmem.numFree]
  generalize numPages = n
  induction n with
  | zero => rfl
  | succ n ih =>
    rw [List.range_succ, List.countP_append, ih, Finset.range_add_one, Finset.filter_insert]
    by_cases hn : p.isPageFree n = true
    · rw [if_pos hn, Finset.card_insert_of_notMem (by simp), List.countP_singleton, if_pos hn]
    · rw [if_neg hn, List.countP_singleton, if_neg hn, Nat.add_zero]

namespace Conserved

/-- A process in use holds a page for everything. -/
theorem holds (h : Conserved P k) {i : ProcRef} (hi : (k.procTable i).state ≠ .unused)
    (r : Resource) : ∃ f, k.Holds (i, r) f :=
  h.accounts.held i r fun hzero => hi ((h.full i r).mp hzero)

/-- **The sum of pages is constant.** -/
theorem total_eq (h : Conserved P k) : k.total = P.card := by
  have hcard := h.accounts.ledger.card_eq (P := P)
    (F := (Finset.range numPages).filter fun f => k.vm.phys.isPageFree f = true)
    (H := (Finset.univ.filter fun i => (k.procTable i).state ≠ .unused) ×ˢ
      {Resource.kstack, .trapframe, .pagetable})
    (fun _ => Iff.rfl) (fun f => by rw [Finset.mem_filter, Finset.mem_range, IsFree]) ?_
  · have hthree : ({Resource.kstack, .trapframe, .pagetable} : Finset Resource).card = 3 := rfl
    rw [Finset.card_product, hthree] at hcard
    rw [total, numUsed, ← hcard, Nat.mul_comm, numFree_eq_card]
  · rintro ⟨i, r⟩
    have hr : r ∈ ({Resource.kstack, .trapframe, .pagetable} : Finset Resource) := by
      cases r <;> simp
    rw [Finset.mem_product, Finset.mem_filter]
    constructor
    · exact fun hi => h.holds hi.1.2 r
    · rintro ⟨f, hf, hpoint⟩
      refine ⟨⟨Finset.mem_univ _, fun hun => ?_⟩, hr⟩
      exact handle_ne_zero r hf (hpoint.symm.trans ((h.full i r).mpr hun))

end Conserved

/-- `fork` leaves the free pages as they are and every entry but the one it has tried, which is
free. -/
structure ForkUndone (k : Kernel) : Prop where
  free : ∀ f, f < numPages → k.fork.1.vm.phys.isPageFree f = k.vm.phys.isPageFree f
  others : ∀ j, k.allocProc.2 ≠ some j → k.fork.1.procTable j = k.procTable j
  slot : ∀ c, k.allocProc.2 = some c → (k.fork.1.procTable c).state = .unused

/-- A `fork` that makes no child changes nothing: the same fields hold pages. -/
theorem Conserved.forkUndone (h : Conserved P k) (hr : k.Refused) : k.ForkUndone := by
  have h' := h.fork
  have hholds : ∀ g f, k.fork.1.Holds g f ↔ k.Holds g f := by
    rintro ⟨j, r⟩ f
    by_cases hj : k.allocProc.2 = some j
    · obtain ⟨hbefore, hafter⟩ := hr.slot j hj
      simp only [Holds, (h.full j r).mpr hbefore, (h'.full j r).mpr hafter]
    · simp only [Holds, hr.others j hj]
  refine ⟨?_, hr.others, fun c hc => (hr.slot c hc).2⟩
  intro f hf
  have hfree := h.accounts.ledger.free_congr h'.accounts.ledger hholds f
  rw [IsFree, IsFree, and_iff_right hf, and_iff_right hf] at hfree
  exact Bool.eq_iff_iff.mpr hfree

/-- `kernel_main` gets to a successful `proc_init` with paging active only: when `paging_init`
fails, all pages are gone. -/
theorem memoryTested_active {kend : Word} {mem : Word → Word}
    (hinit : (fresh (memoryTested kend mem)).procInit.currentProcess ≠ none) :
    (memoryTested kend mem).pagingActive = true := by
  obtain ⟨init, k', hs, -⟩ := procInit_supplied (k := fresh (memoryTested kend mem)) rfl hinit
  have hnum : k'.vm.phys.numFree + 3 = (memoryTested kend mem).phys.numFree := hs.numFree
  revert hnum
  unfold memoryTested
  -- the test of the allocator finds no page when there is none
  have htest : ∀ vm : Vm, vm.phys.numFree = 0 → (testAllocator vm).phys.numFree = 0 := by
    intro vm hzero
    have halloc : vm.phys.allocPage = (vm.phys, 0) := by
      rcases vm.phys.allocPage_cases with ⟨halloc, -⟩ | ⟨f, hf, hfree, -⟩
      · exact halloc
      · have hstrike := Physmem.numFree_markPageAllocated hf hfree
        omega
    rw [testAllocator]
    dsimp only
    rw [halloc, halloc, Physmem.freePage,
      if_pos (Or.inl (show (0 : Word) < kernelBaseAddr by decide))]
    exact hzero
  rcases (Vm.boot kend mem).pagingInit_cases kend with
    ⟨vm', hrun, -, hzero⟩ | ⟨vm₁, root, r, vm₂, ok, -, -, -, -, hrun, -, -, hfull, -⟩
  · rw [hrun, htest vm' hzero]
    omega
  · rw [hrun]
    cases ok with
    | false =>
      rw [if_neg (by simp), htest vm₂ (hfull rfl)]
      omega
    | true => exact fun _ => rfl

end Kernel

end Lithium
