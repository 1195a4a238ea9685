/-
# What `wait` promises

`wait` is the call of a parent for a child that ends: it gives the pid of one that has, frees its
entry and stores its exit code where the caller asks for it, and says -1 when there is none to wait
for.  The code looks through the table once.  It says -1 too while the children are alive, and it
stores without looking whether an address was given, as `sys_wait` gives none.
-/
import Lithium.Proc.Account
import Lithium.Sys.Syscall

namespace Lithium

namespace Kernel

/-! ## 1. The contract -/

/-- Process `i` is a child of the caller. -/
def IsChild (k : Kernel) (i : ProcRef) : Prop :=
  (k.procTable i).parent = k.currentProcess ∧ (k.procTable i).state ≠ .unused

/-- It is one that has ended. -/
def IsZombieChild (k : Kernel) (i : ProcRef) : Prop :=
  (k.procTable i).parent = k.currentProcess ∧ (k.procTable i).state = .zombie

/-- The assignments `*(int*)status_addr = child->exit_code` that `wait` executes. -/
def waitStores (k : Kernel) (statusAddr : Word) : List (Word × BitVec 32) :=
  k.zombieChild.elim [] fun child => [(statusAddr, (k.procTable child).exitCode)]

/-- The address `phys` lies in page `f`. -/
def InPage (phys : Word) (f : Nat) : Prop :=
  kernelBaseAddr ≤ phys ∧ phys < kernelBaseAddr + physMemSize ∧
    ((phys - kernelBaseAddr) / pageSize).toNat = f

/-- Page `f` is one that process `i` has. -/
def HasPage (k : Kernel) (i : ProcRef) (f : Nat) : Prop :=
  ∃ r, (k.procTable i).pointer r ≠ 0 ∧ InPage (k.page i r) f

/-- From `k` to `k'` the zombie child `c` is reaped. -/
structure Reaps (k : Kernel) (c : ProcRef) (k' : Kernel) : Prop where
  zombie : k.IsZombieChild c
  freed : (k'.procTable c).state = .unused
  others : ∀ j, j ≠ c → k'.procTable j = k.procTable j
  pages : ∀ f, k'.vm.phys.isPageFree f = true ↔ k.vm.phys.isPageFree f = true ∨ k.HasPage c f

/-- What `wait` promises. -/
structure WaitOk (k : Kernel) (statusAddr : Word) : Prop where
  /-- It says -1 only to a caller without children. -/
  noChild : (k.wait statusAddr).2 = -1 → ∀ i, ¬ k.IsChild i
  /-- A pid is the one of the child that it has reaped, and the exit code of this child is stored
  when there is an address. -/
  reaps : (k.wait statusAddr).2 ≠ -1 → ∃ c, k.Reaps c (k.wait statusAddr).1 ∧
    (k.wait statusAddr).2 = (k.procTable c).pid ∧
    k.waitStores statusAddr
      = if statusAddr = 0 then [] else [(statusAddr, (k.procTable c).exitCode)]

/-- `c` is the first zombie child in the table. -/
def FirstZombieChild (k : Kernel) (c : ProcRef) : Prop :=
  k.IsZombieChild c ∧ ∀ j, j < c → ¬ k.IsZombieChild j

/-- The condition: there is no child, or there is one that has ended, with another pid than -1,
and an address. -/
def WaitsWell (k : Kernel) (statusAddr : Word) : Prop :=
  (∀ i, ¬ k.IsChild i) ∨
    statusAddr ≠ 0 ∧ ∃ c, k.FirstZombieChild c ∧ (k.procTable c).pid ≠ -1

/-! ## 2. What `free_proc` frees -/

variable {k : Kernel} {i c : ProcRef} {statusAddr : Word}

theorem isPageFree_freePage_iff (p : Physmem) (phys : Word) (f : Nat) :
    (p.freePage phys).isPageFree f = true ↔ p.isPageFree f = true ∨ InPage phys f := by
  rw [Physmem.isPageFree_freePage, Bool.or_eq_true, decide_eq_true_eq, InPage]

theorem freeProcTable_pages (k : Kernel) (i : ProcRef) (f : Nat) :
    (k.freeProcTable i).vm.phys.isPageFree f = true ↔ k.vm.phys.isPageFree f = true ∨
      (k.procTable i).pagetable ≠ 0 ∧ InPage (k.page i .pagetable) f := by
  unfold freeProcTable
  by_cases h : (k.procTable i).pagetable ≠ 0
  · rw [if_pos h, modify_vm, Vm.freePageTable, if_neg h, isPageFree_freePage_iff]
    exact or_congr_right ⟨fun hp => ⟨h, hp⟩, And.right⟩
  · rw [if_neg h]
    exact (or_iff_left fun hp => h hp.1).symm

theorem freeProcStack_pages (k : Kernel) (i : ProcRef) (f : Nat) :
    (k.freeProcStack i).vm.phys.isPageFree f = true ↔ k.vm.phys.isPageFree f = true ∨
      (k.procTable i).kstack ≠ 0 ∧ InPage (k.page i .kstack) f := by
  unfold freeProcStack
  by_cases h : (k.procTable i).kstack ≠ 0
  · rw [if_pos h, modify_vm, freePage, isPageFree_freePage_iff]
    exact or_congr_right ⟨fun hp => ⟨h, hp⟩, And.right⟩
  · rw [if_neg h]
    exact (or_iff_left fun hp => h hp.1).symm

theorem freeProcTrapframe_pages (k : Kernel) (i : ProcRef) (f : Nat) :
    (k.freeProcTrapframe i).vm.phys.isPageFree f = true ↔ k.vm.phys.isPageFree f = true ∨
      (k.procTable i).trapframe ≠ 0 ∧ InPage (k.page i .trapframe) f := by
  unfold freeProcTrapframe
  by_cases h : (k.procTable i).trapframe ≠ 0
  · rw [if_pos h, modify_vm, freePage, isPageFree_freePage_iff]
    exact or_congr_right ⟨fun hp => ⟨h, hp⟩, And.right⟩
  · rw [if_neg h]
    exact (or_iff_left fun hp => h hp.1).symm

/-- **`free_proc`** frees the pages that the process has, and no others. -/
theorem freeProc_pages (k : Kernel) (i : ProcRef) (f : Nat) :
    (k.freeProc i).vm.phys.isPageFree f = true ↔
      k.vm.phys.isPageFree f = true ∨ k.HasPage i f := by
  have hkstack : ((k.freeProcTable i).procTable i).kstack = (k.procTable i).kstack := by
    rw [freeProcTable_entry]
  have htrapframe : (((k.freeProcTable i).freeProcStack i).procTable i).trapframe
      = (k.procTable i).trapframe := by
    rw [freeProcStack_entry, freeProcTable_entry]
  rw [freeProc, modify_vm, freeProcTrapframe_pages, freeProcStack_pages, freeProcTable_pages]
  simp only [page, hkstack, htrapframe]
  constructor
  · rintro (((hfree | h) | h) | h)
    · exact Or.inl hfree
    · exact Or.inr ⟨.pagetable, h⟩
    · exact Or.inr ⟨.kstack, h⟩
    · exact Or.inr ⟨.trapframe, h⟩
  · rintro (hfree | ⟨r, h⟩)
    · exact Or.inl (Or.inl (Or.inl hfree))
    · cases r with
      | kstack => exact Or.inl (Or.inr h)
      | trapframe => exact Or.inr h
      | pagetable => exact Or.inl (Or.inl (Or.inr h))

/-! ## 3. What `wait` does -/

/-- The search finds the first zombie child. -/
theorem zombieChild_eq_some : k.zombieChild = some c ↔ k.FirstZombieChild c := by
  rw [zombieChild, List.find?_eq_some_iff_getElem, FirstZombieChild]
  simp only [Bool.and_eq_true, beq_iff_eq, List.getElem_finRange, Bool.not_eq_true']
  refine and_congr_right fun _ => ⟨?_, fun hbefore => ?_⟩
  · rintro ⟨n, hn, rfl, hbefore⟩ j hj hzombie
    have hskip := hbefore j.val hj
    simp [hzombie.1, hzombie.2] at hskip
  · refine ⟨c.val, by simp, rfl, fun j hj => ?_⟩
    have hskip := hbefore ⟨j, hj.trans c.isLt⟩ hj
    rw [← Bool.not_eq_true, Bool.and_eq_true, beq_iff_eq, beq_iff_eq]
    exact hskip

theorem zombieChild_eq_none : k.zombieChild = none ↔ ∀ i, ¬ k.IsZombieChild i := by
  rw [zombieChild, List.find?_eq_none]
  simp [IsZombieChild]

/-- The kernel that `wait` leaves: the stores it executes, then `free_proc`. -/
theorem wait_of_zombieChild (h : k.zombieChild = some c) : k.wait statusAddr =
    ({ k with vm := (k.waitStores statusAddr).foldl (fun vm (st : Word × BitVec 32) =>
        storeInt vm st.1 st.2) k.vm }.freeProc c, (k.procTable c).pid) := by
  rw [waitStores, h]
  unfold zombieChild at h
  rw [wait, h]
  rfl

theorem wait_of_none (h : k.zombieChild = none) : k.wait statusAddr = (k, -1) := by
  unfold zombieChild at h
  rw [wait, h]

/-- **A child that is found is reaped.** -/
theorem reaps_of_zombieChild (h : k.zombieChild = some c) :
    k.Reaps c (k.wait statusAddr).1 := by
  rw [wait_of_zombieChild h]
  refine ⟨(zombieChild_eq_some.mp h).1, freeProc_state _ c, fun j hj => ?_, fun f => ?_⟩
  · exact (Fills.freeProc c _).others j hj
  · obtain ⟨w, hstore⟩ := storeInt_eq k.vm statusAddr (k.procTable c).exitCode
    rw [waitStores, h, Option.elim_some, List.foldl_cons, List.foldl_nil, hstore, freeProc_pages]
    rfl

/-! ## 4. When the promise is kept -/

/-- **`wait` keeps its promise exactly when there is no child, or a child has ended and an address
is given**, whatever the table.  The kernel's data lie apart from `statusAddr`: the store changes
memory and no entry of the table. -/
theorem waitOk_iff (k : Kernel) (statusAddr : Word) :
    k.WaitOk statusAddr ↔ k.WaitsWell statusAddr := by
  constructor
  · intro h
    cases hfind : k.zombieChild with
    | none =>
      refine Or.inl (h.noChild ?_)
      rw [wait_of_none hfind]
    | some c =>
      have hfirst := zombieChild_eq_some.mp hfind
      have hpid : (k.wait statusAddr).2 = (k.procTable c).pid := by rw [wait_of_zombieChild hfind]
      have hne : (k.wait statusAddr).2 ≠ -1 := fun hminus =>
        h.noChild hminus c ⟨hfirst.1.1, by rw [hfirst.1.2]; decide⟩
      obtain ⟨c', -, -, hstores⟩ := h.reaps hne
      refine Or.inr ⟨fun hzero => ?_, c, hfirst, hpid ▸ hne⟩
      -- the store is executed, address or not
      rw [if_pos hzero, waitStores, hfind] at hstores
      cases hstores
  · rintro (hnone | ⟨haddr, c, hfirst, hpid⟩)
    · have hfind : k.zombieChild = none := zombieChild_eq_none.mpr fun i hi =>
        hnone i ⟨hi.1, by rw [hi.2]; decide⟩
      have hwait : (k.wait statusAddr).2 = -1 := by rw [wait_of_none hfind]
      exact ⟨fun _ => hnone, fun hne => absurd hwait hne⟩
    · have hfind := zombieChild_eq_some.mpr hfirst
      have hwait : (k.wait statusAddr).2 = (k.procTable c).pid := by
        rw [wait_of_zombieChild hfind]
      refine ⟨fun hminus => absurd (hwait.symm.trans hminus) hpid, fun _ => ?_⟩
      refine ⟨c, reaps_of_zombieChild hfind, hwait, ?_⟩
      rw [if_neg haddr, waitStores, hfind, Option.elim_some]

/-- `sys_wait`, which passes no address, keeps it for a caller without children only. -/
theorem waitOk_zero_iff (k : Kernel) : k.WaitOk 0 ↔ ∀ i, ¬ k.IsChild i := by
  rw [waitOk_iff, WaitsWell]
  exact or_iff_left fun h => h.1 rfl

/-- Process 0 with its child 1, which is in state `st`. -/
def parentAndChild (st : ProcState) : Kernel where
  vm := .boot 0x80020000 fun _ => 0
  procTable i :=
    if i.val = 0 then { Proc.zero with state := .running, pid := 1 }
    else if i.val = 1 then { Proc.zero with state := st, pid := 2, parent := some ⟨0, by decide⟩ }
    else .zero
  currentProcess := some ⟨0, by decide⟩
  nextPid := 3
  currentIndex := ⟨0, by decide⟩

/-- The parent calls `wait` while its child is runnable: -1, and the child has still to exit. -/
theorem wait_gives_up : ¬ ∀ (k : Kernel) (statusAddr : Word), k.WaitOk statusAddr := by
  intro h
  have hres : ((parentAndChild .runnable).wait 0xC0010000).2 = -1 := by decide
  exact (h (parentAndChild .runnable) 0xC0010000).noChild hres ⟨1, by decide⟩ ⟨rfl, by decide⟩

end Kernel

end Lithium
