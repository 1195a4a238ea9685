/-
# The kernel in motion

One hart runs the calls of the processes and the loop of `scheduler()`.  A call is one step here,
and so is one pass of the loop; `scheduler()` never returns, so `yield` and `sleep` end in the
loop, and `context_switch` resumes a process in the loop it was switched out of.

Section 2 is `kernel_main` up to its call of `scheduler()`.
-/
import Lithium.Lib.Transition
import Lithium.Mem.KernelMap
import Lithium.Proc.Process

namespace Lithium

/-! ## 1. Steps -/

/-- A pass of the loop of `scheduler()`, or a call by the code that runs: the current process, or
a trap handler on its stack. -/
inductive KernelOp where
  | scan
  | yield
  | sleep
  | wakeup
  | fork
  | exit (status : BitVec 32)
  | wait (statusAddr : Word)

/-- The kernel, and whether the code that runs is in the loop of `scheduler()`. -/
structure Machine where
  kernel : Kernel
  inScheduler : Bool

namespace Machine

/-- One step.  A dispatched process goes on where it was switched out, that is in the loop; one
that never was jumps to address 0. -/
def step (m : Machine) : KernelOp → Option Machine
  | .scan =>
    if m.inScheduler then
      let i := m.kernel.currentIndex
      let k := m.kernel.advance
      if (k.procTable i).state = .runnable then
        some ⟨k.dispatch i, ((k.dispatch i).procTable i).context = .inScheduler⟩
      else some ⟨k, true⟩
    else none
  | .yield => some ⟨m.kernel.yield, true⟩
  | .sleep => if m.kernel.currentProcess = none then some m else some ⟨m.kernel.sleep, true⟩
  | .wakeup => some { m with kernel := m.kernel.wakeup }
  | .fork => some { m with kernel := m.kernel.fork.1 }
  | .exit status =>
    if m.kernel.currentProcess = none then some m else some ⟨m.kernel.exit status, false⟩
  | .wait statusAddr => some { m with kernel := (m.kernel.wait statusAddr).1 }

/-- What a step does: one case for each way through the code. -/
inductive StepTo (m : Machine) : KernelOp → Machine → Prop
  | dispatched (b : Bool)
      (hrun : (m.kernel.procTable m.kernel.currentIndex).state = .runnable) :
      StepTo m .scan ⟨m.kernel.advance.dispatch m.kernel.currentIndex, b⟩
  | passed (b : Bool)
      (hrun : (m.kernel.procTable m.kernel.currentIndex).state ≠ .runnable) :
      StepTo m .scan ⟨m.kernel.advance, b⟩
  | yielded (b : Bool) : StepTo m .yield ⟨m.kernel.yield, b⟩
  | slept (b : Bool) : StepTo m .sleep ⟨m.kernel.sleep, b⟩
  | notSlept : StepTo m .sleep m
  | woken : StepTo m .wakeup { m with kernel := m.kernel.wakeup }
  | forked : StepTo m .fork { m with kernel := m.kernel.fork.1 }
  | exited (status : BitVec 32) (b : Bool) : StepTo m (.exit status) ⟨m.kernel.exit status, b⟩
  | notExited (status : BitVec 32) : StepTo m (.exit status) m
  | waited (statusAddr : Word) :
      StepTo m (.wait statusAddr) { m with kernel := (m.kernel.wait statusAddr).1 }

theorem step_to {m m' : Machine} {op : KernelOp} (hs : m.step op = some m') : StepTo m op m' := by
  cases op with
  | scan =>
    rw [step, Option.ite_none_right_eq_some] at hs
    obtain ⟨-, hs⟩ := hs
    dsimp only at hs
    split at hs <;> rw [Option.some.injEq] at hs
    case isTrue hrun => exact hs ▸ .dispatched _ hrun
    case isFalse hrun => exact hs ▸ .passed _ hrun
  | yield => exact Option.some.inj hs ▸ .yielded _
  | sleep =>
    rw [step] at hs
    split at hs <;> rw [Option.some.injEq] at hs
    · exact hs ▸ .notSlept
    · exact hs ▸ .slept _
  | wakeup => exact Option.some.inj hs ▸ .woken
  | fork => exact Option.some.inj hs ▸ .forked
  | exit status =>
    rw [step] at hs
    split at hs <;> rw [Option.some.injEq] at hs
    · exact hs ▸ .notExited status
    · exact hs ▸ .exited status _
  | wait statusAddr => exact Option.some.inj hs ▸ .waited statusAddr

end Machine

/-! ## 2. `kernel_main` -/

namespace Kernel

/-- Before `proc_init`: the globals are those of `.bss`, but for `next_pid`. -/
def fresh (vm : Vm) : Kernel :=
  { vm := vm, procTable := fun _ => .zero, currentProcess := none, nextPid := 1,
    currentIndex := 0 }

/-- The test of the allocator in `kernel_main`. -/
def testAllocator (vm : Vm) : Vm :=
  let page1 := vm.phys.allocPage
  let page2 := page1.1.allocPage
  { vm with phys := page2.1.freePage page1.2 }

/-- Memory when `kernel_main` calls `proc_init`. -/
def memoryTested (kend : Word) (mem : Word → Word) : Vm :=
  testAllocator ((Vm.boot kend mem).pagingInit kend).1

/-- `kernel_main`, with `status` at `statusAddr`, up to its call of `scheduler()`; `none` if it
does not get there. -/
def kernelMain (kend : Word) (mem : Word → Word) (statusAddr : Word) : Option Kernel :=
  let k := (fresh (memoryTested kend mem)).procInit
  let (k, pid) := k.fork
  if pid = 0 then none
  else if BitVec.slt 0 pid then some (k.wait statusAddr).1
  else some k

/-! ## 3. With enough pages -/

theorem finRange_nproc : List.finRange nproc = 0 :: 1 :: (List.finRange nproc).drop 2 := by
  decide

/-- Process `i` of `k'` is new and runnable, with a page table, on three pages of `k`. -/
structure Spawned (k : Kernel) (i : ProcRef) (k' : Kernel) : Prop where
  state : (k'.procTable i).state = .runnable
  table : (k'.procTable i).pagetable ≠ 0
  others : ∀ j, j ≠ i → (k'.procTable j).state = (k.procTable j).state
  free : k'.vm.phys.numFree + 3 = k.vm.phys.numFree
  keeps : k.vm.Keeps k'.vm
  index : k'.currentIndex = k.currentIndex

/-- The three allocations of `proc_init` and of `fork`, when none of them fails. -/
theorem spawn {k : Kernel} {i : ProcRef} (h : 3 ≤ k.vm.phys.numFree) (parent : Option ProcRef) :
    ∃ k₁ k₂ k₃, k.giveStack i = (k₁, true) ∧ k₁.giveTrapframe i = (k₂, true) ∧
      ((parent.elim k₂ fun j => k₂.inheritTrapframe j i).giveTable i) = (k₃, true) ∧
      k₃.currentProcess = k.currentProcess ∧ k₃.nextPid = k.nextPid ∧
      (k₃.procTable i).pid = (k.procTable i).pid ∧
      Spawned k i (k₃.modify i fun p => { p with state := .runnable }) := by
  rcases k.giveStack_cases i with ⟨-, hzero⟩ | ⟨f₁, hf₁, hfree₁, hrun₁⟩
  · omega
  have hnum₁ := Physmem.numFree_markPageAllocated hf₁ hfree₁
  set k₁ := Kernel.modify { k with vm := { k.vm with phys := k.vm.phys.markPageAllocated f₁ } } i
    fun p => { p with kstack := physToVirt (pageAddr f₁) + pageSize } with hk₁
  have hphys₁ : k₁.vm.phys = k.vm.phys.markPageAllocated f₁ := rfl
  have hkeeps₁ : k.vm.Keeps k₁.vm := .take hphys₁ hfree₁ ⟨rfl, rfl, rfl⟩ fun _ _ _ _ _ => rfl
  rw [← hphys₁] at hnum₁
  rcases k₁.giveTrapframe_cases i with ⟨-, hzero⟩ | ⟨f₂, hf₂, hfree₂, hrun₂⟩
  · omega
  have hnum₂ := Physmem.numFree_markPageAllocated hf₂ hfree₂
  set k₂ := Kernel.modify { k₁ with vm := { k₁.vm with phys := k₁.vm.phys.markPageAllocated f₂ } } i
    fun p => { p with trapframe := physToVirt (pageAddr f₂) } with hk₂
  have hphys₂ : k₂.vm.phys = k₁.vm.phys.markPageAllocated f₂ := rfl
  rw [← hphys₂] at hnum₂
  obtain ⟨vm', hinherit, hphys', hregs', hword'⟩ : ∃ vm', (parent.elim k₂
      fun j => k₂.inheritTrapframe j i) = { k₂ with vm := vm' } ∧ vm'.phys = k₂.vm.phys ∧
      k₂.vm.SameRegs vm' ∧
      ∀ g n, g < numPages → n < 512 → g ≠ f₂ → vm'.word g n = k₂.vm.word g n := by
    cases parent with
    | none => exact ⟨k₂.vm, rfl, rfl, Vm.SameRegs.refl _, fun _ _ _ _ _ => rfl⟩
    | some j =>
      obtain ⟨vm', heq, hphys, hregs, hword⟩ := k₂.inheritTrapframe_eq j i
      have hdest : Designates (k₂.procTable i).trapframe f₂ := by
        rw [hk₂, modify_self]
        exact resolve_physToVirt hf₂
      exact ⟨vm', heq, hphys, hregs, hword f₂ hdest hf₂⟩
  have hkeeps₂ : k₁.vm.Keeps vm' :=
    .take (hphys'.trans hphys₂) hfree₂
      ⟨hregs'.kernelPagetable, hregs'.pagingActive, hregs'.satp⟩ hword'
  rw [← hphys'] at hnum₂
  rcases ({ k₂ with vm := vm' } : Kernel).giveTable_cases i with
    ⟨-, hzero⟩ | ⟨vm₃, r, hr, hfree₃, hphys₃, hregs₃, hword₃, hrun₃⟩
  · change vm'.phys.numFree = 0 at hzero
    omega
  have hnum₃ := Physmem.numFree_markPageAllocated hr hfree₃
  change (vm'.phys.markPageAllocated r).numFree + 1 = vm'.phys.numFree at hnum₃
  change vm₃.phys = vm'.phys.markPageAllocated r at hphys₃
  have hkeeps₃ : vm'.Keeps vm₃ :=
    .take hphys₃ hfree₃ hregs₃ fun f n hf hn hne => (hword₃ f n hf hn).trans (if_neg hne)
  rw [← hphys₃] at hnum₃
  refine ⟨k₁, k₂, _, hrun₁, hrun₂,
    (congrArg (fun k => Kernel.giveTable k i) hinherit).trans hrun₃, rfl, rfl, ?_, ?_, ?_, ?_, ?_,
    (hkeeps₁.trans hkeeps₂).trans hkeeps₃, rfl⟩
  · simp [hk₁, hk₂]
  · simp
  · simpa using (vm'.designates_helper hr).ne_zero hr
  · intro j hj
    simp [modify_of_ne _ _ _ hj, hk₁, hk₂]
  · simp only [modify_vm]
    omega

/-- **`proc_init`**, with three pages free: `init` is entry 0. -/
theorem procInit_spawned {k : Kernel} (h : 3 ≤ k.vm.phys.numFree) :
    Spawned { k with procTable := fun i => { k.procTable i with state := .unused } } 0 k.procInit ∧
      k.procInit.currentProcess = some 0 ∧ k.procInit.nextPid = k.nextPid + 1 := by
  set k₀ : Kernel := { k with procTable := fun i => { k.procTable i with state := .unused } }
    with hk₀
  have halloc : k₀.allocProc = (k₀.claimProc 0, some 0) := by
    rw [allocProc, finRange_nproc, List.find?_cons_of_pos (by rfl)]
  obtain ⟨k₁, k₂, k₃, hrun₁, hrun₂, hrun₃, -, hpid, -, hspawn⟩ :=
    spawn (k := k₀.claimProc 0) (i := 0) h none
  have hrun : k.procInit = { k₃.modify 0 fun p => { p with state := .runnable } with
      currentProcess := some 0 } := by
    unfold procInit
    dsimp only
    rw [← hk₀, halloc]
    dsimp only
    rw [hrun₁]
    dsimp only
    rw [hrun₂]
    dsimp only
    rw [Option.elim] at hrun₃
    rw [hrun₃]
  rw [hrun]
  refine ⟨⟨hspawn.state, hspawn.table, ?_, hspawn.free, hspawn.keeps, hspawn.index⟩, rfl, hpid⟩
  intro j hj
  rw [hspawn.others j hj, claimProc_of_ne _ hj]

/-- **`fork`** of process 0 into the free entry 1, with three pages free. -/
theorem fork_spawned {k : Kernel} (h : 3 ≤ k.vm.phys.numFree) (hcur : k.currentProcess = some 0)
    (h₀ : (k.procTable 0).state ≠ .unused) (h₁ : (k.procTable 1).state = .unused) :
    Spawned k 1 k.fork.1 ∧ k.fork.1.currentProcess = some 0 ∧ k.fork.2 = k.nextPid := by
  have halloc : k.allocProc = (k.claimProc 1, some 1) := by
    rw [allocProc, finRange_nproc, List.find?_cons_of_neg (by simpa using h₀),
      List.find?_cons_of_pos (by simpa using h₁)]
  obtain ⟨k₁, k₂, k₃, hrun₁, hrun₂, hrun₃, hcur', -, hpid, hspawn⟩ :=
    spawn (k := (k.claimProc 1).modify 1 fun p => { p with
      parent := some 0
      sz := ((k.claimProc 1).procTable 0).sz }) (i := 1) h (some 0)
  have hrun : k.fork = (k₃.modify 1 fun p => { p with state := .runnable },
      (k₃.procTable 1).pid) := by
    unfold fork
    rw [hcur]
    dsimp only
    rw [halloc]
    dsimp only
    rw [hrun₁]
    dsimp only
    rw [hrun₂]
    dsimp only
    rw [Option.elim] at hrun₃
    rw [hrun₃]
    simp
  rw [hrun]
  refine ⟨⟨hspawn.state, hspawn.table, ?_, hspawn.free, hspawn.keeps, hspawn.index⟩,
    hcur'.trans hcur, ?_⟩
  · intro j hj
    rw [hspawn.others j hj, modify_of_ne _ _ _ hj, claimProc_of_ne _ hj]
  · rw [hpid]
    simp [claimProc]

/-- `wait` without a zombie changes nothing. -/
theorem wait_of_no_zombie {k : Kernel} (h : ∀ i, (k.procTable i).state ≠ .zombie)
    (statusAddr : Word) : k.wait statusAddr = (k, -1) := by
  have hnone : ((List.finRange nproc).find? fun i =>
      (k.procTable i).parent == k.currentProcess && (k.procTable i).state == .zombie) = none := by
    rw [List.find?_eq_none]
    intro i _
    simp [h i]
  rw [wait, hnone]

/-- The test of the allocator keeps all pages but one or two. -/
theorem numFree_le_testAllocator (vm : Vm) :
    vm.phys.numFree ≤ (testAllocator vm).phys.numFree + 2 := by
  have h₁ := vm.phys.numFree_le_allocPage
  have h₂ := vm.phys.allocPage.1.numFree_le_allocPage
  have h₃ := vm.phys.allocPage.1.allocPage.1.numFree_le_freePage vm.phys.allocPage.2
  unfold testAllocator
  dsimp only
  omega

/-- **`kernel_main`** calls `scheduler()` with the two runnable processes 0 and 1, of which 0 is
current, when six pages are left after `paging_init` and the test. -/
theorem kernelMain_two {kend : Word} {mem : Word → Word}
    (h : 6 ≤ (memoryTested kend mem).phys.numFree) (statusAddr : Word) :
    ∃ k, kernelMain kend mem statusAddr = some k ∧ (k.procTable 0).state = .runnable ∧
      (k.procTable 1).state = .runnable ∧ k.currentProcess = some 0 ∧ k.currentIndex = 0 := by
  obtain ⟨hinit, hcur, hpid⟩ := procInit_spawned (k := fresh (memoryTested kend mem))
    (Nat.le_trans (by omega) h)
  set k₁ := (fresh (memoryTested kend mem)).procInit with hk₁
  have hfree : k₁.vm.phys.numFree + 3 = (memoryTested kend mem).phys.numFree := hinit.free
  have hone : (k₁.procTable 1).state = .unused := hinit.others 1 (by decide)
  obtain ⟨hfork, hcur', hchild⟩ := fork_spawned (k := k₁) (by omega) hcur
    (by rw [hinit.state]; simp) hone
  have hnext : k₁.fork.2 = 2 := by
    rw [hchild, hpid]
    rfl
  have hzero : (k₁.fork.1.procTable 0).state = .runnable := by
    rw [hfork.others 0 (by decide), hinit.state]
  have hzombie : ∀ i, (k₁.fork.1.procTable i).state ≠ .zombie := by
    intro i
    by_cases h₁ : i = 1
    · rw [h₁, hfork.state]
      simp
    · rw [hfork.others i h₁]
      by_cases h₀ : i = 0
      · rw [h₀, hinit.state]
        simp
      · rw [hinit.others i h₀]
        simp
  refine ⟨k₁.fork.1, ?_, hzero, hfork.state, hcur', ?_⟩
  · unfold kernelMain
    dsimp only
    rw [← hk₁, hnext, if_neg (by decide), if_pos (by decide), wait_of_no_zombie hzombie]
  · rw [hfork.index, hinit.index]
    rfl

/-- A kernel image of 32 pages leaves room enough. -/
theorem memoryTested_room (mem : Word → Word) :
    6 ≤ (memoryTested 0x80020000 mem).phys.numFree := by
  obtain ⟨vm', ok, hrun, hprog, hok⟩ :=
    Vm.pagingInit_spec 0x80020000 (Vm.boot 0x80020000 mem)
  have hboot := Vm.boot_numFree mem
  obtain ⟨-, -, -, -, -, hfree, -⟩ := hok (hprog (by omega))
  have htest := numFree_le_testAllocator vm'
  rw [memoryTested, hrun]
  dsimp only
  omega

end Kernel

end Lithium
