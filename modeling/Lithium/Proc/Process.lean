/-
# Processes

`process.c`, `control.c` and `scheduler.c`: the process table and the functions on it.  The
functions that never return, `scheduler` and the end of `exit`, are given here up to the point
where they start to loop; `Machine` runs the loops.
-/
import Lithium.Mem.PageTree
import Lithium.Param
import Mathlib.Data.List.FinRange

namespace Lithium

/-! ## 1. `process.h` and `globals.h` -/

/-- `enum proc_state`. -/
inductive ProcState where
  | unused
  | used
  | sleeping
  | runnable
  | running
  | zombie
  deriving DecidableEq

/-- `struct context`: zeros, or what `context_switch` saved; it is called by `scheduler` only, so
the saved `ra` is always the point behind the call. -/
inductive Context where
  | zero
  | inScheduler
  deriving DecidableEq

/-- An entry of `proc_table`, by its index. -/
abbrev ProcRef := Fin nproc

/-- `struct proc`, without the name for debugging; 0 is `NULL`, and no `parent` is `NULL`. -/
structure Proc where
  state : ProcState
  pid : Pid
  parent : Option ProcRef
  pagetable : Word
  sz : Word
  kstack : Word
  trapframe : Word
  context : Context
  exitCode : BitVec 32

/-- An entry of `.bss`. -/
def Proc.zero : Proc :=
  { state := .unused, pid := 0, parent := none, pagetable := 0, sz := 0, kstack := 0,
    trapframe := 0, context := .zero, exitCode := 0 }

/-- Memory and the globals of `process.c` and `scheduler.c`. -/
structure Kernel where
  vm : Vm
  procTable : ProcRef → Proc
  currentProcess : Option ProcRef
  nextPid : Pid
  currentIndex : ProcRef

namespace Kernel

/-- An assignment to fields of `proc_table[i]`. -/
def modify (k : Kernel) (i : ProcRef) (f : Proc → Proc) : Kernel :=
  { k with procTable := Function.update k.procTable i (f (k.procTable i)) }

/-- `free_physical_page`. -/
def freePage (k : Kernel) (phys : Word) : Kernel :=
  { k with vm := { k.vm with phys := k.vm.phys.freePage phys } }

/-! ## 2. `process.c` -/

/-- What `alloc_proc` does to the free entry it has found. -/
def claimProc (k : Kernel) (i : ProcRef) : Kernel :=
  { k.modify i fun p => { p with
      state := .used
      pid := k.nextPid
      parent := none
      pagetable := 0
      sz := 0
      kstack := 0
      trapframe := 0
      exitCode := 0 } with
    nextPid := k.nextPid + 1 }

/-- `alloc_proc`; `none` is `NULL`. -/
def allocProc (k : Kernel) : Kernel × Option ProcRef :=
  match (List.finRange nproc).find? fun i => (k.procTable i).state == .unused with
  | none => (k, none)
  | some i => (k.claimProc i, some i)

/-- The page table of `free_proc`. -/
def freeProcTable (k : Kernel) (i : ProcRef) : Kernel :=
  if (k.procTable i).pagetable ≠ 0 then
    { k with vm := k.vm.freePageTable (k.procTable i).pagetable }.modify i
      fun p => { p with pagetable := 0 }
  else k

/-- The kernel stack of `free_proc`. -/
def freeProcStack (k : Kernel) (i : ProcRef) : Kernel :=
  if (k.procTable i).kstack ≠ 0 then
    (k.freePage (virtToPhys ((k.procTable i).kstack - pageSize))).modify i
      fun p => { p with kstack := 0 }
  else k

/-- The trapframe of `free_proc`. -/
def freeProcTrapframe (k : Kernel) (i : ProcRef) : Kernel :=
  if (k.procTable i).trapframe ≠ 0 then
    (k.freePage (virtToPhys (k.procTable i).trapframe)).modify i
      fun p => { p with trapframe := 0 }
  else k

/-- `free_proc`. -/
def freeProc (k : Kernel) (i : ProcRef) : Kernel :=
  (((k.freeProcTable i).freeProcStack i).freeProcTrapframe i).modify i
    fun p => { p with state := .unused }

/-- `proc_init` and `fork`: a kernel stack for process `i`; the flag says that there was a page. -/
def giveStack (k : Kernel) (i : ProcRef) : Kernel × Bool :=
  let (phys, kstackPage) := k.vm.phys.allocPage
  let k := { k with vm := { k.vm with phys := phys } }
  if kstackPage = 0 then (k, false)
  else (k.modify i fun p => { p with kstack := physToVirt kstackPage + pageSize }, true)

/-- `proc_init` and `fork`: a trapframe for process `i`. -/
def giveTrapframe (k : Kernel) (i : ProcRef) : Kernel × Bool :=
  let (phys, trapframePage) := k.vm.phys.allocPage
  let k := { k with vm := { k.vm with phys := phys } }
  if trapframePage = 0 then (k, false)
  else (k.modify i fun p => { p with trapframe := physToVirt trapframePage }, true)

/-- `proc_init` and `fork`: a page table for process `i`. -/
def giveTable (k : Kernel) (i : ProcRef) : Kernel × Bool :=
  let (vm, table) := k.vm.createPageTable
  let k := { k with vm := vm }.modify i fun p => { p with pagetable := table }
  if table = 0 then (k, false) else (k, true)

/-- `proc_init`. -/
def procInit (k : Kernel) : Kernel :=
  let k := { k with procTable := fun i => { k.procTable i with state := .unused } }
  match k.allocProc with
  | (k, none) => k
  | (k, some init) =>
    match k.giveStack init with
    | (k, false) => k
    | (k, true) =>
      match k.giveTrapframe init with
      | (k, false) => k
      | (k, true) =>
        match k.giveTable init with
        | (k, false) => k
        | (k, true) =>
          { k.modify init fun p => { p with state := .runnable } with currentProcess := some init }

/-! ## 3. `control.c` -/

/-- `copy_trapframe`: the 36 fields, one after the other. -/
def copyTrapframe (vm : Vm) (dest src : Word) : Vm :=
  if dest = 0 ∨ src = 0 then vm
  else
    (List.range 36).foldl (fun vm n =>
      vm.store (Vm.entryPtr dest (BitVec.ofNat 64 n))
        (vm.load (Vm.entryPtr src (BitVec.ofNat 64 n)))) vm

/-- `fork`: the trapframe of the child is the one of the parent, but for `a0`, the field 14. -/
def inheritTrapframe (k : Kernel) (parent child : ProcRef) : Kernel :=
  if (k.procTable parent).trapframe ≠ 0 then
    let dest := (k.procTable child).trapframe
    let vm := copyTrapframe k.vm dest (k.procTable parent).trapframe
    { k with vm := vm.store (Vm.entryPtr dest 14) 0 }
  else k

/-- `fork`. -/
def fork (k : Kernel) : Kernel × Pid :=
  match k.currentProcess with
  | none => (k, -1)
  | some parent =>
    match k.allocProc with
    | (k, none) => (k, -1)
    | (k, some child) =>
      let k := k.modify child fun p => { p with
        parent := some parent
        sz := (k.procTable parent).sz }
      match k.giveStack child with
      | (k, false) => (k.freeProc child, -1)
      | (k, true) =>
        match k.giveTrapframe child with
        | (k, false) => (k.freeProc child, -1)
        | (k, true) =>
          match (k.inheritTrapframe parent child).giveTable child with
          | (k, false) => (k.freeProc child, -1)
          | (k, true) =>
            let k := k.modify child fun p => { p with state := .runnable }
            (k, (k.procTable child).pid)

/-- `wakeup`; it does not look at the channel. -/
def wakeup (k : Kernel) : Kernel :=
  { k with procTable := fun i =>
      if (k.procTable i).state = .sleeping then { k.procTable i with state := .runnable }
      else k.procTable i }

/-- `exit`, up to its last loop. -/
def exit (k : Kernel) (status : BitVec 32) : Kernel :=
  match k.currentProcess with
  | none => k
  | some i =>
    let k := k.modify i fun p => { p with exitCode := status, state := .zombie }
    if (k.procTable i).parent ≠ none then k.wakeup else k

/-- `*(int*)ptr = v`: half of the word that holds `ptr`. -/
def storeInt (vm : Vm) (ptr : Word) (v : BitVec 32) : Vm :=
  let base := ptr &&& ~~~7
  let old := vm.load base
  if ptr &&& 4 = 0 then vm.store base ((old &&& ~~~0xFFFFFFFF) ||| v.setWidth 64)
  else vm.store base ((old &&& 0xFFFFFFFF) ||| (v.setWidth 64 <<< 32))

/-- `wait`. -/
def wait (k : Kernel) (statusAddr : Word) : Kernel × Pid :=
  match (List.finRange nproc).find? fun i =>
      (k.procTable i).parent == k.currentProcess && (k.procTable i).state == .zombie with
  | none => (k, -1)
  | some child =>
    let pid := (k.procTable child).pid
    let k := { k with vm := storeInt k.vm statusAddr (k.procTable child).exitCode }
    (k.freeProc child, pid)

/-- `sleep`, up to its call of `scheduler`. -/
def sleep (k : Kernel) : Kernel :=
  match k.currentProcess with
  | none => k
  | some i => k.modify i fun p => { p with state := .sleeping }

/-! ## 4. `scheduler.c` -/

/-- `yield`, up to its call of `scheduler`. -/
def yield (k : Kernel) : Kernel :=
  match k.currentProcess with
  | none => k
  | some i =>
    if (k.procTable i).state = .running then k.modify i fun p => { p with state := .runnable }
    else k

/-- What `scheduler` does when it has found the runnable process `i`, up to the point where
`context_switch` loads the context of `i`. -/
def dispatch (k : Kernel) (i : ProcRef) : Kernel :=
  let prev := k.currentProcess
  let k := { k with currentProcess := some i }.modify i fun p => { p with state := .running }
  let k :=
    if (k.procTable i).pagetable ≠ 0 then
      { k with vm := k.vm.switchPageTable (k.procTable i).pagetable }
    else k
  match prev with
  | none => k
  | some j => k.modify j fun p => { p with context := .inScheduler }

/-- `current_index = (current_index + 1) % NPROC`. -/
def advance (k : Kernel) : Kernel := { k with currentIndex := k.currentIndex + 1 }

/-! ## 5. Rules -/

section Modify

variable (k : Kernel) (i : ProcRef) (f : Proc → Proc)

@[simp] theorem modify_vm : (k.modify i f).vm = k.vm := rfl

@[simp] theorem modify_currentProcess : (k.modify i f).currentProcess = k.currentProcess := rfl

@[simp] theorem modify_nextPid : (k.modify i f).nextPid = k.nextPid := rfl

@[simp] theorem modify_currentIndex : (k.modify i f).currentIndex = k.currentIndex := rfl

@[simp] theorem modify_self : (k.modify i f).procTable i = f (k.procTable i) :=
  Function.update_self _ _ _

theorem modify_of_ne {j : ProcRef} (h : j ≠ i) : (k.modify i f).procTable j = k.procTable j :=
  Function.update_of_ne h _ _

/-- What an assignment to another field says about the field `g` of all processes. -/
theorem modify_field {α : Type*} (g : Proc → α) (h : ∀ p, g (f p) = g p) (j : ProcRef) :
    g ((k.modify i f).procTable j) = g (k.procTable j) := by
  by_cases hj : j = i
  · rw [hj, modify_self, h]
  · rw [modify_of_ne _ _ _ hj]

end Modify

theorem claimProc_of_ne (k : Kernel) {i j : ProcRef} (h : j ≠ i) :
    (k.claimProc i).procTable j = k.procTable j := by
  unfold claimProc
  dsimp only
  exact modify_of_ne k i _ h

theorem claimProc_parent (k : Kernel) (i : ProcRef) :
    ((k.claimProc i).procTable i).parent = none := by
  unfold claimProc
  dsimp only
  rw [modify_self]

/-- `alloc_proc` takes the first free entry. -/
theorem allocProc_cases (k : Kernel) :
    ((∀ i, (k.procTable i).state ≠ .unused) ∧ k.allocProc = (k, none)) ∨
    ∃ i, (k.procTable i).state = .unused ∧ k.allocProc = (k.claimProc i, some i) := by
  unfold allocProc
  cases hfind : (List.finRange nproc).find? fun i => (k.procTable i).state == .unused with
  | none =>
    refine Or.inl ⟨?_, rfl⟩
    intro i hi
    have := List.find?_eq_none.mp hfind i (List.mem_finRange i)
    simp [hi] at this
  | some i =>
    refine Or.inr ⟨i, ?_, rfl⟩
    simpa using List.find?_some hfind

/-- A kernel stack, if a page is free. -/
theorem giveStack_cases (k : Kernel) (i : ProcRef) :
    (k.giveStack i = (k, false) ∧ k.vm.phys.numFree = 0) ∨
    ∃ f, f < numPages ∧ k.vm.phys.isPageFree f = true ∧
      k.giveStack i = ({ k with vm := { k.vm with phys := k.vm.phys.markPageAllocated f } }.modify i
        fun p => { p with kstack := physToVirt (pageAddr f) + pageSize }, true) := by
  rcases k.vm.phys.allocPage_cases with ⟨halloc, hzero⟩ | ⟨f, hf, hfree, halloc⟩
  · refine Or.inl ⟨?_, hzero⟩
    rw [giveStack, halloc]
    rfl
  · refine Or.inr ⟨f, hf, hfree, ?_⟩
    rw [giveStack, halloc]
    exact if_neg (pageAddr_ne_zero hf)

/-- A trapframe, if a page is free. -/
theorem giveTrapframe_cases (k : Kernel) (i : ProcRef) :
    (k.giveTrapframe i = (k, false) ∧ k.vm.phys.numFree = 0) ∨
    ∃ f, f < numPages ∧ k.vm.phys.isPageFree f = true ∧
      k.giveTrapframe i =
        ({ k with vm := { k.vm with phys := k.vm.phys.markPageAllocated f } }.modify i
          fun p => { p with trapframe := physToVirt (pageAddr f) }, true) := by
  rcases k.vm.phys.allocPage_cases with ⟨halloc, hzero⟩ | ⟨f, hf, hfree, halloc⟩
  · refine Or.inl ⟨?_, hzero⟩
    rw [giveTrapframe, halloc]
    rfl
  · refine Or.inr ⟨f, hf, hfree, ?_⟩
    rw [giveTrapframe, halloc]
    exact if_neg (pageAddr_ne_zero hf)

/-- A page table, if a page is free. -/
theorem giveTable_cases (k : Kernel) (i : ProcRef) :
    (k.giveTable i = (k.modify i fun p => { p with pagetable := 0 }, false) ∧
      k.vm.phys.numFree = 0) ∨
    ∃ vm' r, r < numPages ∧ k.vm.phys.isPageFree r = true ∧
      vm'.phys = k.vm.phys.markPageAllocated r ∧ k.vm.SameRegs vm' ∧
      (∀ f n, f < numPages → n < 512 → vm'.word f n = if f = r then 0 else k.vm.word f n) ∧
      k.giveTable i = ({ k with vm := vm' }.modify i
        fun p => { p with pagetable := k.vm.physToVirtHelper (pageAddr r) }, true) := by
  rcases k.vm.createPageTable_cases with ⟨hcreate, hzero⟩ |
    ⟨vm', r, hcreate, hr, hfree, hphys, hregs, hword⟩
  · refine Or.inl ⟨?_, hzero⟩
    rw [giveTable, hcreate]
    exact if_pos rfl
  · refine Or.inr ⟨vm', r, hr, hfree, hphys, hregs, hword, ?_⟩
    rw [giveTable, hcreate]
    exact if_neg ((k.vm.designates_helper hr).ne_zero hr)

section Given

variable {c : ProcRef} {k k' : Kernel}

/-- A kernel stack has been given: a free page is its. -/
theorem giveStack_true (hrun : k.giveStack c = (k', true)) :
    ∃ f, f < numPages ∧ k.vm.phys.isPageFree f = true ∧
      k' = { k with vm := { k.vm with phys := k.vm.phys.markPageAllocated f } }.modify c
        fun p => { p with kstack := physToVirt (pageAddr f) + pageSize } := by
  rcases k.giveStack_cases c with ⟨hfail, -⟩ | ⟨f, hf, hfree, hgive⟩
  · cases hrun.symm.trans hfail
  · exact ⟨f, hf, hfree, (Prod.mk.inj (hrun.symm.trans hgive)).1⟩

theorem giveTrapframe_true (hrun : k.giveTrapframe c = (k', true)) :
    ∃ f, f < numPages ∧ k.vm.phys.isPageFree f = true ∧
      k' = { k with vm := { k.vm with phys := k.vm.phys.markPageAllocated f } }.modify c
        fun p => { p with trapframe := physToVirt (pageAddr f) } := by
  rcases k.giveTrapframe_cases c with ⟨hfail, -⟩ | ⟨f, hf, hfree, hgive⟩
  · cases hrun.symm.trans hfail
  · exact ⟨f, hf, hfree, (Prod.mk.inj (hrun.symm.trans hgive)).1⟩

theorem giveTable_true (hrun : k.giveTable c = (k', true)) :
    ∃ vm' r, r < numPages ∧ k.vm.phys.isPageFree r = true ∧
      vm'.phys = k.vm.phys.markPageAllocated r ∧ k.vm.SameRegs vm' ∧
      k' = { k with vm := vm' }.modify c
        fun p => { p with pagetable := k.vm.physToVirtHelper (pageAddr r) } := by
  rcases k.giveTable_cases c with ⟨hfail, -⟩ | ⟨vm', r, hr, hfree, hphys, hregs, -, hgive⟩
  · cases hrun.symm.trans hfail
  · exact ⟨vm', r, hr, hfree, hphys, hregs, (Prod.mk.inj (hrun.symm.trans hgive)).1⟩

theorem giveTable_false (hrun : k.giveTable c = (k', false)) :
    k' = k.modify c fun p => { p with pagetable := 0 } := by
  rcases k.giveTable_cases c with ⟨hfail, -⟩ | ⟨vm', r, -, -, -, -, -, hgive⟩
  · exact (Prod.mk.inj (hrun.symm.trans hfail)).1
  · cases hrun.symm.trans hgive

end Given

section Dispatch

variable (k : Kernel) (i : ProcRef)

@[simp] theorem dispatch_currentProcess : (k.dispatch i).currentProcess = some i := by
  unfold dispatch
  dsimp only
  split <;> split <;> rfl

@[simp] theorem dispatch_currentIndex : (k.dispatch i).currentIndex = k.currentIndex := by
  unfold dispatch
  dsimp only
  split <;> split <;> rfl

/-- The process that runs is saved before it is resumed. -/
theorem dispatch_context_self (h : k.currentProcess = some i) :
    ((k.dispatch i).procTable i).context = .inScheduler := by
  unfold dispatch
  dsimp only
  rw [h]
  dsimp only
  rw [modify_self]

/-- What a dispatch does to the field `g`, when it is not the context. -/
theorem dispatch_field {α : Type*} (g : Proc → α) (h : ∀ p c, g { p with context := c } = g p)
    (j : ProcRef) : g ((k.dispatch i).procTable j) =
      if j = i then g { k.procTable i with state := .running } else g (k.procTable j) := by
  have hmark : ∀ vm, g ((({ k with vm := vm, currentProcess := some i } : Kernel).modify i
      fun p => { p with state := .running }).procTable j)
      = if j = i then g { k.procTable i with state := .running } else g (k.procTable j) := by
    intro vm
    by_cases hj : j = i
    · rw [hj, modify_self, if_pos rfl]
    · rw [modify_of_ne _ _ _ hj, if_neg hj]
  unfold dispatch
  dsimp only
  cases k.currentProcess with
  | none =>
    dsimp only
    split
    · exact hmark _
    · exact hmark k.vm
  | some l =>
    dsimp only
    rw [modify_field _ _ _ g (fun p => h p _)]
    split
    · exact hmark _
    · exact hmark k.vm

theorem dispatch_state (j : ProcRef) : ((k.dispatch i).procTable j).state =
    if j = i then .running else (k.procTable j).state :=
  k.dispatch_field i Proc.state (fun _ _ => rfl) j

end Dispatch

/-- `copy_trapframe` touches the page of `dest` only. -/
theorem copyTrapframe_spec (vm : Vm) (dest src : Word) :
    (copyTrapframe vm dest src).phys = vm.phys ∧ vm.SameRegs (copyTrapframe vm dest src) ∧
      ∀ f, Designates dest f → f < numPages → ∀ g n, g < numPages → n < 512 → g ≠ f →
        (copyTrapframe vm dest src).word g n = vm.word g n := by
  unfold copyTrapframe
  split
  · exact ⟨rfl, Vm.SameRegs.refl vm, fun _ _ _ _ _ _ _ _ => rfl⟩
  · have hlt : ∀ n ∈ List.range 36, n < 512 := fun n hn =>
      Nat.lt_trans (List.mem_range.mp hn) (by decide)
    generalize List.range 36 = ns at hlt
    induction ns generalizing vm with
    | nil => exact ⟨rfl, Vm.SameRegs.refl vm, fun _ _ _ _ _ _ _ _ => rfl⟩
    | cons n ns ih =>
      obtain ⟨hphys, hregs, hword⟩ := ih (vm.store (Vm.entryPtr dest (BitVec.ofNat 64 n))
        (vm.load (Vm.entryPtr src (BitVec.ofNat 64 n))))
        (fun m hm => hlt m (List.mem_cons_of_mem _ hm))
      refine ⟨hphys, ⟨hregs.kernelPagetable, hregs.pagingActive, hregs.satp⟩, ?_⟩
      intro f hd hf g m hg hm hne
      rw [List.foldl_cons, hword f hd hf g m hg hm hne,
        Vm.word_store (hd n (hlt n List.mem_cons_self)) hf (hlt n List.mem_cons_self) _ hg hm,
        if_neg (fun e => hne e.1)]

/-- The copy for the child touches the page of its trapframe only. -/
theorem inheritTrapframe_eq (k : Kernel) (parent child : ProcRef) :
    ∃ vm', k.inheritTrapframe parent child = { k with vm := vm' } ∧ vm'.phys = k.vm.phys ∧
      k.vm.SameRegs vm' ∧ ∀ f, Designates (k.procTable child).trapframe f → f < numPages →
        ∀ g n, g < numPages → n < 512 → g ≠ f → vm'.word g n = k.vm.word g n := by
  unfold inheritTrapframe
  split
  · obtain ⟨hphys, hregs, hword⟩ := copyTrapframe_spec k.vm (k.procTable child).trapframe
      (k.procTable parent).trapframe
    refine ⟨_, rfl, hphys, ⟨hregs.kernelPagetable, hregs.pagingActive, hregs.satp⟩, ?_⟩
    intro f hd hf g n hg hn hne
    have ha0 : resolve (Vm.entryPtr (k.procTable child).trapframe 14) = wordAddr f 14 :=
      hd 14 (by decide)
    rw [Vm.word_store ha0 hf (by decide) _ hg hn, if_neg (fun e => hne e.1),
      hword f hd hf g n hg hn hne]
  · exact ⟨k.vm, rfl, rfl, Vm.SameRegs.refl _, fun _ _ _ _ _ _ _ _ => rfl⟩

/-! ## 6. What the steps on pages leave alone -/

/-- From `k` to `k'` only memory, and the pages that process `c` names, may have changed. -/
def Repaged (c : ProcRef) (k k' : Kernel) : Prop :=
  ∃ vm stack frame table, k' = { k with vm := vm }.modify c fun p =>
    { p with kstack := stack, trapframe := frame, pagetable := table }

namespace Repaged

variable {c : ProcRef} {k k' k'' : Kernel}

/-- A change of memory. -/
theorem vm (c : ProcRef) (k : Kernel) (vm : Vm) : Repaged c k { k with vm := vm } := by
  refine ⟨vm, (k.procTable c).kstack, (k.procTable c).trapframe, (k.procTable c).pagetable, ?_⟩
  exact congrArg (fun t => { k with vm := vm, procTable := t })
    (Function.update_eq_self c k.procTable).symm

theorem refl (c : ProcRef) (k : Kernel) : Repaged c k k := .vm c k k.vm

theorem trans (h : Repaged c k k') (h' : Repaged c k' k'') : Repaged c k k'' := by
  obtain ⟨vm, stack, frame, table, rfl⟩ := h
  obtain ⟨vm', stack', frame', table', rfl⟩ := h'
  refine ⟨vm', stack', frame', table', ?_⟩
  simp only [modify, Function.update_idem, Function.update_self]

theorem currentProcess (h : Repaged c k k') : k'.currentProcess = k.currentProcess := by
  obtain ⟨vm, stack, frame, table, rfl⟩ := h
  rfl

theorem nextPid (h : Repaged c k k') : k'.nextPid = k.nextPid := by
  obtain ⟨vm, stack, frame, table, rfl⟩ := h
  rfl

theorem currentIndex (h : Repaged c k k') : k'.currentIndex = k.currentIndex := by
  obtain ⟨vm, stack, frame, table, rfl⟩ := h
  rfl

theorem others (h : Repaged c k k') {j : ProcRef} (hj : j ≠ c) :
    k'.procTable j = k.procTable j := by
  obtain ⟨vm, stack, frame, table, rfl⟩ := h
  exact modify_of_ne _ c _ hj

/-- Every other field of every process is the same. -/
theorem field {α : Type*} (h : Repaged c k k') (g : Proc → α) (hg : ∀ p stack frame table,
    g { p with kstack := stack, trapframe := frame, pagetable := table } = g p) (j : ProcRef) :
    g (k'.procTable j) = g (k.procTable j) := by
  obtain ⟨vm, stack, frame, table, rfl⟩ := h
  exact modify_field _ c _ g (fun p => hg p stack frame table) j

end Repaged

section Repaged

variable (k : Kernel) (i : ProcRef)

theorem giveStack_repaged : Repaged i k (k.giveStack i).1 := by
  rcases k.giveStack_cases i with ⟨hrun, -⟩ | ⟨f, -, -, hrun⟩ <;> rw [hrun]
  · exact .refl i k
  · exact ⟨_, _, (k.procTable i).trapframe, (k.procTable i).pagetable, rfl⟩

theorem giveTrapframe_repaged : Repaged i k (k.giveTrapframe i).1 := by
  rcases k.giveTrapframe_cases i with ⟨hrun, -⟩ | ⟨f, -, -, hrun⟩ <;> rw [hrun]
  · exact .refl i k
  · exact ⟨_, (k.procTable i).kstack, _, (k.procTable i).pagetable, rfl⟩

theorem giveTable_repaged : Repaged i k (k.giveTable i).1 := by
  rcases k.giveTable_cases i with ⟨hrun, -⟩ | ⟨vm', r, -, -, -, -, -, hrun⟩ <;> rw [hrun] <;>
    exact ⟨_, (k.procTable i).kstack, (k.procTable i).trapframe, _, rfl⟩

theorem inheritTrapframe_repaged (parent : ProcRef) :
    Repaged i k (k.inheritTrapframe parent i) := by
  obtain ⟨vm', heq, -⟩ := k.inheritTrapframe_eq parent i
  rw [heq]
  exact .vm i k vm'

theorem freeProcTable_repaged : Repaged i k (k.freeProcTable i) := by
  unfold freeProcTable
  split
  · exact ⟨_, (k.procTable i).kstack, (k.procTable i).trapframe, 0, rfl⟩
  · exact .refl i k

theorem freeProcStack_repaged : Repaged i k (k.freeProcStack i) := by
  unfold freeProcStack
  split
  · exact ⟨_, 0, (k.procTable i).trapframe, (k.procTable i).pagetable, rfl⟩
  · exact .refl i k

theorem freeProcTrapframe_repaged : Repaged i k (k.freeProcTrapframe i) := by
  unfold freeProcTrapframe
  split
  · exact ⟨_, (k.procTable i).kstack, 0, (k.procTable i).pagetable, rfl⟩
  · exact .refl i k

/-- `free_proc` gives the pages back, and then the entry. -/
theorem freeProc_repaged : ∃ k₁, Repaged i k k₁ ∧
    k.freeProc i = k₁.modify i fun p => { p with state := .unused } :=
  ⟨_, ((k.freeProcTable_repaged i).trans (freeProcStack_repaged _ i)).trans
    (freeProcTrapframe_repaged _ i), rfl⟩

end Repaged

/-! ## 7. What `proc_init` and `fork` keep -/

/-- `Q` is kept by the steps `proc_init` and `fork` are made of. -/
structure KeptBySpawn (Q : Kernel → Prop) : Prop where
  claim : ∀ {k} i, Q k → Q (k.claimProc i)
  adopt : ∀ {k} i parent sz, Q k → Q (k.modify i fun p => { p with parent := parent, sz := sz })
  stack : ∀ {k} i, Q k → Q (k.giveStack i).1
  frame : ∀ {k} i, Q k → Q (k.giveTrapframe i).1
  inherit : ∀ {k} parent child, (k.procTable child).trapframe ≠ 0 → Q k →
    Q (k.inheritTrapframe parent child)
  table : ∀ {k} i, Q k → Q (k.giveTable i).1
  free : ∀ {k} i, Q k → Q (k.freeProc i)
  ready : ∀ {k} i, Q k → Q (k.modify i fun p => { p with state := .runnable })

variable {Q : Kernel → Prop}

/-- A trapframe that was given is there. -/
theorem giveTrapframe_ne_zero {k k' : Kernel} {i : ProcRef}
    (h : k.giveTrapframe i = (k', true)) : (k'.procTable i).trapframe ≠ 0 := by
  obtain ⟨f, hf, -, rfl⟩ := giveTrapframe_true h
  rw [modify_self]
  exact (resolve_physToVirt hf).ne_zero hf

/-- `Equipped i k k'`: from `k` to `k'` process `i` has been given some of what `proc_init` and
`fork` give to a new process. -/
inductive Equipped (i : ProcRef) (k : Kernel) : Kernel → Prop
  | claimed : Equipped i k k
  | stack {k' : Kernel} : Equipped i k k' → Equipped i k (k'.giveStack i).1
  | frame {k' : Kernel} : Equipped i k k' → Equipped i k (k'.giveTrapframe i).1
  | inherit {k' : Kernel} (parent : ProcRef) : Equipped i k k' →
      (k'.procTable i).trapframe ≠ 0 → Equipped i k (k'.inheritTrapframe parent i)
  | table {k' : Kernel} : Equipped i k k' → Equipped i k (k'.giveTable i).1

theorem Equipped.keeps {i : ProcRef} {k k' : Kernel} (he : Equipped i k k') (h : KeptBySpawn Q)
    (hk : Q k) : Q k' := by
  induction he with
  | claimed => exact hk
  | stack _ ih => exact h.stack i ih
  | frame _ ih => exact h.frame i ih
  | inherit parent _ hne ih => exact h.inherit parent i hne ih
  | table _ ih => exact h.table i ih

theorem Equipped.repaged {i : ProcRef} {k k' : Kernel} (h : Equipped i k k') : Repaged i k k' := by
  induction h with
  | claimed => exact .refl i k
  | stack _ ih => exact ih.trans (giveStack_repaged _ i)
  | frame _ ih => exact ih.trans (giveTrapframe_repaged _ i)
  | inherit parent _ _ ih => exact ih.trans (inheritTrapframe_repaged _ i parent)
  | table _ ih => exact ih.trans (giveTable_repaged _ i)

/-- **How `fork` ends**: with no entry for the child, with the child freed again, or with the child
runnable. -/
theorem fork_end (k : Kernel) :
    k.fork = (k, -1) ∨ ∃ parent child k',
      k.currentProcess = some parent ∧ (k.procTable child).state = .unused ∧
      k.allocProc.2 = some child ∧
      Equipped child ((k.claimProc child).modify child fun p => { p with
        parent := some parent
        sz := ((k.claimProc child).procTable parent).sz }) k' ∧
      (k.fork = (k'.freeProc child, -1) ∨
        k.fork = (k'.modify child fun p => { p with state := .runnable },
          (k'.procTable child).pid)) := by
  unfold Kernel.fork
  cases k.currentProcess with
  | none => exact Or.inl rfl
  | some parent =>
    rcases k.allocProc_cases with ⟨-, halloc⟩ | ⟨child, hfree, halloc⟩
    · exact Or.inl (by rw [halloc])
    · refine Or.inr ⟨parent, child, ?_⟩
      rw [halloc]
      dsimp only
      generalize hk₀ : ((k.claimProc child).modify child fun p => { p with
        parent := some parent
        sz := ((k.claimProc child).procTable parent).sz }) = k₀
      have h₁ : Equipped child k₀ _ := .stack .claimed
      rcases hrun₁ : k₀.giveStack child with ⟨k₁, ok₁⟩
      rw [hrun₁] at h₁
      cases ok₁ with
      | false => exact ⟨k₁, rfl, hfree, rfl, h₁, Or.inl rfl⟩
      | true =>
        dsimp only
        have h₂ : Equipped child k₀ _ := .frame h₁
        rcases hrun₂ : k₁.giveTrapframe child with ⟨k₂, ok₂⟩
        rw [hrun₂] at h₂
        cases ok₂ with
        | false => exact ⟨k₂, rfl, hfree, rfl, h₂, Or.inl rfl⟩
        | true =>
          dsimp only
          have h₃ : Equipped child k₀ _ := .table (.inherit parent h₂ (giveTrapframe_ne_zero hrun₂))
          rcases hrun₃ : (k₂.inheritTrapframe parent child).giveTable child with ⟨k₃, ok₃⟩
          rw [hrun₃] at h₃
          cases ok₃ with
          | false => exact ⟨k₃, rfl, hfree, rfl, h₃, Or.inl rfl⟩
          | true =>
            refine ⟨k₃, rfl, hfree, rfl, h₃, Or.inr ?_⟩
            dsimp only
            rw [modify_self]

/-- **How `proc_init` ends**: with no entry for `init`, with a part of `init` only, or with `init`
runnable and current. -/
theorem procInit_end (k : Kernel) :
    let k₀ : Kernel := { k with procTable := fun i => { k.procTable i with state := .unused } }
    k.procInit = k₀ ∨ ∃ init k', Equipped init (k₀.claimProc init) k' ∧
      (k.procInit = k' ∨ k.procInit =
        { k'.modify init fun p => { p with state := .runnable } with
          currentProcess := some init }) := by
  unfold Kernel.procInit
  dsimp only
  generalize ({ k with procTable := fun i => { k.procTable i with state := .unused } } : Kernel)
    = k₀
  rcases k₀.allocProc_cases with ⟨-, halloc⟩ | ⟨init, -, halloc⟩
  · exact Or.inl (by rw [halloc])
  · refine Or.inr ⟨init, ?_⟩
    rw [halloc]
    dsimp only
    have h₁ : Equipped init (k₀.claimProc init) _ := .stack .claimed
    rcases hrun₁ : (k₀.claimProc init).giveStack init with ⟨k₁, ok₁⟩
    rw [hrun₁] at h₁
    cases ok₁ with
    | false => exact ⟨k₁, h₁, Or.inl rfl⟩
    | true =>
      dsimp only
      have h₂ : Equipped init (k₀.claimProc init) _ := .frame h₁
      rcases hrun₂ : k₁.giveTrapframe init with ⟨k₂, ok₂⟩
      rw [hrun₂] at h₂
      cases ok₂ with
      | false => exact ⟨k₂, h₂, Or.inl rfl⟩
      | true =>
        dsimp only
        have h₃ : Equipped init (k₀.claimProc init) _ := .table h₂
        rcases hrun₃ : k₂.giveTable init with ⟨k₃, ok₃⟩
        rw [hrun₃] at h₃
        cases ok₃ with
        | false => exact ⟨k₃, h₃, Or.inl rfl⟩
        | true => exact ⟨k₃, h₃, Or.inr rfl⟩

/-- **`fork`** keeps what its steps keep. -/
theorem KeptBySpawn.fork (h : KeptBySpawn Q) {k : Kernel} (hk : Q k) : Q k.fork.1 := by
  rcases k.fork_end with hend | ⟨parent, child, k', -, -, -, he, hend | hend⟩
  · rw [hend]
    exact hk
  · rw [hend]
    exact h.free child (he.keeps h (h.adopt child _ _ (h.claim child hk)))
  · rw [hend]
    exact h.ready child (he.keeps h (h.adopt child _ _ (h.claim child hk)))

/-- **`proc_init`** keeps what its steps keep, from the empty table on. -/
theorem KeptBySpawn.procInit (h : KeptBySpawn Q) {k : Kernel}
    (hk : Q { k with procTable := fun i => { k.procTable i with state := .unused } }) :
    ∃ k', Q k' ∧
      (k.procInit = k' ∨ ∃ init, k.procInit = { k' with currentProcess := some init }) := by
  rcases k.procInit_end with hend | ⟨init, k', he, hend | hend⟩
  · exact ⟨_, hk, Or.inl hend⟩
  · exact ⟨k', he.keeps h (h.claim init hk), Or.inl hend⟩
  · exact ⟨_, h.ready init (he.keeps h (h.claim init hk)), Or.inr ⟨init, hend⟩⟩

end Kernel

end Lithium
