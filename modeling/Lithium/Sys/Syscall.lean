/-
# System calls and the memory of the caller

`syscall.c`: the dispatcher and its handlers, with the addresses they access through the pointers
of the caller.  None of these is checked.  `sys_write` prints the bytes that its buffer has
wherever it lies, and `sys_wait`, which takes no pointer from the caller, has `wait` store the
status of the child at address 0.
-/
import Lithium.Proc.Channels
import Mathlib.Tactic.IntervalCases

namespace Lithium

/-! ## 1. `number.h` -/

/-- `SYS_wait`. -/
def sysNumWait : BitVec 32 := 3

/-- `SYS_write`. -/
def sysNumWrite : BitVec 32 := 5

/-- `NSYSCALLS`. -/
def nsyscalls : Int := 9

/-! ## 2. The handlers -/

/-- How far a system call gets by itself. -/
inductive SysEnd where
  | returns (ret : BitVec 32)
  /-- It calls `scheduler`, and returns when that does. -/
  | switches (ret : BitVec 32)
  /-- It never returns. -/
  | exits

/-- What a system call does until then: `touched` are the addresses it accesses through a pointer
of the caller, or one it has for the purpose, and `console` what it prints for the caller. -/
structure SysCall where
  kernel : Kernel
  fin : SysEnd
  touched : List Word
  console : List (BitVec 8)

/-- A call that touches nothing. -/
def SysCall.plain (k : Kernel) (fin : SysEnd) : SysCall := ⟨k, fin, [], []⟩

/-- `*(char *)ptr`. -/
def Vm.loadByte (vm : Vm) (ptr : Word) : BitVec 8 :=
  (vm.load (ptr &&& ~~~7)).extractLsb' (8 * (ptr.toNat % 8)) 8

namespace Kernel

/-- `sys_fork`. -/
def sysFork (k : Kernel) : SysCall := .plain k.fork.1 (.returns k.fork.2)

/-- `sys_exit`. -/
def sysExit (k : Kernel) : SysCall :=
  match k.currentProcess with
  | none => .plain k (.returns 0)
  | some _ => .plain (k.exit (k.argint 0)) .exits

/-- The child that `wait` finds. -/
def zombieChild (k : Kernel) : Option ProcRef :=
  (List.finRange nproc).find? fun i =>
    (k.procTable i).parent == k.currentProcess && (k.procTable i).state == .zombie

/-- The bytes of an `int`. -/
def intBytes (ptr : Word) : List Word := (List.range 4).map fun i => ptr + BitVec.ofNat 64 i

/-- `sys_wait`. -/
def sysWait (k : Kernel) : SysCall where
  kernel := (k.wait 0).1
  fin := .returns (k.wait 0).2
  touched := k.zombieChild.elim [] fun _ => intBytes 0
  console := []

/-- `sys_write` passes its tests. -/
def writes (k : Kernel) : Bool :=
  (k.argint 0 == 1 || k.argint 0 == 2) && k.argraw 1 != 0 && BitVec.slt 0 (k.argint 2)

/-- The bytes of its buffer. -/
def writeBytes (k : Kernel) : List Word :=
  (List.range (k.argint 2).toNat).map fun i => k.argraw 1 + BitVec.ofNat 64 i

/-- `sys_write`. -/
def sysWrite (k : Kernel) : SysCall :=
  if k.writes then ⟨k, .returns (k.argint 2), k.writeBytes, k.writeBytes.map k.vm.loadByte⟩
  else .plain k (.returns (-1))

/-- `sys_read`. -/
def sysRead (k : Kernel) : SysCall := .plain k (.returns (-1))

/-- `sys_getpid`. -/
def sysGetpid (k : Kernel) : SysCall :=
  .plain k (.returns (k.currentProcess.elim (-1) fun p => (k.procTable p).pid))

/-- `sys_sleep`. -/
def sysSleep (k : Kernel) : SysCall :=
  match k.currentProcess with
  | none => .plain k (.returns 0)
  | some _ => .plain k.sleep (.switches 0)

/-- `sys_yield`. -/
def sysYield (k : Kernel) : SysCall := .plain k.yield (.switches 0)

/-- `syscall_table`. -/
def syscallTable : Nat → Option (Kernel → SysCall)
  | 1 => some sysFork
  | 2 => some sysExit
  | 3 => some sysWait
  | 4 => some sysRead
  | 5 => some sysWrite
  | 6 => some sysGetpid
  | 7 => some sysSleep
  | 8 => some sysYield
  | _ => none

/-- `p->trapframe->a0 = (uint64)ret`: the field 14. -/
def setResult (k : Kernel) (p : ProcRef) (ret : BitVec 32) : Kernel :=
  { k with vm :=
    k.vm.store (Vm.entryPtr (k.procTable p).trapframe 14) (ret.signExtend 64) }

/-- `(int)p->trapframe->a7`: the field 21. -/
def sysNum (k : Kernel) (p : ProcRef) : BitVec 32 :=
  (k.vm.load (Vm.entryPtr (k.procTable p).trapframe 21)).setWidth 32

/-- The handler that `syscall` calls. -/
def handler (num : BitVec 32) : Option (Kernel → SysCall) :=
  if 0 < num.toInt ∧ num.toInt < nsyscalls then syscallTable num.toNat else none

/-- `syscall`, up to the call of `scheduler` if there is one; the result is stored after that. -/
def syscall (k : Kernel) : SysCall :=
  match k.currentProcess with
  | none => .plain k (.returns 0)
  | some p =>
    if (k.procTable p).trapframe = 0 then .plain k (.returns 0)
    else
      match handler (k.sysNum p) with
      | none => .plain (k.setResult p (-1)) (.returns (-1))
      | some f =>
        let call := f k
        match call.fin with
        | .returns ret => { call with kernel := call.kernel.setResult p ret }
        | .switches _ | .exits => call

/-! ## 3. The property -/

/-- The memory that `syscall` touches for the caller is the caller's, and `SYS_wait`, which the
caller gives no address, does not store at address 0. -/
structure TouchesOwn (k : Kernel) : Prop where
  inside : ∀ p, k.currentProcess = some p →
    ∀ a ∈ k.syscall.touched, a.toNat < (k.procTable p).sz.toNat
  unasked : ∀ p, k.currentProcess = some p → k.sysNum p = sysNumWait → 0 ∉ k.syscall.touched

/-- The condition: a buffer that `sys_write` prints lies in the memory of the caller, its end
included, and `sys_wait` finds no child to return. -/
structure AsksOwn (k : Kernel) (p : ProcRef) : Prop where
  write : k.sysNum p = sysNumWrite → k.writes = true →
    (k.argraw 1).toNat + (k.argint 2).toNat ≤ (k.procTable p).sz.toNat
  wait : k.sysNum p = sysNumWait → k.zombieChild = none

/-! ## 4. What each call touches -/

variable {k : Kernel} {p : ProcRef}

/-- The result does not matter. -/
theorem syscall_touched (hcur : k.currentProcess = some p) (htf : (k.procTable p).trapframe ≠ 0) :
    k.syscall.touched = (handler (k.sysNum p)).elim [] fun f => (f k).touched := by
  simp only [syscall, hcur, if_neg htf]
  cases handler (k.sysNum p) with
  | none => rfl
  | some f =>
    simp only [Option.elim_some]
    cases (f k).fin <;> rfl

theorem sysExit_touched (k : Kernel) : k.sysExit.touched = [] := by
  unfold sysExit
  cases k.currentProcess <;> rfl

theorem sysSleep_touched (k : Kernel) : k.sysSleep.touched = [] := by
  unfold sysSleep
  cases k.currentProcess <;> rfl

/-- What a call touches, by its number. -/
theorem handler_touched (k : Kernel) (num : BitVec 32) :
    ((handler num).elim [] fun f => (f k).touched) =
      if num = sysNumWait then k.sysWait.touched
      else if num = sysNumWrite then k.sysWrite.touched else [] := by
  unfold handler
  split
  case isFalse hout =>
    have hwait : num ≠ sysNumWait := by
      rintro rfl
      exact hout (by decide)
    have hwrite : num ≠ sysNumWrite := by
      rintro rfl
      exact hout (by decide)
    rw [if_neg hwait, if_neg hwrite]
    rfl
  case isTrue hin =>
    obtain ⟨n, hn, rfl⟩ : ∃ n < 9, num = BitVec.ofNat 32 n := by
      refine ⟨num.toNat, ?_, by simp⟩
      have hlt := num.isLt
      simp only [BitVec.toInt_eq_toNat_cond, nsyscalls] at hin
      split at hin <;> omega
    interval_cases n
    case «2» => exact k.sysExit_touched
    case «7» => exact k.sysSleep_touched
    all_goals rfl

theorem sysWait_touched (h : 0 ∉ k.sysWait.touched) : k.zombieChild = none := by
  cases hz : k.zombieChild with
  | none => rfl
  | some c =>
    refine absurd ?_ h
    simp only [sysWait, hz, Option.elim_some]
    decide

/-- The buffer lies below `sz` when all of its bytes do: it cannot wrap around. -/
theorem range_below (buf sz : Word) {n : Nat} (hn : 0 < n) :
    (∀ i < n, (buf + BitVec.ofNat 64 i).toNat < sz.toNat) ↔ buf.toNat + n ≤ sz.toNat := by
  have hbuf := buf.isLt
  have hsz := sz.isLt
  constructor
  · intro h
    by_cases hwrap : buf.toNat + n ≤ 2 ^ 64
    · have hlast := h (n - 1) (by omega)
      rw [BitVec.toNat_add, BitVec.toNat_ofNat] at hlast
      omega
    · -- it would contain the last address there is
      have hlast := h (2 ^ 64 - 1 - buf.toNat) (by omega)
      rw [BitVec.toNat_add, BitVec.toNat_ofNat] at hlast
      omega
  · intro h i hi
    rw [BitVec.toNat_add, BitVec.toNat_ofNat]
    omega

/-! ## 5. Which calls touch the caller's memory only -/

/-- **A system call touches only the memory of its caller exactly when the buffer of `sys_write`
lies there and `sys_wait` has no child to return**, whatever the trapframe and the processes. -/
theorem touchesOwn_iff (k : Kernel) : k.TouchesOwn ↔
    ∀ p, k.currentProcess = some p → (k.procTable p).trapframe ≠ 0 → k.AsksOwn p := by
  have htouched : ∀ p, k.currentProcess = some p → (k.procTable p).trapframe ≠ 0 →
      k.syscall.touched = if k.sysNum p = sysNumWait then k.sysWait.touched
        else if k.sysNum p = sysNumWrite then k.sysWrite.touched else [] :=
    fun p hcur htf => by rw [syscall_touched hcur htf, handler_touched]
  constructor
  · intro h p hcur htf
    have ht := htouched p hcur htf
    constructor
    case write =>
      intro hnum hwrites
      have hpos : 0 < (k.argint 2).toNat := by
        simp only [writes, Bool.and_eq_true, BitVec.slt, decide_eq_true_eq] at hwrites
        have hlt := (k.argint 2).isLt
        have htoInt := (k.argint 2).toInt_eq_toNat_cond
        have hzero : (0 : BitVec 32).toInt = 0 := rfl
        omega
      rw [hnum, if_neg (by decide), if_pos rfl, sysWrite, if_pos hwrites] at ht
      refine (range_below _ _ hpos).mp fun i hi => h.inside p hcur _ ?_
      rw [ht]
      exact List.mem_map.mpr ⟨i, List.mem_range.mpr hi, rfl⟩
    case wait =>
      intro hnum
      rw [hnum, if_pos rfl] at ht
      exact sysWait_touched fun hzero => h.unasked p hcur hnum (ht ▸ hzero)
  · intro h
    have hwait : ∀ p, k.currentProcess = some p → (k.procTable p).trapframe ≠ 0 →
        k.sysNum p = sysNumWait → k.sysWait.touched = [] := fun p hcur htf hnum => by
      simp only [sysWait, (h p hcur htf).wait hnum, Option.elim_none]
    have hnothing : ∀ p, k.currentProcess = some p → (k.procTable p).trapframe = 0 →
        k.syscall.touched = [] := fun p hcur htf => by
      simp only [syscall, hcur, if_pos htf]
      rfl
    constructor
    case inside =>
      intro p hcur a ha
      by_cases htf : (k.procTable p).trapframe = 0
      · rw [hnothing p hcur htf] at ha
        exact absurd ha List.not_mem_nil
      rw [htouched p hcur htf] at ha
      by_cases hnum : k.sysNum p = sysNumWait
      · rw [if_pos hnum, hwait p hcur htf hnum] at ha
        exact absurd ha List.not_mem_nil
      rw [if_neg hnum] at ha
      by_cases hnum : k.sysNum p = sysNumWrite
      · rw [if_pos hnum, sysWrite] at ha
        by_cases hwrites : k.writes = true
        · rw [if_pos hwrites] at ha
          obtain ⟨i, hi, rfl⟩ := List.mem_map.mp ha
          rw [List.mem_range] at hi
          exact (range_below _ _ (by omega)).mpr ((h p hcur htf).write hnum hwrites) i hi
        · rw [if_neg hwrites] at ha
          exact absurd ha List.not_mem_nil
      · rw [if_neg hnum] at ha
        exact absurd ha List.not_mem_nil
    case unasked =>
      intro p hcur hnum hzero
      by_cases htf : (k.procTable p).trapframe = 0
      · rw [hnothing p hcur htf] at hzero
        exact absurd hzero List.not_mem_nil
      · rw [htouched p hcur htf, if_pos hnum, hwait p hcur htf hnum] at hzero
        exact absurd hzero List.not_mem_nil

/-- `init` as `proc_init` leaves it, with a system call in its trapframe. -/
def initCalls (num a0 a1 a2 : Word) : Kernel :=
  let k := (fresh (.boot 0x80001000 fun _ => 0)).procInit
  let tf := (k.procTable 0).trapframe
  { k with vm := (((k.vm.store (Vm.entryPtr tf 21) num).store (Vm.entryPtr tf 14) a0).store
    (Vm.entryPtr tf 15) a1).store (Vm.entryPtr tf 16) a2 }

/-- `write(1, 0x80000000, 64)` prints the beginning of the kernel. -/
theorem sysWrite_prints_kernel : ¬ ∀ k : Kernel, k.TouchesOwn := by
  intro h
  have hrun : (initCalls 5 1 0x80000000 64).currentProcess = some 0 ∧
      0x80000000 ∈ (initCalls 5 1 0x80000000 64).syscall.touched ∧
      ((initCalls 5 1 0x80000000 64).procTable 0).sz = 0 := by
    decide +kernel
  have hlt := (h (initCalls 5 1 0x80000000 64)).inside 0 hrun.1 _ hrun.2.1
  rw [hrun.2.2] at hlt
  exact absurd hlt (by decide)

end Kernel

end Lithium
