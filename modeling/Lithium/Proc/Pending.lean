/-
# Calls that wait for the scheduler

`yield` and `sleep` call `scheduler` to let other processes run, and go on when it returns: `sleep`
then takes its spinlock again.  A process that is dispatched again is resumed by `context_switch`
in the middle of `scheduler`, which is a `while (1)` that nothing leaves.  So it does not get
back to `yield` or `sleep`: it looks for the next process to dispatch.

The functions are commands on the stacks of the processes here, one action an assignment of the
source, since what runs behind `context_switch` is not the process that called it.
-/
import Lithium.Lib.Coroutine
import Lithium.Mem.Spinlock
import Lithium.Proc.Running

namespace Lithium

open Coroutine

variable {L : Type*} [DecidableEq L]

/-! ## 1. The functions as commands -/

namespace Kernel

/-- `current_process = p`. -/
def setCurrent (k : Kernel) (i : ProcRef) : Kernel := { k with currentProcess := some i }

/-- `p->state = st`. -/
def setState (k : Kernel) (i : ProcRef) (st : ProcState) : Kernel :=
  k.modify i fun p => { p with state := st }

/-- `if (p->pagetable != NULL) switch_page_table(p->pagetable);` -/
def loadTable (k : Kernel) (i : ProcRef) : Kernel :=
  if (k.procTable i).pagetable ≠ 0 then
    { k with vm := k.vm.switchPageTable (k.procTable i).pagetable }
  else k

/-- The assignments of `scheduler`, one after the other, are those of `dispatch`, but for the
context of the process it leaves. -/
theorem dispatch_eq (k : Kernel) (i : ProcRef) :
    k.dispatch i = k.currentProcess.elim (((k.setCurrent i).setState i .running).loadTable i)
      fun j => (((k.setCurrent i).setState i .running).loadTable i).modify j
        fun p => { p with context := .inScheduler } := by
  unfold dispatch
  cases k.currentProcess <;> rfl

end Kernel

/-- The kernel, and the hart with the spinlocks. -/
structure KernelState (L : Type*) where
  kernel : Kernel
  hart : Hart L

/-- What the functions do to the state. -/
inductive KernelAct (L : Type*) where
  | advance
  | setCurrent (i : ProcRef)
  | setState (i : ProcRef) (st : ProcState)
  | loadTable (i : ProcRef)
  | acquire (lk : L)
  | release (lk : L)
  | wakeup
  | fork
  | exit (status : BitVec 32)
  | wait (statusAddr : Word)

/-- The functions that processes and trap handlers call. -/
inductive KernelFn (L : Type*) where
  | scheduler
  | yield
  | sleep (lk : Option L)
  | acquire (lk : L)
  | release (lk : L)
  | wakeup
  | fork
  | exit (status : BitVec 32)
  | wait (statusAddr : Word)
  deriving DecidableEq

/-- A change of the kernel. -/
def KernelState.put (s : KernelState L) (k : Kernel) : KernelState L := { s with kernel := k }

/-- What an action does; `none` spins for ever in `spinlock.c`. -/
def KernelAct.exec (s : KernelState L) : KernelAct L → Option (KernelState L)
  | .advance => some (s.put s.kernel.advance)
  | .setCurrent i => some (s.put (s.kernel.setCurrent i))
  | .setState i st => some (s.put (s.kernel.setState i st))
  | .loadTable i => some (s.put (s.kernel.loadTable i))
  | .acquire lk => (spinlockAcquire s.hart lk).map fun h => { s with hart := h }
  | .release lk => (spinlockRelease s.hart lk).map fun h => { s with hart := h }
  | .wakeup => some (s.put s.kernel.wakeup)
  | .fork => some (s.put s.kernel.fork.1)
  | .exit status => some (s.put (s.kernel.exit status))
  | .wait statusAddr => some (s.put (s.kernel.wait statusAddr).1)

/-- A command of the kernel; the stacks are those of the processes. -/
abbrev KernelCmd (L : Type*) := Cmd (KernelState L) (KernelAct L) ProcRef

namespace KernelCmd

/-- What `scheduler` does when it has found the runnable process `p`. -/
def dispatch (prev : Option ProcRef) (p : ProcRef) : KernelCmd L :=
  .seq (.act (.setCurrent p)) <| .seq (.act (.setState p .running)) <|
    .seq (.act (.loadTable p)) (.switch prev p)

/-- `scheduler`. -/
def scheduler : KernelCmd L :=
  .loop <| .rep nproc <| .bind fun s =>
    let p := s.kernel.currentIndex
    .seq (.act .advance) <| .bind fun s =>
      if (s.kernel.procTable p).state = .runnable then dispatch s.kernel.currentProcess p
      else .skip

/-- `yield`. -/
def yield : KernelCmd L :=
  .seq (.bind fun s =>
    match s.kernel.currentProcess with
    | none => .skip
    | some i =>
      if (s.kernel.procTable i).state = .running then .act (.setState i .runnable) else .skip)
    scheduler

/-- `sleep`; no `lk` is `NULL`. -/
def sleep (lk : Option L) : KernelCmd L :=
  .bind fun s =>
    match s.kernel.currentProcess with
    | none => .skip
    | some p =>
      .seq (lk.elim .skip fun lk => .act (.release lk)) <| .seq (.act (.setState p .sleeping)) <|
        .seq scheduler (lk.elim .skip fun lk => .act (.acquire lk))

/-- `exit`, with the loop it ends in. -/
def exit (status : BitVec 32) : KernelCmd L :=
  .bind fun s =>
    match s.kernel.currentProcess with
    | none => .skip
    | some _ => .seq (.act (.exit status)) (.loop .skip)

end KernelCmd

/-- The functions. -/
def kernelProgram : Program (KernelState L) (KernelAct L) ProcRef (KernelFn L) where
  exec a s := a.exec s
  body
    | .scheduler => KernelCmd.scheduler
    | .yield => KernelCmd.yield
    | .sleep lk => KernelCmd.sleep lk
    | .acquire lk => .act (.acquire lk)
    | .release lk => .act (.release lk)
    | .wakeup => .act .wakeup
    | .fork => .act .fork
    | .exit status => KernelCmd.exit status
    | .wait statusAddr => .act (.wait statusAddr)

/-- The hart: the stack that runs, and the stacks `context_switch` has saved in the contexts of
the processes.  A context that was never saved leads to address 0, and what runs there is not
known: the empty stack. -/
abbrev KernelConfig (L : Type*) :=
  Config (KernelState L) (KernelAct L) ProcRef (KernelFn L)

/-- A stack of the kernel. -/
abbrev KernelStack (L : Type*) :=
  List (Frame (KernelState L) (KernelAct L) ProcRef (KernelFn L))

namespace KernelConfig

/-- One step; calls may come at any moment, as interrupts do. -/
def step (m : KernelConfig L) (op : Op (KernelFn L)) : Option (KernelConfig L) :=
  Coroutine.step kernelProgram m op

/-- Nobody has called any of the functions yet. -/
def init (k : Kernel) (h : Hart L) : KernelConfig L := ⟨⟨k, h⟩, [], fun _ => []⟩

/-! ## 2. Getting back -/

/-- The next step is a `context_switch`. -/
def Switches (m : KernelConfig L) (op : Op (KernelFn L)) : Prop :=
  op = .next ∧ ∃ old new k, m.stack = .run (.switch old new) :: k

/-- `context_switch` has just resumed a process. -/
def Dispatches (m m' : KernelConfig L) : Prop := m.Switches .next ∧ m.step .next = some m'

/-- A call of `yield` or `sleep` has not returned yet; below it the stack is `k`. -/
def Pending (m : KernelConfig L) (r : KernelFn L) (k : KernelStack L) : Prop :=
  (r = .yield ∨ ∃ lk, r = .sleep lk) ∧ ∃ fs, m.stack = fs ++ .ret r :: k

/-- The call returns, before another process is dispatched. -/
def GetsBack (m : KernelConfig L) (r : KernelFn L) (k : KernelStack L) : Prop :=
  ∃ ops m', Transition.run step m ops = some m' ∧
    Transition.EachStep step (fun m op => ¬ m.Switches op) m ops ∧ m'.stack = .ret r :: k

/-! ## 3. Nothing leaves the loop -/

/-- No function takes `current_process` back to `NULL`. -/
theorem exec_currentProcess {a : KernelAct L} {s s' : KernelState L}
    (h : s.kernel.currentProcess ≠ none) (hs : a.exec s = some s') :
    s'.kernel.currentProcess ≠ none := by
  cases a with
  | advance => exact Option.some.inj hs ▸ h
  | setCurrent i => exact Option.some.inj hs ▸ Option.some_ne_none i
  | setState i st => exact Option.some.inj hs ▸ h
  | loadTable i =>
    rw [← Option.some.inj hs, KernelState.put, Kernel.loadTable]
    split <;> exact h
  | acquire lk =>
    obtain ⟨_, -, rfl⟩ := Option.map_eq_some_iff.mp hs
    exact h
  | release lk =>
    obtain ⟨_, -, rfl⟩ := Option.map_eq_some_iff.mp hs
    exact h
  | wakeup => exact Option.some.inj hs ▸ h
  | fork =>
    rw [← Option.some.inj hs, KernelState.put, s.kernel.unmarked_fork.current]
    exact h
  | exit status =>
    rw [← Option.some.inj hs, KernelState.put, (s.kernel.unmarked_exit status).current]
    exact h
  | wait statusAddr =>
    rw [← Option.some.inj hs, KernelState.put, (s.kernel.unmarked_wait statusAddr).current]
    exact h

/-- `yield`, and `sleep` with a current process, end in the loop of `scheduler`. -/
theorem body_diverges {r : KernelFn L} (hr : r = .yield ∨ ∃ lk, r = .sleep lk) :
    Diverges (fun s => s.kernel.currentProcess ≠ none) (kernelProgram.body r) := by
  rcases hr with rfl | ⟨lk, rfl⟩
  · exact Or.inr trivial
  · intro s hs
    dsimp only
    cases hcur : s.kernel.currentProcess with
    | none => exact absurd hcur hs
    | some p => exact Or.inr (Or.inr (Or.inl trivial))

/-- No call of `yield` or `sleep` ever returns. -/
theorem not_returned {k : Kernel} {h : Hart L} (hcur : k.currentProcess ≠ none)
    {ops : List (Op (KernelFn L))} {m : KernelConfig L}
    (hm : Transition.run step (init k h) ops = some m) {r : KernelFn L}
    {fs : KernelStack L} (hr : r = .yield ∨ ∃ lk, r = .sleep lk) :
    m.stack ≠ .ret r :: fs := by
  have hkeeps : ∀ a (s s' : KernelState L), s.kernel.currentProcess ≠ none →
      kernelProgram.exec a s = some s' → s'.kernel.currentProcess ≠ none :=
    fun a _ _ hs => exec_currentProcess hs
  have hnever := never_returns hkeeps (fun r => body_diverges (r := r)) (s := ⟨k, h⟩) hcur ops
  intro hstack
  exact (Transition.always_iff_forall_part ops _).mp hnever ops m List.prefix_rfl hm r fs hstack hr

theorem not_getsBack {k : Kernel} {h : Hart L} (hcur : k.currentProcess ≠ none)
    {ops : List (Op (KernelFn L))} {m : KernelConfig L}
    (hm : Transition.run step (init k h) ops = some m) {r : KernelFn L} {fs : KernelStack L}
    (hpending : m.Pending r fs) : ¬ m.GetsBack r fs := by
  rintro ⟨ops', m', hrun, -, hback⟩
  have hall : Transition.run step (init k h) (ops ++ ops') = some m' := by
    rw [Transition.run_append, hm]
    exact hrun
  exact not_returned hcur hall hpending.1 hback

theorem run_dispatches {k : Kernel} {h : Hart L} {ops : List (Op (KernelFn L))}
    {m m' : KernelConfig L} (hm : Transition.run step (init k h) ops = some m)
    (hm' : Dispatches m m') : Transition.run step (init k h) (ops ++ [.next]) = some m' := by
  rw [Transition.run_append, hm, Option.bind_some, Transition.run_cons, hm'.2]
  rfl

/-- **A process that is dispatched in the middle of `yield` or `sleep` does not get back.** -/
theorem dispatched_not_back {k : Kernel} {h : Hart L} (hcur : k.currentProcess ≠ none)
    {ops : List (Op (KernelFn L))} {m m' : KernelConfig L}
    (hm : Transition.run step (init k h) ops = some m) (hm' : Dispatches m m') {r : KernelFn L}
    {fs : KernelStack L} (hpending : m'.Pending r fs) : ¬ m'.GetsBack r fs :=
  not_getsBack hcur (run_dispatches hm hm') hpending

/-- Process 1 runs, and process 0 can. -/
def twoProcesses : Kernel :=
  { Kernel.fresh (Vm.boot 0 fun _ => 0) with
    procTable := fun i =>
      if i = 0 then { Proc.zero with state := .runnable }
      else if i = 1 then { Proc.zero with state := .running }
      else .zero
    currentProcess := some 1 }

/-- Process 1 calls `yield`, which dispatches process 0; process 0 calls `yield`, up to the
`context_switch` to process 1. -/
def yieldTwice : List (Op (KernelFn Unit)) :=
  .call .yield :: List.replicate 16 .next ++ .call .yield :: List.replicate 15 .next

/-- Process 1 is dispatched again, in the loop of the `scheduler` that `yield` has called. -/
theorem yieldTwice_dispatches : ∃ m m' : KernelConfig Unit,
    Transition.run step (init twoProcesses ⟨true, fun _ => false⟩) yieldTwice = some m ∧
      Dispatches m m' ∧ m'.Pending .yield [] :=
  ⟨_, _, rfl, ⟨⟨rfl, _, _, _, rfl⟩, rfl⟩, Or.inl rfl, [_, _], rfl⟩

theorem dispatched_not_back_yields : ∃ m m' : KernelConfig Unit,
    Transition.run step (init twoProcesses ⟨true, fun _ => false⟩) yieldTwice = some m ∧
      Dispatches m m' ∧ m'.Pending .yield [] ∧ ¬ m'.GetsBack .yield [] := by
  obtain ⟨m, m', hm, hm', hpending⟩ := yieldTwice_dispatches
  exact ⟨m, m', hm, hm', hpending, dispatched_not_back (Option.some_ne_none 1) hm hm' hpending⟩

/-- Process 1 looks for the next process to dispatch instead. -/
theorem yield_does_not_return : ¬ ∀ (k : Kernel) (h : Hart Unit), k.currentProcess ≠ none →
    ∀ (ops : List (Op (KernelFn Unit))) (m m' : KernelConfig Unit),
      Transition.run step (init k h) ops = some m → Dispatches m m' →
        ∀ (r : KernelFn Unit) (fs : KernelStack Unit), m'.Pending r fs → m'.GetsBack r fs := by
  intro hall
  obtain ⟨m, m', hm, hm', hpending⟩ := yieldTwice_dispatches
  exact not_getsBack (Option.some_ne_none 1) (run_dispatches hm hm') hpending
    (hall _ _ (Option.some_ne_none 1) _ m m' hm hm' _ _ hpending)

end KernelConfig

end Lithium
