/-
# Sleep channels

`sleep(chan, lk)` is to last until somebody calls `wakeup(chan)`.  Neither function looks at
`chan`, and `struct proc` has no field for it: `wakeup` wakes whoever sleeps.  The callers in the
file system look again at what they wait for; `sys_sleep` does not.

Section 2 runs any number of sleepers and wakers on any process table, and section 3 says which
runs respect the channels.
-/
import Lithium.Mem.Spinlock
import Lithium.Proc.Machine

namespace Lithium

/-! ## 1. `sys_sleep` -/

namespace Kernel

/-- `argraw`: the registers `a0` to `a5` are the fields 14 to 19 of the trapframe. -/
def argraw (k : Kernel) (n : Nat) : Word :=
  match k.currentProcess with
  | none => 0
  | some p =>
    if (k.procTable p).trapframe = 0 then 0
    else if n ≤ 5 then
      k.vm.load (Vm.entryPtr (k.procTable p).trapframe (BitVec.ofNat 64 (14 + n)))
    else 0

/-- `argint`. -/
def argint (k : Kernel) (n : Nat) : BitVec 32 := (k.argraw n).setWidth 32

/-- `(void *)(uint64)ticks` in `sys_sleep`. -/
def sleepTicks (k : Kernel) : Word := (k.argint 0).signExtend 64

end Kernel

/-! ## 2. Runs of `sleep` and `wakeup` -/

variable {L : Type*} [DecidableEq L]

/-- The kernel and the spinlocks, beside the channel of the last call of `sleep` of each process
and the channel of the `wakeup` that has ended it. -/
structure ChannelState (L : Type*) where
  kernel : Kernel
  hart : Hart L
  chan : ProcRef → Option Word
  wokenBy : ProcRef → Option Word

/-- A call of the current process or of an interrupt handler, or a dispatch. -/
inductive ChannelOp (L : Type*) where
  | sleep (chan : Word) (lk : Option L)
  | sysSleep
  | wakeup (chan : Word)
  | acquire (lk : L)
  | release (lk : L)
  | yield
  | dispatch (i : ProcRef)

namespace ChannelState

/-- `sleep`, up to its call of `scheduler`; no `lk` is `NULL`. -/
def sleep (s : ChannelState L) (chan : Word) (lk : Option L) : Option (ChannelState L) :=
  match s.kernel.currentProcess with
  | none => some s
  | some p =>
    (lk.elim (some s.hart) (spinlockRelease s.hart)).map fun hart =>
      { kernel := s.kernel.sleep
        hart := hart
        chan := Function.update s.chan p (some chan)
        wokenBy := Function.update s.wokenBy p none }

/-- `wakeup`. -/
def wakeup (s : ChannelState L) (chan : Word) : ChannelState L :=
  { s with
    kernel := s.kernel.wakeup
    wokenBy := fun i =>
      if (s.kernel.procTable i).state = .sleeping then some chan else s.wokenBy i }

/-- One step. -/
def step (s : ChannelState L) : ChannelOp L → Option (ChannelState L)
  | .sleep chan lk => s.sleep chan lk
  | .sysSleep => s.sleep s.kernel.sleepTicks none
  | .wakeup chan => some (s.wakeup chan)
  | .acquire lk => (spinlockAcquire s.hart lk).map fun hart => { s with hart := hart }
  | .release lk => (spinlockRelease s.hart lk).map fun hart => { s with hart := hart }
  | .yield => some { s with kernel := s.kernel.yield }
  | .dispatch i =>
    if (s.kernel.procTable i).state = .runnable then
      some { s with kernel := s.kernel.dispatch i }
    else none

/-- Before the first call, whatever the process table holds. -/
def init (k : Kernel) (hart : Hart L) : ChannelState L := ⟨k, hart, fun _ => none, fun _ => none⟩

/-- A process that has called `sleep` on a channel sleeps, or a `wakeup` on this channel has made
it runnable. -/
def ChannelsOk (s : ChannelState L) : Prop :=
  ∀ i c, s.chan i = some c → (s.kernel.procTable i).state ≠ .sleeping → s.wokenBy i = some c

/-- The condition on a step: when `wakeup` is called, whoever has called `sleep` and sleeps does so
on its channel. -/
def WakesItsOwn (s : ChannelState L) : ChannelOp L → Prop
  | .wakeup chan => ∀ i c, s.chan i = some c → (s.kernel.procTable i).state = .sleeping → c = chan
  | _ => True

variable {s s' : ChannelState L}

/-! ## 3. One step -/

omit [DecidableEq L] in
/-- **`wakeup`** respects the channels exactly when all sleepers sleep on the one it is called
with. -/
theorem channelsOk_wakeup_iff (h : ChannelsOk s) (chan : Word) :
    ChannelsOk (s.wakeup chan) ↔ s.WakesItsOwn (.wakeup chan) := by
  have hawake : ∀ i, ((s.wakeup chan).kernel.procTable i).state ≠ .sleeping := by
    intro i
    change (s.kernel.wakeup.procTable i).state ≠ .sleeping
    unfold Kernel.wakeup
    dsimp only
    split
    case isTrue => simp
    case isFalse hi => exact hi
  constructor
  · intro hok i c hc hi
    have hwoken : (if (s.kernel.procTable i).state = .sleeping then some chan else s.wokenBy i)
        = some c := hok i c hc (hawake i)
    rw [if_pos hi, Option.some.injEq] at hwoken
    exact hwoken.symm
  · intro hown i c hc _
    change (if (s.kernel.procTable i).state = .sleeping then some chan else s.wokenBy i) = some c
    split
    case isTrue hi => rw [hown i c hc hi]
    case isFalse hi => exact h i c hc hi

/-- **`sleep`** makes the caller a sleeper. -/
theorem ChannelsOk.sleep (h : ChannelsOk s) {chan : Word} {lk : Option L}
    (hs : s.sleep chan lk = some s') : ChannelsOk s' := by
  unfold ChannelState.sleep at hs
  cases hcur : s.kernel.currentProcess with
  | none =>
    rw [hcur] at hs
    exact Option.some.inj hs ▸ h
  | some p =>
    rw [hcur] at hs
    obtain ⟨hart, -, rfl⟩ := Option.map_eq_some_iff.mp hs
    have hkernel : s.kernel.sleep = s.kernel.modify p fun p => { p with state := .sleeping } := by
      unfold Kernel.sleep
      rw [hcur]
    intro i c hc hi
    dsimp only at hc hi ⊢
    rw [hkernel] at hi
    by_cases hip : i = p
    · subst hip
      rw [Kernel.modify_self] at hi
      exact absurd rfl hi
    · rw [Kernel.modify_of_ne _ _ _ hip] at hi
      rw [Function.update_of_ne hip] at hc ⊢
      exact h i c hc hi

omit [DecidableEq L] in
/-- Steps in which nobody stops sleeping. -/
theorem ChannelsOk.quiet (h : ChannelsOk s) {k : Kernel} {hart : Hart L}
    (hk : ∀ i, (s.kernel.procTable i).state = .sleeping → (k.procTable i).state = .sleeping) :
    ChannelsOk { s with kernel := k, hart := hart } :=
  fun i c hc hi => h i c hc fun hsleep => hi (hk i hsleep)

/-- **One step** respects the channels exactly when it meets the condition. -/
theorem channelsOk_step_iff {op : ChannelOp L} (h : ChannelsOk s) (hs : s.step op = some s') :
    ChannelsOk s' ↔ s.WakesItsOwn op := by
  cases op with
  | sleep chan lk => exact iff_of_true (h.sleep hs) trivial
  | sysSleep => exact iff_of_true (h.sleep hs) trivial
  | wakeup chan =>
    obtain rfl := Option.some.inj hs
    exact channelsOk_wakeup_iff h chan
  | acquire lk =>
    obtain ⟨hart, -, rfl⟩ := Option.map_eq_some_iff.mp hs
    exact iff_of_true (h.quiet fun _ => id) trivial
  | release lk =>
    obtain ⟨hart, -, rfl⟩ := Option.map_eq_some_iff.mp hs
    exact iff_of_true (h.quiet fun _ => id) trivial
  | yield =>
    obtain rfl := Option.some.inj hs
    refine iff_of_true (h.quiet fun i hi => ?_) trivial
    unfold Kernel.yield
    cases s.kernel.currentProcess with
    | none => exact hi
    | some p =>
      dsimp only
      split
      case isTrue hrun =>
        have hip : i ≠ p := by
          rintro rfl
          exact absurd (hi.symm.trans hrun) (by simp)
        rwa [Kernel.modify_of_ne _ _ _ hip]
      case isFalse => exact hi
  | dispatch p =>
    simp only [step, Option.ite_none_right_eq_some, Option.some.injEq] at hs
    obtain ⟨hrun, rfl⟩ := hs
    refine iff_of_true (h.quiet fun i hi => ?_) trivial
    have hip : i ≠ p := by
      rintro rfl
      exact absurd (hi.symm.trans hrun) (by simp)
    rw [Kernel.dispatch_state, if_neg hip, hi]

/-! ## 4. Whole runs -/

/-- **A run respects the channels exactly when every `wakeup` of it is called with the channel of
all sleepers.** -/
theorem channelsOk_iff (k : Kernel) (hart : Hart L) (ops : List (ChannelOp L)) :
    Transition.Always step ChannelsOk (init k hart) ops ↔
      Transition.EachStep step WakesItsOwn (init k hart) ops :=
  Transition.always_iff_eachStep
    (fun _ _ _ (_ : True) h hs => ⟨channelsOk_step_iff h hs, fun _ => trivial⟩) ops _ trivial
    fun _ _ hc _ => absurd hc (by simp [init])

/-- `init` calls `sys_sleep(5)`, and the release of a lock at `0x80010000` ends it. -/
theorem sysSleep_ended_by_lock :
    ¬ ∀ (k : Kernel) (hart : Hart Unit) (ops : List (ChannelOp Unit)),
      Transition.Always step ChannelsOk (init k hart) ops := by
  intro hall
  have hrun : (Transition.run step
      (init (Kernel.fresh (.boot 0x80001000 fun _ => 5)).procInit
        (⟨true, fun _ => false⟩ : Hart Unit)) [.sysSleep, .wakeup 0x80010000]).any (fun s =>
        s.chan 0 == some 5 && (s.kernel.procTable 0).state == .runnable &&
          s.wokenBy 0 == some 0x80010000) = true := by
    decide +kernel
  obtain ⟨s, hs, htest⟩ := (Option.any_eq_true _ _).mp hrun
  simp only [Bool.and_eq_true, beq_iff_eq] at htest
  obtain ⟨⟨hchan, hstate⟩, hwoken⟩ := htest
  have hok := Transition.always_iff_reachable.mp (hall _ _) s ⟨_, hs⟩
  have hfive := hok 0 5 hchan (by rw [hstate]; simp)
  rw [hwoken] at hfive
  exact absurd hfive (by decide)

end ChannelState

end Lithium
