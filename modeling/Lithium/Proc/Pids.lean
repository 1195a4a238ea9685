/-
# Pids

`alloc_proc` numbers the processes from `next_pid`, an `int` that wraps and never looks at the
pids in the table.  `sleeplock_held` compares pids, and -1 is what `fork` returns when it fails;
so both need pids that are positive and different.
-/
import Lithium.Fs.Sleeplock
import Lithium.Proc.Resources

namespace Lithium

namespace ForkState

open Kernel

/-! ## 1. What pids are for -/

/-- The pids of the processes are positive and all different, and no two processes hold the same
sleeplock. -/
structure PidsOk (s : ForkState) : Prop where
  positive : ∀ i, (s.kernel.procTable i).state ≠ .unused → BitVec.slt 0 (s.pid i) = true
  distinct : ∀ i j, (s.kernel.procTable i).state ≠ .unused →
    (s.kernel.procTable j).state ≠ .unused → s.pid i = s.pid j → i = j
  holder : ∀ (lk : Sleeplock) i j, (s.kernel.procTable i).state ≠ .unused →
    (s.kernel.procTable j).state ≠ .unused → sleeplockHeld lk (some (s.pid i)) = true →
      sleeplockHeld lk (some (s.pid j)) = true → i = j

/-- In a step, a `fork` with a negative result makes no child. -/
def ForkTells (s : ForkState) : ForkOp → Prop
  | .fork => BitVec.slt s.kernel.fork.2 0 = true → ∀ j, (s.kernel.procTable j).state = .unused →
      (s.kernel.fork.1.procTable j).state = .unused
  | _ => True

/-- The condition on a step: a `fork` that can make a child finds a positive `next_pid` that is
nobody's pid. -/
def TakesFreshPid (s : ForkState) : ForkOp → Prop
  | .fork => s.kernel.CanFork → BitVec.slt 0 s.kernel.nextPid = true ∧
      ∀ i, (s.kernel.procTable i).state ≠ .unused → s.pid i ≠ s.kernel.nextPid
  | _ => True

theorem PidsOk.of_distinct {s : ForkState}
    (hpos : ∀ i, (s.kernel.procTable i).state ≠ .unused → BitVec.slt 0 (s.pid i) = true)
    (hne : ∀ i j, (s.kernel.procTable i).state ≠ .unused →
      (s.kernel.procTable j).state ≠ .unused → s.pid i = s.pid j → i = j) : PidsOk s := by
  refine ⟨hpos, hne, ?_⟩
  intro lk i j hi hj hheld hheld'
  simp only [sleeplockHeld, Bool.and_eq_true, beq_iff_eq, Option.some.injEq] at hheld hheld'
  exact hne i j hi hj (hheld.2.trans hheld'.2.symm)

/-! ## 2. One step -/

/-- The processes that are left have the pids they had. -/
theorem PidsOk.of_kept {s s' : ForkState} (h : PidsOk s)
    (hkept : ∀ i, (s'.kernel.procTable i).state ≠ .unused →
      (s.kernel.procTable i).state ≠ .unused ∧ s'.pid i = s.pid i) : PidsOk s' := by
  refine .of_distinct ?_ ?_
  · intro i hi
    obtain ⟨hold, hpid⟩ := hkept i hi
    rw [hpid]
    exact h.positive i hold
  · intro i j hi hj heq
    obtain ⟨holdi, hpidi⟩ := hkept i hi
    obtain ⟨holdj, hpidj⟩ := hkept j hj
    exact h.distinct i j holdi holdj (hpidi.symm.trans (heq.trans hpidj))

/-- **`fork`** keeps the pids right exactly when the pid of the child is. -/
theorem pidsOk_fork_iff {s s' : ForkState} {i : ProcRef} (h : PidsOk s)
    (hcaller : s.caller = some i) (hk : s'.kernel = s.kernel.fork.1) :
    PidsOk s' ↔ s.TakesFreshPid .fork := by
  have hpid : ∀ j, s'.pid j = (s.kernel.fork.1.procTable j).pid := fun j => by rw [pid, hk]
  rcases fork_outcome (caller_eq_some hcaller).1 with ⟨hcan, c, hc⟩ | ⟨hno, hr⟩
  · have hchild : s'.pid c = s.kernel.nextPid := (hpid c).trans hc.pid
    have hused : (s'.kernel.procTable c).state ≠ .unused := by
      rw [hk, hc.state]
      simp
    have hother : ∀ j, j ≠ c → s'.kernel.procTable j = s.kernel.procTable j := fun j hj => by
      rw [hk, hc.others j hj]
    have hne : ∀ j, (s.kernel.procTable j).state ≠ .unused → j ≠ c := fun j hj e =>
      hj (e ▸ hc.free)
    constructor
    · intro hok _
      refine ⟨hchild ▸ hok.positive c hused, ?_⟩
      intro j hj heq
      have hj' : (s'.kernel.procTable j).state ≠ .unused := by rwa [hother j (hne j hj)]
      refine hne j hj (hok.distinct j c hj' hused ?_)
      rw [hchild, pid, hother j (hne j hj)]
      exact heq
    · intro hfresh
      obtain ⟨hpos, hnew⟩ := hfresh hcan
      have hcases : ∀ j, (s'.kernel.procTable j).state ≠ .unused →
          j = c ∨ (j ≠ c ∧ (s.kernel.procTable j).state ≠ .unused ∧ s'.pid j = s.pid j) := by
        intro j hj
        by_cases hjc : j = c
        · exact Or.inl hjc
        · rw [hother j hjc] at hj
          exact Or.inr ⟨hjc, hj, by rw [pid, hother j hjc, pid]⟩
      refine .of_distinct ?_ ?_
      · intro j hj
        rcases hcases j hj with rfl | ⟨-, hj, hpid⟩
        · rwa [hchild]
        · rw [hpid]
          exact h.positive j hj
      · intro j l hj hl heq
        rcases hcases j hj with rfl | ⟨-, hj, hpidj⟩ <;>
          rcases hcases l hl with rfl | ⟨-, hl, hpidl⟩
        · rfl
        · exact absurd ((hpidl.symm.trans heq.symm).trans hchild) (hnew l hl)
        · exact absurd ((hpidj.symm.trans heq).trans hchild) (hnew j hj)
        · exact h.distinct j l hj hl ((hpidj.symm.trans heq).trans hpidl)
  · refine ⟨fun _ hcan => absurd hcan hno, fun _ => ?_⟩
    refine h.of_kept ?_
    intro j hj
    have hentry : s'.kernel.procTable j = s.kernel.procTable j := by
      rw [hk] at hj ⊢
      by_cases hslot : s.kernel.allocProc.2 = some j
      · exact absurd (hr.slot j hslot).2 hj
      · exact hr.others j hslot
    exact ⟨hentry ▸ hj, by rw [pid, hentry, pid]⟩

/-- **One step** keeps the pids right exactly when it meets the condition. -/
theorem pidsOk_step_iff {s s' : ForkState} {op : ForkOp} (h : PidsOk s)
    (hs : s.step op = some s') : PidsOk s' ↔ s.TakesFreshPid op := by
  have hkeep : SameProcs s.kernel s'.kernel → (PidsOk s' ↔ True) := fun hsame =>
    iff_of_true (h.of_kept fun i hi => ⟨hsame.used i hi, hsame.pid i⟩) trivial
  cases op with
  | fork =>
    obtain ⟨i, hcaller, rfl⟩ := Option.map_eq_some_iff.mp hs
    exact pidsOk_fork_iff h hcaller rfl
  | exit status =>
    obtain ⟨i, hcaller, rfl⟩ := Option.map_eq_some_iff.mp hs
    exact hkeep (.exit status (used_of_caller hcaller))
  | wait statusAddr =>
    obtain ⟨i, -, rfl⟩ := Option.map_eq_some_iff.mp hs
    exact hkeep (.wait _ statusAddr)
  | yield => exact hkeep (Option.some.inj hs ▸ .yield _)
  | sleep =>
    obtain ⟨i, hcaller, rfl⟩ := Option.map_eq_some_iff.mp hs
    exact hkeep (.sleep (used_of_caller hcaller))
  | wakeup => exact hkeep (Option.some.inj hs ▸ .wakeup _)
  | dispatch i =>
    simp only [ForkState.step, Option.ite_none_right_eq_some, Option.some.injEq] at hs
    obtain ⟨hrun, rfl⟩ := hs
    exact hkeep (.dispatch hrun)

/-- A step that meets the condition returns a negative value only if it makes no child. -/
theorem forkTells_of_fresh {s s' : ForkState} {op : ForkOp} (hs : s.step op = some s')
    (hfresh : s.TakesFreshPid op) : s.ForkTells op := by
  cases op with
  | fork =>
    obtain ⟨i, hcaller, -⟩ := Option.map_eq_some_iff.mp hs
    rcases fork_outcome (caller_eq_some hcaller).1 with ⟨hcan, c, hc⟩ | ⟨-, hr⟩
    · intro hneg
      rw [hc.result] at hneg
      have hpos := (hfresh hcan).1
      rw [BitVec.slt_iff_toInt_lt] at hneg hpos
      exact absurd (hpos.trans hneg) (lt_irrefl _)
    · intro _ j hj
      by_cases hslot : s.kernel.allocProc.2 = some j
      · exact (hr.slot j hslot).2
      · rw [hr.others j hslot, hj]
  | exit _ | wait _ | yield | sleep | wakeup | dispatch _ => trivial

/-! ## 3. Whole runs -/

/-- After `proc_init` there is at most one process, with pid 1. -/
theorem procInit_pid (vm : Vm) : ∃ i, ∀ j, ((fresh vm).procInit.procTable j).state ≠ .unused →
    j = i ∧ ((fresh vm).procInit.procTable j).pid = 1 := by
  rcases (fresh vm).procInit_end with hend | ⟨i, k', he, hend⟩
  · rw [hend]
    exact ⟨0, fun j hj => absurd rfl hj⟩
  · have hfills := Fills.equipped he
    have hothers : ∀ j, j ≠ i → (k'.procTable j).state = .unused := by
      intro j hj
      rw [hfills.others j hj, claimProc_of_ne _ hj]
    have hpid : (k'.procTable i).pid = 1 := by
      rw [hfills.pid]
      unfold claimProc
      dsimp only
      rw [modify_self]
      rfl
    refine ⟨i, fun j hj => ?_⟩
    have hji : j = i := by
      by_contra hne
      rcases hend with hend | hend <;> rw [hend] at hj
      · exact hj (hothers j hne)
      · dsimp only at hj
        rw [modify_of_ne _ _ _ hne] at hj
        exact hj (hothers j hne)
    subst hji
    refine ⟨rfl, ?_⟩
    rcases hend with hend | hend <;> rw [hend]
    · exact hpid
    · dsimp only
      rw [modify_self, ← hpid]

theorem PidsOk.init (vm : Vm) : PidsOk (init vm) := by
  obtain ⟨i, h⟩ := procInit_pid vm
  refine .of_distinct ?_ ?_
  · intro j hj
    rw [init_kernel] at hj
    rw [pid, init_kernel, (h j hj).2]
    decide
  · intro j l hj hl _
    rw [init_kernel] at hj hl
    exact (h j hj).1.trans (h l hl).1.symm

/-- **The pids are right in every state of a run, and every `fork` of it tells whether it has made
a child, exactly when every `fork` that can make a child finds a fresh `next_pid`.** -/
theorem pidsOk_iff (vm : Vm) (ops : List ForkOp) :
    (Transition.Always step PidsOk (init vm) ops ∧
      Transition.EachStep step ForkTells (init vm) ops) ↔
    Transition.EachStep step TakesFreshPid (init vm) ops := by
  have hiff := Transition.always_iff_eachStep (C := TakesFreshPid)
    (fun _ _ _ (_ : True) h hs => ⟨pidsOk_step_iff h hs, fun _ => trivial⟩) ops (init vm) trivial
    (PidsOk.init vm)
  constructor
  · exact fun h => hiff.mp h.1
  · exact fun h => ⟨hiff.mpr h, h.mono fun _ _ _ hs hc => forkTells_of_fresh hs hc⟩

/-- After 2 ^ 31 - 2 children `next_pid` is negative, and `init` forks a process with that pid. -/
theorem negative_pid : ¬ ∀ (vm : Vm) (ops : List ForkOp),
    Transition.Always step PidsOk (init vm) ops ∧
      Transition.EachStep step ForkTells (init vm) ops := by
  intro hall
  obtain ⟨s, hs, ⟨a, ha, hidle⟩, hcan⟩ := run_children (fun _ => 0) (2 ^ 31 - 2)
  have hcaller : s.caller = some 0 := by
    refine caller_of hidle.current ?_ ?_ <;> rw [hidle.zero] <;> rcases ha with rfl | rfl <;> simp
  obtain ⟨s', hs', hk⟩ : ∃ s', s.step .fork = some s' ∧ s'.kernel = s.kernel.fork.1 :=
    ⟨_, congrArg (Option.map _) hcaller, rfl⟩
  have hok := Transition.always_iff_reachable.mp
    (fun ops => (hall (memoryTested 0x80020000 fun _ => 0) ops).1)
  have hfresh := (pidsOk_fork_iff (hok s ⟨_, hs⟩) hcaller hk).mp
    (hok s' (Transition.Reachable.tail ⟨_, hs⟩ hs'))
  have hpos := (hfresh hcan).1
  rw [hidle.nextPid] at hpos
  exact absurd hpos (by decide)

end ForkState

end Lithium
