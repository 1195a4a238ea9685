/-
# The round of the scheduler

`scheduler` with its two loops.  Each call of it is a copy of the loops with an `i` of its own, and
`context_switch` leaves one copy for another; `current_index` is one for all of them.  What the
processes do in between may change the table in any way.

The entries that the copies come to, one after the other, are the table in cyclic order
(`exams_order`).  A process that is runnable and not yet dispatched has not been come to, so that
what has been dispatched meanwhile is all different: `bypass`.
-/
import Lithium.Lib.Cyclic
import Lithium.Lib.Transition
import Lithium.Proc.Machine

namespace Lithium

open Cyclic Transition

/-! ## 1. The loops -/

/-- The kernel, `i` of the copy of the loops that runs, if the code that runs is in one, and `i` of
the copy that the context of each process leads to. -/
structure SchedState where
  kernel : Kernel
  loop : Option Nat
  saved : ProcRef → Option Nat

/-- What happens next. -/
inductive SchedOp where
  /-- The body of the inner loop, for one entry. -/
  | scan
  | yield
  | sleep
  | wakeup
  | fork
  | exit (status : BitVec 32)
  | wait (statusAddr : Word)
  /-- Any other change to the processes. -/
  | evolve (procTable : ProcRef → Proc)

namespace SchedState

/-- The body of the inner loop, for the entry `p`; `next` is `i` after it. -/
def scan (s : SchedState) (next : Nat) : SchedState :=
  let p := s.kernel.currentIndex
  let k := s.kernel.advance
  if (k.procTable p).state = .runnable then
    let saved :=
      match k.currentProcess with
      | some prev => Function.update s.saved prev (some next)
      | none => s.saved
    { kernel := k.dispatch p, loop := saved p, saved := saved }
  else { s with kernel := k, loop := some next }

/-- One step.  The outer loop starts the inner one again when `i` has come to `NPROC`. -/
def step (s : SchedState) : SchedOp → Option SchedState
  | .scan => s.loop.map fun i => s.scan (if i < nproc then i + 1 else 1)
  | .yield => some { s with kernel := s.kernel.yield, loop := some 0 }
  | .sleep =>
    if s.kernel.currentProcess = none then some s
    else some { s with kernel := s.kernel.sleep, loop := some 0 }
  | .wakeup => some { s with kernel := s.kernel.wakeup }
  | .fork => some { s with kernel := s.kernel.fork.1 }
  | .exit status =>
    if s.kernel.currentProcess = none then some s
    else some { s with kernel := s.kernel.exit status, loop := none }
  | .wait statusAddr => some { s with kernel := (s.kernel.wait statusAddr).1 }
  | .evolve procTable => some { s with kernel := { s.kernel with procTable := procTable } }

/-! ## 2. What a run dispatches -/

/-- Process `p` is runnable. -/
def Runnable (s : SchedState) (p : ProcRef) : Prop := (s.kernel.procTable p).state = .runnable

instance (s : SchedState) (p : ProcRef) : Decidable (s.Runnable p) :=
  inferInstanceAs (Decidable (_ = _))

/-- The entry that the step comes to, and whether it dispatches it. -/
def exam (s : SchedState) : SchedOp → Option (ProcRef × Bool)
  | .scan => s.loop.map fun _ => (s.kernel.currentIndex, decide (s.Runnable s.kernel.currentIndex))
  | _ => none

/-- The entries that a run comes to. -/
def exams : SchedState → List SchedOp → List (ProcRef × Bool)
  | _, [] => []
  | s, op :: ops =>
    match s.step op with
    | none => []
    | some s' => (s.exam op).toList ++ exams s' ops

/-- The processes that a run dispatches. -/
def dispatches (s : SchedState) (ops : List SchedOp) : List ProcRef :=
  ((s.exams ops).filter Prod.snd).map Prod.fst

/-! ## 3. One step -/

variable {s s' : SchedState} {op : SchedOp} {ops : List SchedOp} {p : ProcRef}

/-- What `exam` says is what the step does. -/
theorem scan_dispatches (h : s.Runnable s.kernel.currentIndex) (next : Nat) :
    (s.scan next).kernel = s.kernel.advance.dispatch s.kernel.currentIndex := by
  rw [scan]
  exact (congrArg kernel (if_pos h)).trans rfl

theorem scan_passes (h : ¬ s.Runnable s.kernel.currentIndex) (next : Nat) :
    (s.scan next).kernel = s.kernel.advance := by
  rw [scan]
  exact (congrArg kernel (if_neg h)).trans rfl

@[simp] theorem scan_currentIndex (s : SchedState) (next : Nat) :
    (s.scan next).kernel.currentIndex = s.kernel.currentIndex + 1 := by
  by_cases h : s.Runnable s.kernel.currentIndex
  · rw [scan_dispatches h, Kernel.dispatch_currentIndex, Kernel.advance]
  · rw [scan_passes h, Kernel.advance]

theorem freeProc_currentIndex (k : Kernel) (i : ProcRef) :
    (k.freeProc i).currentIndex = k.currentIndex := by
  obtain ⟨k₁, hk₁, hfree⟩ := k.freeProc_repaged i
  rw [hfree, Kernel.modify_currentIndex, hk₁.currentIndex]

/-- The steps of `fork` do not move the scan. -/
theorem keptBySpawn_currentIndex (c : ProcRef) :
    Kernel.KeptBySpawn fun k => k.currentIndex = c where
  claim _ h := h
  adopt _ _ _ h := h
  stack {k} i h := (k.giveStack_repaged i).currentIndex.trans h
  frame {k} i h := (k.giveTrapframe_repaged i).currentIndex.trans h
  inherit {k} parent child _ h := (k.inheritTrapframe_repaged child parent).currentIndex.trans h
  table {k} i h := (k.giveTable_repaged i).currentIndex.trans h
  free i h := (freeProc_currentIndex _ i).trans h
  ready _ h := h

theorem fork_currentIndex (k : Kernel) : k.fork.1.currentIndex = k.currentIndex :=
  (keptBySpawn_currentIndex k.currentIndex).fork rfl

theorem exit_currentIndex (k : Kernel) (status : BitVec 32) :
    (k.exit status).currentIndex = k.currentIndex := by
  unfold Kernel.exit
  cases k.currentProcess with
  | none => rfl
  | some i =>
    dsimp only
    split <;> rfl

theorem wait_currentIndex (k : Kernel) (statusAddr : Word) :
    (k.wait statusAddr).1.currentIndex = k.currentIndex := by
  unfold Kernel.wait
  split
  · rfl
  · exact freeProc_currentIndex _ _

theorem sleep_currentIndex (k : Kernel) : k.sleep.currentIndex = k.currentIndex := by
  unfold Kernel.sleep
  cases k.currentProcess <;> rfl

theorem yield_currentIndex (k : Kernel) : k.yield.currentIndex = k.currentIndex := by
  unfold Kernel.yield
  cases k.currentProcess with
  | none => rfl
  | some i =>
    dsimp only
    split <;> rfl

/-- **The scan moves on by the entry it comes to**, and nothing else moves it. -/
theorem step_currentIndex (hs : s.step op = some s') :
    (s.exam op = none ∧ s'.kernel.currentIndex = s.kernel.currentIndex) ∨
    (s.exam op = some (s.kernel.currentIndex, decide (s.Runnable s.kernel.currentIndex)) ∧
      s'.kernel.currentIndex = s.kernel.currentIndex + 1) := by
  cases op with
  | scan =>
    obtain ⟨i, hi, rfl⟩ := Option.map_eq_some_iff.mp hs
    exact Or.inr ⟨by rw [exam, hi, Option.map_some], scan_currentIndex s _⟩
  | yield =>
    obtain rfl := Option.some.inj hs
    exact Or.inl ⟨rfl, yield_currentIndex _⟩
  | sleep =>
    refine Or.inl ⟨rfl, ?_⟩
    rw [step] at hs
    split at hs <;> obtain rfl := Option.some.inj hs
    · rfl
    · exact sleep_currentIndex _
  | wakeup =>
    obtain rfl := Option.some.inj hs
    exact Or.inl ⟨rfl, rfl⟩
  | fork =>
    obtain rfl := Option.some.inj hs
    exact Or.inl ⟨rfl, fork_currentIndex _⟩
  | exit status =>
    refine Or.inl ⟨rfl, ?_⟩
    rw [step] at hs
    split at hs <;> obtain rfl := Option.some.inj hs
    · rfl
    · exact exit_currentIndex _ _
  | wait statusAddr =>
    obtain rfl := Option.some.inj hs
    exact Or.inl ⟨rfl, wait_currentIndex _ _⟩
  | evolve procTable =>
    obtain rfl := Option.some.inj hs
    exact Or.inl ⟨rfl, rfl⟩

/-- A dispatched process is no longer runnable. -/
theorem not_runnable_of_exam (hs : s.step op = some s') (h : s.exam op = some (p, true)) :
    ¬ s'.Runnable p := by
  cases op with
  | scan =>
    obtain ⟨i, hi, rfl⟩ := Option.map_eq_some_iff.mp hs
    rw [exam, hi, Option.map_some, Option.some.injEq, Prod.mk.injEq, decide_eq_true_eq] at h
    obtain ⟨rfl, hrun⟩ := h
    rw [Runnable, scan_dispatches hrun, Kernel.dispatch_state, if_pos rfl]
    decide
  | _ => cases h

/-! ## 4. Whole runs -/

theorem exams_cons (hs : s.step op = some s') (ops : List SchedOp) :
    s.exams (op :: ops) = (s.exam op).toList ++ s'.exams ops := by
  rw [exams, hs]

/-- **The entries come in cyclic order**, however many copies of the loops there are and whatever
happens in between. -/
theorem exams_order (s : SchedState) (ops : List SchedOp) :
    (s.exams ops).map Prod.fst = visits s.kernel.currentIndex (s.exams ops).length := by
  induction ops generalizing s with
  | nil => rfl
  | cons op ops ih =>
    cases hs : s.step op with
    | none =>
      have hnil : s.exams (op :: ops) = [] := by rw [exams, hs]
      rw [hnil]
      rfl
    | some s' =>
      rw [exams_cons hs]
      rcases step_currentIndex hs with ⟨hnone, hindex⟩ | ⟨hexam, hindex⟩
      · rw [hnone, Option.toList_none, List.nil_append, ih, hindex]
      · rw [hexam, Option.toList_some, List.singleton_append, List.map_cons, ih, hindex]
        rfl

/-- A process that stays runnable has not been come to. -/
theorem not_mem_exams {i : ProcRef} (h : Always step (fun s => s.Runnable i) s ops) :
    i ∉ (s.exams ops).map Prod.fst := by
  induction ops generalizing s with
  | nil => exact List.not_mem_nil
  | cons op ops ih =>
    cases hs : s.step op with
    | none =>
      have hnil : s.exams (op :: ops) = [] := by rw [exams, hs]
      rw [hnil]
      exact List.not_mem_nil
    | some s' =>
      have hrest := h.2 s' hs
      rw [exams_cons hs]
      rcases step_currentIndex hs with ⟨hnone, -⟩ | ⟨hexam, -⟩
      · rw [hnone, Option.toList_none, List.nil_append]
        exact ih hrest
      · rw [hexam, Option.toList_some, List.singleton_append, List.map_cons, List.mem_cons]
        rintro (rfl | hmem)
        · -- it would have been dispatched
          rw [decide_eq_true h.1] at hexam
          exact not_runnable_of_exam hs hexam hrest.head
        · exact ih hrest hmem

theorem dispatches_sublist (s : SchedState) (ops : List SchedOp) :
    (s.dispatches ops).Sublist ((s.exams ops).map Prod.fst) :=
  List.filter_sublist.map _

/-- **Bounded bypass.** -/
theorem bypass {i : ProcRef} (h : Always step (fun s => s.Runnable i) s ops) :
    (s.dispatches ops).Nodup ∧ i ∉ s.dispatches ops ∧ (s.dispatches ops).length ≤ nproc - 1 := by
  have hsub := dispatches_sublist s ops
  have hnot := not_mem_exams h
  have hvisits := exams_order s ops
  rw [hvisits] at hsub hnot
  refine ⟨(nodup_of_not_mem hnot).sublist hsub, fun hi => hnot (hsub.subset hi), ?_⟩
  have hlen := hsub.length_le
  rw [length_visits] at hlen
  have hlt := lt_of_not_mem hnot
  omega

/-- Running two lists one after the other. -/
theorem exams_append {ks : List SchedOp} (hs : run step s ks = some s') (ls : List SchedOp) :
    s.exams (ks ++ ls) = s.exams ks ++ s'.exams ls := by
  induction ks generalizing s with
  | nil =>
    obtain rfl := Option.some.inj hs
    rfl
  | cons op ks ih =>
    rw [run_cons, Option.bind_eq_some_iff] at hs
    obtain ⟨s1, hs1, hrest⟩ := hs
    rw [List.cons_append, exams_cons hs1, exams_cons hs1, ih hrest, List.append_assoc]

/-- What a run has come to without dispatching anything was not runnable then. -/
theorem passed_of_dispatches_nil {j : ProcRef} (h : s.dispatches ops = [])
    (hj : j ∈ (s.exams ops).map Prod.fst) : (j, false) ∈ s.exams ops := by
  obtain ⟨⟨j', b⟩, hmem, rfl⟩ := List.mem_map.mp hj
  rw [dispatches, List.map_eq_nil_iff, List.filter_eq_nil_iff] at h
  have hb : b = false := by simpa using h _ hmem
  exact hb ▸ hmem

/-- **The process that is dispatched next**: all entries before it were passed. -/
theorem passed_before (hrun : run step s ops = some s') (hnone : s.dispatches ops = [])
    (hpick : s'.exam .scan = some (p, true)) {j : ProcRef}
    (hj : ahead s.kernel.currentIndex j < ahead s.kernel.currentIndex p) :
    (j, false) ∈ s.exams ops := by
  have hnext : s'.exams [.scan] = [(p, true)] := by
    cases hs' : s'.step .scan with
    | none =>
      rw [step, Option.map_eq_none_iff] at hs'
      rw [exam, hs'] at hpick
      cases hpick
    | some s'' => rw [exams_cons hs', hpick]; rfl
  have hall : s.exams (ops ++ [.scan]) = s.exams ops ++ [(p, true)] := by
    rw [exams_append hrun, hnext]
  have hvisits := exams_order s (ops ++ [.scan])
  rw [hall, List.map_append, exams_order s ops, List.length_append] at hvisits
  have hle : ahead s.kernel.currentIndex p ≤ _ := ahead_le_of_visits_succ hvisits.symm
  refine passed_of_dispatches_nil hnone ?_
  rw [exams_order s ops, mem_visits]
  omega

/-- A passed entry was not runnable in one of the states of the run. -/
theorem not_runnable_of_passed {j : ProcRef} (h : (j, false) ∈ s.exams ops) :
    ¬ Always step (fun s => s.Runnable j) s ops := fun halways =>
  not_mem_exams halways (List.mem_map.mpr ⟨_, h, rfl⟩)

/-- What `scheduler` promises of a run. -/
structure RoundRobin (s : SchedState) (ops : List SchedOp) : Prop where
  /-- Among the entries that the scan comes to next, in cyclic order, the first that is runnable
  when the scan comes to it is dispatched. -/
  passed : ∀ s' p, run step s ops = some s' → s.dispatches ops = [] →
    s'.exam .scan = some (p, true) → s'.Runnable p ∧
    ∀ j, ahead s.kernel.currentIndex j < ahead s.kernel.currentIndex p → (j, false) ∈ s.exams ops
  /-- It is the first runnable one when none has become or ceased to be runnable meanwhile. -/
  first : ∀ s' p, run step s ops = some s' → s.dispatches ops = [] →
    s'.exam .scan = some (p, true) →
    Always step (fun t => ∀ j, t.Runnable j ↔ s.Runnable j) s ops →
    First s.Runnable s.kernel.currentIndex p
  /-- While `i` is runnable and not dispatched, no process is dispatched twice. -/
  bypass : ∀ i, Always step (fun s => s.Runnable i) s ops →
    (s.dispatches ops).Nodup ∧ i ∉ s.dispatches ops ∧ (s.dispatches ops).length ≤ nproc - 1

theorem runnable_of_exam (h : s.exam .scan = some (p, true)) : s.Runnable p := by
  obtain ⟨i, -, heq⟩ := Option.map_eq_some_iff.mp h
  rw [Prod.mk.injEq, decide_eq_true_eq] at heq
  exact heq.1 ▸ heq.2

/-- **The scheduler goes round**: from every process table and every `current_index`, in every run
of any number of copies of its loops, whatever happens to the processes in between. -/
theorem roundRobin (s : SchedState) (ops : List SchedOp) : RoundRobin s ops where
  passed _ _ hrun hnone hpick :=
    ⟨runnable_of_exam hpick, fun _ hj => passed_before hrun hnone hpick hj⟩
  first s' p hrun hnone hpick hsame := by
    have hend := (always_iff_forall_part ops s).mp hsame ops s' (List.prefix_refl ops) hrun
    refine ⟨(hend p).mp (runnable_of_exam hpick), fun j hj hrunnable => ?_⟩
    exact not_runnable_of_passed (passed_before hrun hnone hpick hj)
      (hsame.mono fun t ht => (ht j).mpr hrunnable)
  bypass _ h := bypass h

end SchedState

end Lithium
