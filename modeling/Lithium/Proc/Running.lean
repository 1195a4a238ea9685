/-
# Who is running

At most one process should be `PROC_RUNNING`, and it should be `current_process`.  `scheduler()`
marks the process it dispatches, and goes on with its loop when it is resumed; it never takes the
mark off the process it leaves.  Section 3 says which runs keep the property: those that dispatch
only when the current process is not marked, as `yield` and `sleep` leave it.
-/
import Lithium.Proc.Machine

namespace Lithium

namespace Kernel

/-! ## 1. The property -/

/-- At most one entry is `PROC_RUNNING`, and if one is, it is `current_process`. -/
structure OneRunning (k : Kernel) : Prop where
  unique : ∀ i j, (k.procTable i).state = .running → (k.procTable j).state = .running → i = j
  current : ∀ i, (k.procTable i).state = .running → k.currentProcess = some i

theorem OneRunning.of_current {k : Kernel}
    (h : ∀ i, (k.procTable i).state = .running → k.currentProcess = some i) : OneRunning k where
  unique i j hi hj := Option.some.inj ((h i hi).symm.trans (h j hj))
  current := h

/-! ## 2. What sets no mark -/

/-- From `k` to `k'` the current process stays, and nobody has been marked. -/
structure Unmarked (k k' : Kernel) : Prop where
  current : k'.currentProcess = k.currentProcess
  running : ∀ i, (k'.procTable i).state = .running → (k.procTable i).state = .running

namespace Unmarked

theorem refl (k : Kernel) : Unmarked k k := ⟨rfl, fun _ h => h⟩

theorem trans {k k' k'' : Kernel} (h : Unmarked k k') (h' : Unmarked k' k'') :
    Unmarked k k'' :=
  ⟨h'.current.trans h.current, fun i hi => h.running i (h'.running i hi)⟩

/-- An assignment that sets no mark. -/
theorem modify (k : Kernel) (i : ProcRef) {f : Proc → Proc}
    (hf : ∀ p, (f p).state = .running → p.state = .running) : Unmarked k (k.modify i f) := by
  refine ⟨rfl, ?_⟩
  intro j hj
  by_cases hji : j = i
  · rw [hji, modify_self] at hj
    rw [hji]
    exact hf _ hj
  · rwa [modify_of_ne _ _ _ hji] at hj

/-- A change of memory. -/
theorem vm (k : Kernel) (vm : Vm) : Unmarked k { k with vm := vm } := ⟨rfl, fun _ h => h⟩

/-- Pages that come or go. -/
theorem of_repaged {c : ProcRef} {k k' : Kernel} (h : Repaged c k k') : Unmarked k k' := by
  refine ⟨h.currentProcess, fun i hi => ?_⟩
  rwa [h.field Proc.state (fun _ _ _ _ => rfl) i] at hi

theorem oneRunning {k k' : Kernel} (h : Unmarked k k') (ho : OneRunning k) : OneRunning k' :=
  .of_current fun i hi => h.current.trans (ho.current i (h.running i hi))

end Unmarked

variable (k : Kernel)

theorem unmarked_claimProc (i : ProcRef) : Unmarked k (k.claimProc i) := by
  obtain ⟨hcur, hrun⟩ := Unmarked.modify k i (f := fun p => { p with
      state := .used
      pid := k.nextPid
      parent := none
      pagetable := 0
      sz := 0
      kstack := 0
      trapframe := 0
      exitCode := 0 }) (fun _ h => absurd h (by simp))
  exact ⟨hcur, hrun⟩

theorem unmarked_freeProc (i : ProcRef) : Unmarked k (k.freeProc i) := by
  obtain ⟨k₁, hk₁, hfree⟩ := k.freeProc_repaged i
  rw [hfree]
  exact (Unmarked.of_repaged hk₁).trans (.modify k₁ i fun _ h => absurd h (by simp))

/-- The steps of `proc_init` and `fork` mark nobody. -/
theorem keptBySpawn_unmarked : KeptBySpawn (Unmarked k) where
  claim {k'} i h := h.trans (k'.unmarked_claimProc i)
  adopt {k'} i _ _ h := h.trans (.modify k' i fun _ hp => hp)
  stack {k'} i h := h.trans (.of_repaged (k'.giveStack_repaged i))
  frame {k'} i h := h.trans (.of_repaged (k'.giveTrapframe_repaged i))
  inherit {k'} parent child _ h := h.trans (.of_repaged (k'.inheritTrapframe_repaged child parent))
  table {k'} i h := h.trans (.of_repaged (k'.giveTable_repaged i))
  free {k'} i h := h.trans (k'.unmarked_freeProc i)
  ready {k'} i h := h.trans (.modify k' i fun _ hp => absurd hp (by simp))

theorem unmarked_fork : Unmarked k k.fork.1 := (keptBySpawn_unmarked k).fork (.refl k)

theorem unmarked_wakeup : Unmarked k k.wakeup := by
  refine ⟨rfl, ?_⟩
  intro i hi
  rw [wakeup] at hi
  dsimp only at hi
  split at hi
  · exact absurd hi (by simp)
  · exact hi

theorem unmarked_exit (status : BitVec 32) : Unmarked k (k.exit status) := by
  unfold exit
  cases k.currentProcess with
  | none => exact .refl k
  | some i =>
    have h := Unmarked.modify k i (f := fun p => { p with exitCode := status, state := .zombie })
      (fun _ h => absurd h (by simp))
    dsimp only
    split
    · exact h.trans (unmarked_wakeup _)
    · exact h

theorem unmarked_wait (statusAddr : Word) : Unmarked k (k.wait statusAddr).1 := by
  unfold wait
  split
  · exact .refl k
  · exact (Unmarked.vm k _).trans (unmarked_freeProc _ _)

theorem unmarked_sleep : Unmarked k k.sleep := by
  unfold sleep
  split
  · exact .refl k
  · exact .modify k _ fun _ h => absurd h (by simp)

theorem unmarked_yield : Unmarked k k.yield := by
  unfold yield
  split
  · exact .refl k
  · split
    · exact .modify k _ fun _ h => absurd h (by simp)
    · exact .refl k

/-- `proc_init` marks nobody, whatever the table held. -/
theorem oneRunning_procInit : OneRunning k.procInit := by
  obtain ⟨k', h, hrun⟩ := (keptBySpawn_unmarked
    { k with procTable := fun i => { k.procTable i with state := .unused } }).procInit (.refl _)
  have hnone : ∀ i, (k'.procTable i).state ≠ .running :=
    fun i hi => absurd (h.running i hi) (by simp)
  rcases hrun with hrun | ⟨init, hrun⟩
  · rw [hrun]
    exact .of_current fun i hi => absurd hi (hnone i)
  · rw [hrun]
    exact .of_current fun i hi => absurd hi (hnone i)

theorem oneRunning_kernelMain {kend : Word} {mem : Word → Word} {statusAddr : Word} {k : Kernel}
    (h : kernelMain kend mem statusAddr = some k) : OneRunning k := by
  have hfork := (unmarked_fork _).oneRunning
    (oneRunning_procInit (fresh (memoryTested kend mem)))
  unfold kernelMain at h
  dsimp only at h
  split at h
  · exact absurd h (by simp)
  · split at h <;> rw [Option.some.injEq] at h <;> rw [← h]
    · exact (unmarked_wait _ statusAddr).oneRunning hfork
    · exact hfork

/-! ## 3. Dispatches -/

/-- **A dispatch** leaves one process running exactly when the current process was not. -/
theorem oneRunning_dispatch {k : Kernel} {i : ProcRef} (h : OneRunning k)
    (hi : (k.procTable i).state = .runnable) :
    OneRunning (k.dispatch i) ↔
      ∀ j, k.currentProcess = some j → (k.procTable j).state ≠ .running := by
  have hcur := k.dispatch_currentProcess i
  have hstate := k.dispatch_state i
  constructor
  · intro hone j hj hrun
    have hji : j ≠ i := by
      rintro rfl
      rw [hi] at hrun
      exact absurd hrun (by simp)
    exact hji (hone.unique j i (by rw [hstate, if_neg hji, hrun]) (by rw [hstate, if_pos rfl]))
  · intro hcurrent
    refine .of_current ?_
    intro j hj
    rw [hstate] at hj
    split at hj
    case isTrue heq => rw [hcur, heq]
    case isFalse => exact absurd hj (hcurrent j (h.current j hj))

end Kernel

namespace Machine

/-! ## 4. Which runs keep the property -/

/-- The condition on a step: a process is dispatched when the current one is not marked. -/
def DispatchesUnmarked (m : Machine) : KernelOp → Prop
  | .scan => (m.kernel.procTable m.kernel.currentIndex).state = .runnable →
      ∀ j, m.kernel.currentProcess = some j → (m.kernel.procTable j).state ≠ .running
  | _ => True

/-- One step keeps the property exactly when it meets the condition. -/
theorem step_oneRunning_iff {m m' : Machine} {op : KernelOp} (h : m.kernel.OneRunning)
    (hs : m.step op = some m') : m'.kernel.OneRunning ↔ m.DispatchesUnmarked op := by
  have hquiet : ∀ {k' : Kernel}, Kernel.Unmarked m.kernel k' → (k'.OneRunning ↔ True) :=
    fun hk => iff_of_true (hk.oneRunning h) trivial
  -- the counter of the loop has no part in the property
  have hadv : m.kernel.advance.OneRunning := ⟨h.unique, h.current⟩
  cases step_to hs with
  | dispatched b hrun =>
    rw [Kernel.oneRunning_dispatch hadv hrun]
    exact ⟨fun hall _ => hall, fun hcond => hcond hrun⟩
  | passed b hrun => exact iff_of_true hadv (fun hrun' => absurd hrun' hrun)
  | yielded => exact hquiet m.kernel.unmarked_yield
  | slept => exact hquiet m.kernel.unmarked_sleep
  | notSlept => exact hquiet (.refl _)
  | woken => exact hquiet m.kernel.unmarked_wakeup
  | forked => exact hquiet m.kernel.unmarked_fork
  | exited status => exact hquiet (m.kernel.unmarked_exit status)
  | notExited => exact hquiet (.refl _)
  | waited statusAddr => exact hquiet (m.kernel.unmarked_wait statusAddr)

/-- **At most one process is running, and it is the current one, exactly in the runs that
dispatch only when the current process is not marked.** -/
theorem oneRunning_iff_dispatchesUnmarked {kend : Word} {mem : Word → Word} {statusAddr : Word}
    {k : Kernel} (h : Kernel.kernelMain kend mem statusAddr = some k) (ops : List KernelOp) :
    Transition.Always step (fun m => m.kernel.OneRunning) ⟨k, true⟩ ops ↔
      Transition.EachStep step DispatchesUnmarked ⟨k, true⟩ ops :=
  @Transition.always_iff_eachStep _ _ step _ (fun _ => True) _
    (fun _ _ _ _ hone hs => ⟨step_oneRunning_iff hone hs, fun _ => trivial⟩)
    ops _ trivial (Kernel.oneRunning_kernelMain h)

theorem oneRunning_iff_dispatchesUnmarked_yields :
    ∃ k, Kernel.kernelMain 0x80020000 (fun _ => 0) 0x8001FFF0 = some k ∧
      (Transition.Always step (fun m => m.kernel.OneRunning) ⟨k, true⟩ [.scan, .yield, .scan] ↔
        Transition.EachStep step DispatchesUnmarked ⟨k, true⟩ [.scan, .yield, .scan]) := by
  obtain ⟨k, hk, -⟩ := Kernel.kernelMain_two (Kernel.memoryTested_room fun _ => 0) 0x8001FFF0
  exact ⟨k, hk, oneRunning_iff_dispatchesUnmarked hk _⟩

/-- The first two passes of the loop dispatch `init`, which is resumed in the loop, and then its
child: both are marked. -/
theorem init_and_child_running : ¬ ∀ (kend : Word) (mem : Word → Word) (statusAddr : Word)
    (k : Kernel), Kernel.kernelMain kend mem statusAddr = some k → ∀ ops,
      Transition.Always step (fun m => m.kernel.OneRunning) ⟨k, true⟩ ops := by
  intro h
  obtain ⟨k, hk, h₀, h₁, hcur, hidx⟩ :=
    Kernel.kernelMain_two (Kernel.memoryTested_room fun _ => 0) 0x8001FFF0
  set k₁ := k.advance.dispatch 0 with hk₁
  set k₂ := k₁.advance.dispatch 1 with hk₂
  have hstate₁ : ∀ j, (k₁.procTable j).state = if j = 0 then .running else (k.procTable j).state :=
    k.advance.dispatch_state 0
  have hstate₂ : ∀ j, (k₂.procTable j).state =
      if j = 1 then .running else (k₁.procTable j).state :=
    k₁.advance.dispatch_state 1
  have hidx₁ : k₁.currentIndex = 1 := by
    rw [hk₁, Kernel.dispatch_currentIndex, Kernel.advance, hidx]
    rfl
  have hscan₁ : step ⟨k, true⟩ .scan = some ⟨k₁, true⟩ := by
    have hctx := k.advance.dispatch_context_self 0 hcur
    have hrun : (k.advance.procTable 0).state = .runnable := h₀
    simp only [step, if_true, hidx]
    rw [if_pos hrun, ← hk₁, hctx]
    rfl
  obtain ⟨b, hscan₂⟩ : ∃ b, step ⟨k₁, true⟩ .scan = some ⟨k₂, b⟩ := by
    have hrun : (k₁.advance.procTable 1).state = .runnable := (hstate₁ 1).trans h₁
    simp only [step, if_true, hidx₁]
    rw [if_pos hrun]
    exact ⟨_, rfl⟩
  have hreach : Transition.run step ⟨k, true⟩ [.scan, .scan] = some ⟨k₂, b⟩ := by
    rw [Transition.run_cons, hscan₁, Option.bind_some, Transition.run_cons, hscan₂]
    rfl
  have hone := Transition.always_iff_reachable.mp (h _ _ _ k hk) _ ⟨_, hreach⟩
  exact absurd (hone.unique 0 1 (by rw [hstate₂, hstate₁]; rfl) (by rw [hstate₂]; rfl)) (by decide)

end Machine

end Lithium
