/-
# Whose children `wait` reaps

`child->parent` is a pointer to the entry of the process that called `fork`.  `exit` leaves the
children of the process as they are, and `free_proc` leaves the pointers to the entry it frees;
so a child whose parent has exited and has been reaped points to a free entry, and to a stranger
as soon as `fork` takes the entry again.  No orphan is ever given to `init`, as `init.c` expects.

Section 4 says which runs have `wait` return children of its caller only: those in which no
`fork` takes an entry that a child still points to.
-/
import Lithium.Proc.Machine

namespace Lithium

/-! ## 1. Runs of `fork`, `exit` and `wait` -/

/-- The kernel, with the results of all calls of `fork` beside the pids of the callers, and the
pids of the processes that have called `exit`. -/
structure ForkState where
  kernel : Kernel
  forks : List (Pid × Pid)
  exited : List Pid

/-- A call of the current process, or a dispatch. -/
inductive ForkOp where
  | fork
  | exit (status : BitVec 32)
  | wait (statusAddr : Word)
  | yield
  | sleep
  | wakeup
  | dispatch (i : ProcRef)

namespace ForkState

/-- The current process, unless it has ended. -/
def caller (s : ForkState) : Option ProcRef :=
  s.kernel.currentProcess.filter fun i =>
    (s.kernel.procTable i).state != .unused && (s.kernel.procTable i).state != .zombie

/-- The pid of an entry. -/
def pid (s : ForkState) (i : ProcRef) : Pid := (s.kernel.procTable i).pid

/-- Replace the kernel. -/
def put (s : ForkState) (k : Kernel) : ForkState := { s with kernel := k }

/-- One step. -/
def step (s : ForkState) : ForkOp → Option ForkState
  | .fork => s.caller.map fun i =>
      { s with kernel := s.kernel.fork.1, forks := (s.pid i, s.kernel.fork.2) :: s.forks }
  | .exit status => s.caller.map fun i =>
      { s with kernel := s.kernel.exit status, exited := s.pid i :: s.exited }
  | .wait statusAddr => s.caller.map fun _ => s.put (s.kernel.wait statusAddr).1
  | .yield => some (s.put s.kernel.yield)
  | .sleep => s.caller.map fun _ => s.put s.kernel.sleep
  | .wakeup => some (s.put s.kernel.wakeup)
  | .dispatch i =>
    if (s.kernel.procTable i).state = .runnable then some (s.put (s.kernel.dispatch i)) else none

/-- After `proc_init`, whatever memory holds. -/
def init (vm : Vm) : ForkState := ⟨(Kernel.fresh vm).procInit, [], []⟩

/-- The process in entry `i` has forked `c`; or it is `init`, which has pid 1, and who has forked
`c` has exited. -/
def Forked (s : ForkState) (i : ProcRef) (c : Pid) : Prop :=
  (s.pid i, c) ∈ s.forks ∨ (s.pid i = 1 ∧ ∃ q ∈ s.exited, (q, c) ∈ s.forks)

/-- What `wait` returns, if it is a pid, was forked by its caller, and every `parent` points to
the process that has forked the child. -/
structure OwnChildren (s : ForkState) : Prop where
  reaped : ∀ i statusAddr, s.caller = some i → BitVec.slt 0 (s.kernel.wait statusAddr).2 = true →
    s.Forked i (s.kernel.wait statusAddr).2
  parent : ∀ c i, (s.kernel.procTable c).state ≠ .unused →
    (s.kernel.procTable c).parent = some i → s.Forked i (s.pid c)

/-- The condition on a step: `fork` does not take a free entry to which a child still points. -/
def TakesUnnamed (s : ForkState) : ForkOp → Prop
  | .fork => ∀ i, s.kernel.allocProc.2 = some i →
      ∀ c, (s.kernel.procTable c).state ≠ .unused → (s.kernel.procTable c).parent ≠ some i
  | _ => True

instance (s : ForkState) : ∀ op, Decidable (s.TakesUnnamed op)
  | .fork => inferInstanceAs (Decidable (∀ i, s.kernel.allocProc.2 = some i →
      ∀ c, (s.kernel.procTable c).state ≠ .unused → (s.kernel.procTable c).parent ≠ some i))
  | .exit _ | .wait _ | .yield | .sleep | .wakeup | .dispatch _ => isTrue trivial

end ForkState

/-! ## 2. What a call does to the entries -/

namespace Kernel

/-- From `k` to `k'` nothing but entry `c` has changed in the table, and that entry is still the
same process. -/
structure Fills (c : ProcRef) (k k' : Kernel) : Prop where
  others : ∀ j, j ≠ c → k'.procTable j = k.procTable j
  pid : (k'.procTable c).pid = (k.procTable c).pid
  parent : (k'.procTable c).parent = (k.procTable c).parent

namespace Fills

variable {c : ProcRef}

theorem trans {k k' k'' : Kernel} (h : Fills c k k') (h' : Fills c k' k'') : Fills c k k'' :=
  ⟨fun j hj => (h'.others j hj).trans (h.others j hj), h'.pid.trans h.pid,
    h'.parent.trans h.parent⟩

theorem modify (k : Kernel) {f : Proc → Proc} (hpid : ∀ p, (f p).pid = p.pid)
    (hparent : ∀ p, (f p).parent = p.parent) : Fills c k (k.modify c f) := by
  refine ⟨fun j hj => modify_of_ne k c f hj, ?_, ?_⟩
  · rw [modify_self, hpid]
  · rw [modify_self, hparent]

theorem vm (k : Kernel) (vm : Vm) : Fills c k { k with vm := vm } := ⟨fun _ _ => rfl, rfl, rfl⟩

theorem of_repaged {k k' : Kernel} (h : Repaged c k k') : Fills c k k' :=
  ⟨fun _ hj => h.others hj, h.field Proc.pid (fun _ _ _ _ => rfl) c,
    h.field Proc.parent (fun _ _ _ _ => rfl) c⟩

theorem freeProc (c : ProcRef) (k : Kernel) : Fills c k (k.freeProc c) := by
  obtain ⟨k₁, hk₁, hfree⟩ := k.freeProc_repaged c
  rw [hfree]
  exact (Fills.of_repaged hk₁).trans (.modify k₁ (fun _ => rfl) fun _ => rfl)

theorem equipped {k k' : Kernel} (h : Equipped c k k') : Fills c k k' := .of_repaged h.repaged

end Fills

theorem freeProc_state (k : Kernel) (c : ProcRef) :
    ((k.freeProc c).procTable c).state = .unused := by
  rw [freeProc, modify_self]

/-- **`fork`**: nothing happens, or one free entry has been taken, which ends up free again or
holds a child of the caller, whose pid is the result. -/
theorem fork_cases {k : Kernel} {i : ProcRef} (hcur : k.currentProcess = some i) :
    k.fork.1 = k ∨ ∃ c, (k.procTable c).state = .unused ∧ k.allocProc.2 = some c ∧
      (∀ j, j ≠ c → k.fork.1.procTable j = k.procTable j) ∧
      ((k.fork.1.procTable c).state = .unused ∨
        ((k.fork.1.procTable c).parent = some i ∧ k.fork.2 = (k.fork.1.procTable c).pid)) := by
  rcases k.fork_end with hend | ⟨parent, c, k', hcur', hfree, halloc, he, hend⟩
  · exact Or.inl (by rw [hend])
  · obtain rfl : i = parent := Option.some.inj (hcur.symm.trans hcur')
    refine Or.inr ⟨c, hfree, halloc, ?_⟩
    have hfills := Fills.equipped he
    have hothers : ∀ j, j ≠ c → k'.procTable j = k.procTable j := by
      intro j hj
      rw [hfills.others j hj, modify_of_ne _ _ _ hj, claimProc_of_ne _ hj]
    have hparent : (k'.procTable c).parent = some i := by rw [hfills.parent, modify_self]
    rcases hend with hend | hend
    · rw [hend]
      refine ⟨fun j hj => ?_, Or.inl (k'.freeProc_state c)⟩
      rw [(Fills.freeProc c k').others j hj, hothers j hj]
    · rw [hend]
      refine ⟨fun j hj => ?_, Or.inr ⟨?_, ?_⟩⟩
      · rw [modify_of_ne _ _ _ hj, hothers j hj]
      · rw [modify_self, hparent]
      · rw [modify_self]

/-- **`wait`**: nothing happens for want of a zombie that points to the caller, or such a zombie is
freed, and its pid is the result. -/
theorem wait_cases (k : Kernel) (statusAddr : Word) :
    (k.wait statusAddr = (k, -1) ∧ ∀ c, (k.procTable c).parent = k.currentProcess →
      (k.procTable c).state ≠ .zombie) ∨ ∃ c, (k.procTable c).parent = k.currentProcess ∧
      (k.procTable c).state = .zombie ∧ (k.wait statusAddr).2 = (k.procTable c).pid ∧
      ((k.wait statusAddr).1.procTable c).state = .unused ∧
      Fills c k (k.wait statusAddr).1 := by
  unfold wait
  cases hfind : (List.finRange nproc).find? fun i =>
      (k.procTable i).parent == k.currentProcess && (k.procTable i).state == .zombie with
  | none =>
    refine Or.inl ⟨rfl, fun c hparent hzombie => ?_⟩
    have hc := List.find?_eq_none.mp hfind c (List.mem_finRange c)
    simp [hparent, hzombie] at hc
  | some c =>
    have hc := List.find?_some hfind
    simp only [Bool.and_eq_true, beq_iff_eq] at hc
    exact Or.inr ⟨c, hc.1, hc.2, rfl, freeProc_state _ c, (Fills.vm k _).trans (.freeProc c _)⟩

/-- From `k` to `k'` the entries are the same processes, but for those that have been freed. -/
structure SameProcs (k k' : Kernel) : Prop where
  pid : ∀ j, (k'.procTable j).pid = (k.procTable j).pid
  parent : ∀ j, (k'.procTable j).parent = (k.procTable j).parent
  used : ∀ j, (k'.procTable j).state ≠ .unused → (k.procTable j).state ≠ .unused

namespace SameProcs

theorem refl (k : Kernel) : SameProcs k k := ⟨fun _ => rfl, fun _ => rfl, fun _ h => h⟩

theorem trans {k k' k'' : Kernel} (h : SameProcs k k') (h' : SameProcs k' k'') :
    SameProcs k k'' :=
  ⟨fun j => (h'.pid j).trans (h.pid j), fun j => (h'.parent j).trans (h.parent j),
    fun j hj => h.used j (h'.used j hj)⟩

/-- An assignment to an entry that is in use. -/
theorem modify (k : Kernel) {i : ProcRef} {f : Proc → Proc} (hi : (k.procTable i).state ≠ .unused)
    (hpid : ∀ p, (f p).pid = p.pid) (hparent : ∀ p, (f p).parent = p.parent) :
    SameProcs k (k.modify i f) := by
  refine ⟨modify_field k i f Proc.pid hpid, modify_field k i f Proc.parent hparent, ?_⟩
  intro j hj
  by_cases hji : j = i
  · rwa [hji]
  · rwa [modify_of_ne _ _ _ hji] at hj

theorem wakeup (k : Kernel) : SameProcs k k.wakeup := by
  have hentry : ∀ j, (k.wakeup.procTable j).pid = (k.procTable j).pid ∧
      (k.wakeup.procTable j).parent = (k.procTable j).parent ∧
      ((k.procTable j).state = .unused → (k.wakeup.procTable j).state = .unused) := by
    intro j
    unfold Kernel.wakeup
    dsimp only
    split
    case isTrue h => exact ⟨rfl, rfl, fun hj => absurd (h.symm.trans hj) (by simp)⟩
    case isFalse => exact ⟨rfl, rfl, id⟩
  exact ⟨fun j => (hentry j).1, fun j => (hentry j).2.1,
    fun j hj hun => hj ((hentry j).2.2 hun)⟩

theorem exit {k : Kernel} (status : BitVec 32)
    (h : ∀ i, k.currentProcess = some i → (k.procTable i).state ≠ .unused) :
    SameProcs k (k.exit status) := by
  unfold Kernel.exit
  cases hcur : k.currentProcess with
  | none => exact .refl k
  | some i =>
    have hmod : SameProcs k (k.modify i fun p => { p with exitCode := status, state := .zombie }) :=
      .modify k (h i hcur) (fun _ => rfl) fun _ => rfl
    dsimp only
    split
    · exact hmod.trans (.wakeup _)
    · exact hmod

theorem sleep {k : Kernel}
    (h : ∀ i, k.currentProcess = some i → (k.procTable i).state ≠ .unused) :
    SameProcs k k.sleep := by
  unfold Kernel.sleep
  cases hcur : k.currentProcess with
  | none => exact .refl k
  | some i => exact .modify k (h i hcur) (fun _ => rfl) fun _ => rfl

theorem yield (k : Kernel) : SameProcs k k.yield := by
  unfold Kernel.yield
  cases k.currentProcess with
  | none => exact .refl k
  | some i =>
    dsimp only
    split
    case isTrue hrun => exact .modify k (by simp [hrun]) (fun _ => rfl) fun _ => rfl
    case isFalse => exact .refl k

theorem dispatch {k : Kernel} {i : ProcRef} (hi : (k.procTable i).state = .runnable) :
    SameProcs k (k.dispatch i) := by
  have hfield : ∀ {α : Type} (g : Proc → α), (∀ p c, g { p with context := c } = g p) →
      (∀ p, g { p with state := .running } = g p) →
      ∀ j, g ((k.dispatch i).procTable j) = g (k.procTable j) := by
    intro α g hg hrun j
    rw [dispatch_field k i g hg j]
    split
    case isTrue hj => rw [hrun, hj]
    case isFalse => rfl
  refine ⟨hfield Proc.pid (fun _ _ => rfl) fun _ => rfl,
    hfield Proc.parent (fun _ _ => rfl) fun _ => rfl, ?_⟩
  intro j hj
  rw [dispatch_state] at hj
  split at hj
  case isTrue heq => simp [heq, hi]
  case isFalse => exact hj

theorem wait (k : Kernel) (statusAddr : Word) : SameProcs k (k.wait statusAddr).1 := by
  rcases k.wait_cases statusAddr with ⟨hnone, -⟩ | ⟨c, -, -, -, hfreed, hfills⟩
  · rw [hnone]
    exact .refl k
  · have hentry : ∀ j, ((k.wait statusAddr).1.procTable j).pid = (k.procTable j).pid ∧
        ((k.wait statusAddr).1.procTable j).parent = (k.procTable j).parent ∧
        (((k.wait statusAddr).1.procTable j).state ≠ .unused →
          (k.procTable j).state ≠ .unused) := by
      intro j
      by_cases hj : j = c
      · rw [hj]
        exact ⟨hfills.pid, hfills.parent, fun hused => absurd hfreed hused⟩
      · rw [hfills.others j hj]
        exact ⟨rfl, rfl, id⟩
    exact ⟨fun j => (hentry j).1, fun j => (hentry j).2.1, fun j => (hentry j).2.2⟩

end SameProcs

/-- `proc_init` leaves a table in which nobody points to anybody. -/
theorem procInit_parent (vm : Vm) (c : ProcRef) :
    ((fresh vm).procInit.procTable c).parent = none := by
  rcases (fresh vm).procInit_end with hend | ⟨i, k', he, hend⟩
  · rw [hend]
    rfl
  · have hfills := Fills.equipped he
    have hkept : (k'.procTable c).parent = none := by
      by_cases hci : c = i
      · rw [hci, hfills.parent, claimProc_parent]
      · rw [hfills.others c hci, claimProc_of_ne _ hci]
        rfl
    rcases hend with hend | hend
    · rw [hend, hkept]
    · rw [hend]
      dsimp only
      rw [modify_field k' i (fun p => { p with state := .runnable }) Proc.parent fun _ => rfl,
        hkept]

end Kernel

namespace ForkState

/-! ## 3. The invariant -/

/-- Every child in the table points to the process that has forked it. -/
def ForksOk (s : ForkState) : Prop :=
  ∀ c i, (s.kernel.procTable c).state ≠ .unused → (s.kernel.procTable c).parent = some i →
    (s.pid i, s.pid c) ∈ s.forks

theorem ForksOk.init (vm : Vm) : ForksOk (init vm) := by
  intro c i _ hparent
  unfold ForkState.init at hparent
  dsimp only at hparent
  rw [Kernel.procInit_parent] at hparent
  exact absurd hparent (by simp)

theorem caller_eq_some {s : ForkState} {i : ProcRef} (h : s.caller = some i) :
    s.kernel.currentProcess = some i ∧ (s.kernel.procTable i).state ≠ .unused := by
  unfold caller at h
  obtain ⟨hcur, hstate⟩ := Option.filter_eq_some_iff.mp h
  simp only [bne_iff_ne, Bool.and_eq_true, ne_eq] at hstate
  exact ⟨hcur, hstate.1⟩

theorem used_of_caller {s : ForkState} {i : ProcRef} (h : s.caller = some i) :
    ∀ j, s.kernel.currentProcess = some j → (s.kernel.procTable j).state ≠ .unused := by
  obtain ⟨hcur, hused⟩ := caller_eq_some h
  intro j hj
  rw [hcur, Option.some.injEq] at hj
  rwa [← hj]

theorem ForksOk.ownChildren {s : ForkState} (h : ForksOk s) : OwnChildren s where
  reaped i statusAddr hcaller hpos := by
    rcases s.kernel.wait_cases statusAddr with ⟨hnone, -⟩ | ⟨c, hparent, hzombie, hpid, -⟩
    · rw [hnone] at hpos
      exact absurd hpos Bool.false_ne_true
    · rw [hpid]
      exact Or.inl (h c i (by simp [hzombie]) (hparent.trans (caller_eq_some hcaller).1))
  parent c i hused hparent := Or.inl (h c i hused hparent)

theorem ForksOk.same {s s' : ForkState} (h : ForksOk s)
    (hsame : Kernel.SameProcs s.kernel s'.kernel) (hforks : s'.forks = s.forks) : ForksOk s' := by
  intro c i hused hparent
  rw [hsame.parent] at hparent
  rw [pid, pid, hsame.pid, hsame.pid, hforks]
  exact h c i (hsame.used c hused) hparent

/-- `fork` into an entry to which no child points. -/
theorem ForksOk.fork {s : ForkState} (h : ForksOk s) {i : ProcRef} (hcaller : s.caller = some i)
    (hc : s.TakesUnnamed .fork) : ForksOk
      { s with kernel := s.kernel.fork.1, forks := (s.pid i, s.kernel.fork.2) :: s.forks } := by
  obtain ⟨hcur, hused⟩ := caller_eq_some hcaller
  rcases Kernel.fork_cases hcur with hsame | ⟨c, hfree, halloc, hothers, hchild⟩
  · intro d j hd hparent
    dsimp only [pid] at hd hparent ⊢
    rw [hsame] at hd hparent ⊢
    exact List.mem_cons_of_mem _ (h d j hd hparent)
  · have hic : i ≠ c := fun heq => hused (heq ▸ hfree)
    intro d j hd hparent
    dsimp only [pid] at hd hparent ⊢
    by_cases hdc : d = c
    · subst hdc
      -- the new child: it points to the caller
      rcases hchild with hun | ⟨hpar, hpid⟩
      · exact absurd hun hd
      · rw [hpar, Option.some.injEq] at hparent
        rw [← hparent, hothers i hic, hpid]
        exact List.mem_cons_self
    · rw [hothers d hdc] at hd hparent ⊢
      have hjc : j ≠ c := fun heq => hc c halloc d hd (heq ▸ hparent)
      rw [hothers j hjc]
      exact List.mem_cons_of_mem _ (h d j hd hparent)

/-- **One step** that meets the condition keeps the invariant. -/
theorem ForksOk.step {s s' : ForkState} {op : ForkOp} (h : ForksOk s) (hc : s.TakesUnnamed op)
    (hs : s.step op = some s') : ForksOk s' := by
  cases op with
  | fork =>
    obtain ⟨i, hcaller, rfl⟩ := Option.map_eq_some_iff.mp hs
    exact h.fork hcaller hc
  | exit status =>
    obtain ⟨i, hcaller, rfl⟩ := Option.map_eq_some_iff.mp hs
    exact h.same (.exit status (used_of_caller hcaller)) rfl
  | wait statusAddr =>
    obtain ⟨i, -, rfl⟩ := Option.map_eq_some_iff.mp hs
    exact h.same (.wait _ statusAddr) rfl
  | yield => exact h.same (Option.some.inj hs ▸ .yield _) (by rw [← Option.some.inj hs]; rfl)
  | sleep =>
    obtain ⟨i, hcaller, rfl⟩ := Option.map_eq_some_iff.mp hs
    exact h.same (.sleep (used_of_caller hcaller)) rfl
  | wakeup => exact h.same (Option.some.inj hs ▸ .wakeup _) (by rw [← Option.some.inj hs]; rfl)
  | dispatch i =>
    simp only [ForkState.step, Option.ite_none_right_eq_some, Option.some.injEq] at hs
    obtain ⟨hrun, rfl⟩ := hs
    exact h.same (.dispatch hrun) rfl

/-! ## 4. Whole runs -/

/-- **`wait` returns children of its caller only, and `parent` points to who has forked the
child, in every run in which no `fork` takes an entry that a child still points to.** -/
theorem ownChildren_of_takesUnnamed (vm : Vm) (ops : List ForkOp)
    (h : Transition.EachStep step TakesUnnamed (init vm) ops) :
    Transition.Always step OwnChildren (init vm) ops :=
  Transition.Always.mono (fun _ => ForksOk.ownChildren)
    (Transition.always_of_eachStep (fun _ _ _ (hok : ForksOk _) hc hs => hok.step hc hs) ops _
      (ForksOk.init vm) h)

/-- A machine with a kernel image of one page. -/
def onePageImage : Vm := .boot 0x80001000 fun _ => 0

/-- The child of `init` exits, and `init` waits for it. -/
theorem ownChildren_of_takesUnnamed_waits : Transition.Always step OwnChildren (init onePageImage)
    [.fork, .dispatch 1, .exit 0, .dispatch 0, .wait 0x8001FFF0] :=
  ownChildren_of_takesUnnamed _ _ (by decide +kernel)

/-- `init` forks 2, which forks 3 and exits; `init` reaps 2 and forks 4 into the same entry; when 3
has exited, 4 waits for a child and gets 3. -/
def strangerRun : List ForkOp :=
  [.fork, .dispatch 1, .fork, .exit 0, .dispatch 0, .wait 0x8001FFF0, .fork, .dispatch 2, .exit 0,
    .dispatch 1]

theorem stranger_reaped : ¬ ∀ (vm : Vm) (ops : List ForkOp),
    Transition.Always step OwnChildren (init vm) ops := by
  intro h
  have hrun : (Transition.run step (init onePageImage) strangerRun).any (fun s =>
      s.caller == some 1 && s.pid 1 == 4 && (s.kernel.wait 0x8001FFF0).2 == 3 &&
        !s.forks.contains (4, 3)) = true := by
    decide +kernel
  obtain ⟨s, hs, htest⟩ := (Option.any_eq_true _ _).mp hrun
  simp only [Bool.and_eq_true, beq_iff_eq, Bool.not_eq_true', List.contains_eq_mem,
    decide_eq_false_iff_not] at htest
  obtain ⟨⟨⟨hcaller, hpid⟩, hwait⟩, hnot⟩ := htest
  have hown := Transition.always_iff_reachable.mp (h onePageImage) s ⟨_, hs⟩
  rcases hown.reaped 1 0x8001FFF0 hcaller (by rw [hwait]; decide) with hmem | ⟨hone, -⟩
  · rw [hpid, hwait] at hmem
    exact hnot hmem
  · rw [hpid] at hone
    exact absurd hone (by decide)

end ForkState

end Lithium
