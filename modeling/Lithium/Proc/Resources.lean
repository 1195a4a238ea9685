/-
# The pages of the processes are conserved

In every run after `proc_init` the pages of the processes are their own, and the free pages and
those of the processes add up.  What a caller of `fork` cannot tell from the result -1 is whether
there is a child: `next_pid` is an `int` that wraps, and -1 is the pid of a child like any other.
-/
import Lithium.Proc.Account

namespace Lithium

/-! ## 1. Whole runs -/

namespace ForkState

/-- The pages of the processes are taken and all different, the sum of the pages is `total`, and a
`fork` that returns -1 has changed nothing. -/
structure ResourcesOk (total : Nat) (s : ForkState) : Prop where
  taken : ∀ i r, (s.kernel.procTable i).state ≠ .unused → ∃ f, f < numPages ∧
    s.kernel.page i r = pageAddr f ∧ s.kernel.vm.phys.isPageFree f = false
  distinct : ∀ i r j q, (s.kernel.procTable i).state ≠ .unused →
    (s.kernel.procTable j).state ≠ .unused → s.kernel.page i r = s.kernel.page j q →
      i = j ∧ r = q
  total : s.kernel.total = total
  undone : ∀ i, s.caller = some i → s.kernel.fork.2 = -1 → s.kernel.ForkUndone

/-- The next `fork` makes a child, with pid -1. -/
def ForksMinusOne (s : ForkState) : Prop :=
  s.caller ≠ none ∧ s.kernel.CanFork ∧ s.kernel.nextPid = -1

open Kernel

variable {P : Finset Nat}

theorem resourcesOk_iff_of_conserved {s : ForkState} (h : Conserved P s.kernel) :
    ResourcesOk P.card s ↔ ¬ s.ForksMinusOne := by
  constructor
  · rintro hok ⟨hcaller, hcan, hpid⟩
    obtain ⟨i, hi⟩ := Option.ne_none_iff_exists'.mp hcaller
    rcases fork_outcome (caller_eq_some hi).1 with ⟨-, c, hc⟩ | ⟨hno, -⟩
    · have hslot := (hok.undone i hi (hc.result.trans hpid)).slot c hc.slot
      rw [hc.state] at hslot
      exact absurd hslot (by simp)
    · exact hno hcan
  · intro hno
    refine ⟨?_, ?_, h.total_eq, ?_⟩
    · intro i r hi
      obtain ⟨f, hf⟩ := h.holds hi r
      refine ⟨f, hf.1, h.accounts.page_eq hf, ?_⟩
      exact Bool.eq_false_iff.mpr fun hfree => h.accounts.ledger.taken hf ⟨hf.1, hfree⟩
    · intro i r j q hi hj heq
      obtain ⟨f, hf⟩ := h.holds hi r
      obtain ⟨g, hg⟩ := h.holds hj q
      rw [h.accounts.page_eq hf, h.accounts.page_eq hg] at heq
      obtain rfl := pageAddr_inj hf.1 hg.1 heq
      exact Prod.mk.inj (h.accounts.ledger.alone hf hg)
    · intro i hi hres
      rcases fork_outcome (caller_eq_some hi).1 with ⟨hcan, c, hc⟩ | ⟨-, hr⟩
      · exact absurd ⟨by simp [hi], hcan, hc.result.symm.trans hres⟩ hno
      · exact h.forkUndone hr

/-- **One step**. -/
theorem conserved_step {s s' : ForkState} {op : ForkOp} (h : Conserved P s.kernel)
    (hs : s.step op = some s') : Conserved P s'.kernel := by
  cases op with
  | fork =>
    obtain ⟨i, -, rfl⟩ := Option.map_eq_some_iff.mp hs
    exact h.fork
  | exit status =>
    obtain ⟨i, hcaller, rfl⟩ := Option.map_eq_some_iff.mp hs
    exact h.exit status (used_of_caller hcaller)
  | wait statusAddr =>
    obtain ⟨i, -, rfl⟩ := Option.map_eq_some_iff.mp hs
    exact h.wait statusAddr
  | yield => exact Option.some.inj hs ▸ h.yield
  | sleep =>
    obtain ⟨i, hcaller, rfl⟩ := Option.map_eq_some_iff.mp hs
    exact h.sleep (used_of_caller hcaller)
  | wakeup => exact Option.some.inj hs ▸ h.wakeup
  | dispatch i =>
    simp only [ForkState.step, Option.ite_none_right_eq_some, Option.some.injEq] at hs
    obtain ⟨hrun, rfl⟩ := hs
    exact h.dispatch hrun

/-- The pages that are free when `proc_init` is called. -/
def pool (vm : Vm) : Finset Nat :=
  (Finset.range numPages).filter fun f => vm.phys.isPageFree f = true

theorem init_kernel (vm : Vm) : (init vm).kernel = (fresh vm).procInit := by
  rw [init]

theorem conserved_init {kend : Word} {mem : Word → Word}
    (hinit : (init (memoryTested kend mem)).kernel.currentProcess ≠ none) :
    Conserved (pool (memoryTested kend mem)) (init (memoryTested kend mem)).kernel := by
  rw [init_kernel] at hinit ⊢
  exact Conserved.procInit (memoryTested_active hinit) hinit

/-- **The pages are conserved in every state of every run, but for a `fork` that would make a
child with pid -1.** -/
theorem resourcesOk_iff (kend : Word) (mem : Word → Word) (ops : List ForkOp)
    (hinit : (init (memoryTested kend mem)).kernel.currentProcess ≠ none) :
    Transition.Always step
      (fun s => ResourcesOk (init (memoryTested kend mem)).kernel.total s ↔ ¬ s.ForksMinusOne)
      (init (memoryTested kend mem)) ops := by
  have h₀ := conserved_init hinit
  rw [h₀.total_eq]
  exact (Transition.always_of_inv (fun _ _ _ h hs => conserved_step h hs) ops _ h₀).mono
    fun _ h => resourcesOk_iff_of_conserved h

/-- With a kernel image of 32 pages `proc_init` succeeds. -/
theorem init_boot (mem : Word → Word) :
    (init (memoryTested 0x80020000 mem)).kernel.currentProcess = some 0 ∧
      ((init (memoryTested 0x80020000 mem)).kernel.procTable 0).state = .runnable ∧
      (∀ i, i ≠ 0 → ((init (memoryTested 0x80020000 mem)).kernel.procTable i).state = .unused) ∧
      (init (memoryTested 0x80020000 mem)).kernel.nextPid = 2 := by
  have hroom := memoryTested_room mem
  have hthree : 3 ≤ (fresh (memoryTested 0x80020000 mem)).vm.phys.numFree :=
    Nat.le_trans (by omega) hroom
  obtain ⟨hspawn, hcur, hnext⟩ := procInit_spawned hthree
  rw [init_kernel]
  exact ⟨hcur, hspawn.state, hspawn.others, hnext⟩

theorem init_boot_ne_none (mem : Word → Word) :
    (init (memoryTested 0x80020000 mem)).kernel.currentProcess ≠ none := by
  rw [(init_boot mem).1]
  simp

theorem resourcesOk_iff_reaped : Transition.Always step
    (fun s => ResourcesOk (init (memoryTested 0x80020000 fun _ => 0)).kernel.total s ↔
      ¬ s.ForksMinusOne)
    (init (memoryTested 0x80020000 fun _ => 0))
    [.fork, .dispatch 1, .exit 0, .dispatch 0, .wait 0x8001FFF0] :=
  resourcesOk_iff _ _ _ (init_boot_ne_none _)

end ForkState

/-! ## 2. One child after the other -/

namespace Kernel

/-- Entries 0 and 1 are in states `a` and `b`, the other entries are free, and `c` is current. -/
structure TwoProcs (a b : ProcState) (c : ProcRef) (n : Pid) (k : Kernel) : Prop where
  zero : (k.procTable 0).state = a
  one : (k.procTable 1).state = b
  others : ∀ i, i ≠ 0 → i ≠ 1 → (k.procTable i).state = .unused
  parent : b ≠ .unused → (k.procTable 1).parent = some 0
  current : k.currentProcess = some c
  nextPid : k.nextPid = n

theorem wakeup_of_awake {k : Kernel} (h : ∀ i, (k.procTable i).state ≠ .sleeping) :
    k.wakeup = k := by
  unfold wakeup
  simp only [h, if_false]

theorem dispatch_nextPid (k : Kernel) (i : ProcRef) : (k.dispatch i).nextPid = k.nextPid := by
  unfold dispatch
  dsimp only
  split <;> split <;> rfl

namespace TwoProcs

variable {a b : ProcState} {c : ProcRef} {n : Pid} {k : Kernel}

theorem fork (h : TwoProcs a .unused 0 n k) (ha : a ≠ .unused) (hcan : k.CanFork) :
    TwoProcs a .runnable 0 (n + 1) k.fork.1 := by
  rcases fork_outcome h.current with ⟨-, d, hd⟩ | ⟨hno, -⟩
  · have halloc : k.allocProc.2 = some 1 := by
      rw [allocProc, finRange_nproc,
        List.find?_cons_of_neg (by simpa using fun e => ha (h.zero.symm.trans e)),
        List.find?_cons_of_pos (by simpa using h.one)]
    obtain rfl : d = 1 := Option.some.inj (hd.slot.symm.trans halloc)
    refine ⟨?_, hd.state, ?_, fun _ => hd.parent, hd.current, by rw [hd.nextPid, h.nextPid]⟩
    · rw [hd.others 0 (by decide), h.zero]
    · intro i h₀ h₁
      rw [hd.others i h₁, h.others i h₀ h₁]
  · exact absurd hcan hno

theorem yield (h : TwoProcs a b 0 n k) (ha : a = .runnable ∨ a = .running) :
    TwoProcs .runnable b 0 n k.yield := by
  unfold Kernel.yield
  rw [h.current]
  dsimp only
  split
  case isTrue =>
    refine ⟨by rw [modify_self], ?_, ?_, ?_, h.current, h.nextPid⟩
    · rw [modify_of_ne _ _ _ (by decide), h.one]
    · intro i h₀ h₁
      rw [modify_of_ne _ _ _ h₀, h.others i h₀ h₁]
    · intro hb
      rw [modify_of_ne _ _ _ (by decide), h.parent hb]
  case isFalse hrun =>
    rcases ha with rfl | rfl
    · exact h
    · exact absurd h.zero hrun

theorem dispatch_one (h : TwoProcs a b c n k) (hb : b ≠ .unused) :
    TwoProcs a .running 1 n (k.dispatch 1) := by
  refine ⟨?_, ?_, ?_, ?_, k.dispatch_currentProcess 1, by rw [dispatch_nextPid, h.nextPid]⟩
  · rw [dispatch_state, if_neg (by decide), h.zero]
  · rw [dispatch_state, if_pos rfl]
  · intro i h₀ h₁
    rw [dispatch_state, if_neg h₁, h.others i h₀ h₁]
  · intro _
    rw [k.dispatch_field 1 Proc.parent (fun _ _ => rfl), if_pos rfl, h.parent hb]

theorem dispatch_zero (h : TwoProcs a b c n k) : TwoProcs .running b 0 n (k.dispatch 0) := by
  refine ⟨?_, ?_, ?_, ?_, k.dispatch_currentProcess 0, by rw [dispatch_nextPid, h.nextPid]⟩
  · rw [dispatch_state, if_pos rfl]
  · rw [dispatch_state, if_neg (by decide), h.one]
  · intro i h₀ h₁
    rw [dispatch_state, if_neg h₀, h.others i h₀ h₁]
  · intro hb
    rw [k.dispatch_field 0 Proc.parent (fun _ _ => rfl), if_neg (by decide), h.parent hb]

theorem exit (h : TwoProcs .runnable b 1 n k) (hb : b ≠ .unused) (status : BitVec 32) :
    TwoProcs .runnable .zombie 1 n (k.exit status) := by
  have hzombie : TwoProcs .runnable .zombie 1 n
      (k.modify 1 fun p => { p with exitCode := status, state := .zombie }) := by
    refine ⟨?_, by rw [modify_self], ?_, ?_, h.current, h.nextPid⟩
    · rw [modify_of_ne _ _ _ (by decide), h.zero]
    · intro i h₀ h₁
      rw [modify_of_ne _ _ _ h₁, h.others i h₀ h₁]
    · intro _
      rw [modify_self]
      exact h.parent hb
  unfold Kernel.exit
  rw [h.current]
  dsimp only
  split
  · rw [wakeup_of_awake]
    · exact hzombie
    · intro i
      by_cases h₀ : i = 0
      · simp [h₀, hzombie.zero]
      · by_cases h₁ : i = 1
        · simp [h₁]
        · simp [hzombie.others i h₀ h₁]
  · exact hzombie

theorem wait (h : TwoProcs a .zombie 0 n k) (ha : a ≠ .zombie) (statusAddr : Word) :
    TwoProcs a .unused 0 n (k.wait statusAddr).1 := by
  have hglobals : (k.wait statusAddr).1.nextPid = k.nextPid ∧
      (k.wait statusAddr).1.currentProcess = k.currentProcess := by
    unfold Kernel.wait
    split
    · exact ⟨rfl, rfl⟩
    · exact freeProc_globals _ _
  rcases k.wait_cases statusAddr with ⟨-, hnone⟩ | ⟨d, -, hd, -, hfreed, hfills⟩
  · exact absurd h.one (hnone 1 ((h.parent (by simp)).trans h.current.symm))
  · -- the zombie is the child
    obtain rfl : d = 1 := by
      by_contra h₁
      by_cases h₀ : d = 0
      · rw [h₀, h.zero] at hd
        exact ha hd
      · rw [h.others d h₀ h₁] at hd
        exact absurd hd (by simp)
    refine ⟨?_, hfreed, ?_, fun e => absurd rfl e, hglobals.2.trans h.current,
      hglobals.1.trans h.nextPid⟩
    · rw [hfills.others 0 (by decide), h.zero]
    · intro i h₀ h₁
      rw [hfills.others i h₁, h.others i h₀ h₁]

end TwoProcs

end Kernel

namespace ForkState

open Kernel

variable {P : Finset Nat}

/-- Only `init` is in use, and it is current; `n` children have come and gone. -/
def Idle (n : Nat) (s : ForkState) : Prop :=
  ∃ a, (a = .runnable ∨ a = .running) ∧ TwoProcs a .unused 0 (BitVec.ofNat 32 (n + 2)) s.kernel

theorem caller_of {s : ForkState} {i : ProcRef} (hcur : s.kernel.currentProcess = some i)
    (hused : (s.kernel.procTable i).state ≠ .unused)
    (hzombie : (s.kernel.procTable i).state ≠ .zombie) : s.caller = some i := by
  rw [caller, hcur, Option.filter_some, if_pos (by simp [hused, hzombie])]

theorem Idle.canFork {n : Nat} {s : ForkState} (h : Idle n s) (hc : Conserved P s.kernel)
    (hP : 6 ≤ P.card) : s.kernel.CanFork := by
  obtain ⟨a, ha, h⟩ := h
  have hone : (Finset.univ.filter fun i => (s.kernel.procTable i).state ≠ .unused) = {0} := by
    ext i
    rw [Finset.mem_filter, Finset.mem_singleton]
    constructor
    · intro hi
      by_contra h₀
      by_cases h₁ : i = 1
      · exact hi.2 (h₁ ▸ h.one)
      · exact hi.2 (h.others i h₀ h₁)
    · rintro rfl
      refine ⟨Finset.mem_univ _, ?_⟩
      rw [h.zero]
      rcases ha with rfl | rfl <;> simp
  have htotal := hc.total_eq
  rw [Kernel.total, numUsed, hone, Finset.card_singleton] at htotal
  exact ⟨⟨1, h.one⟩, by omega⟩

/-- The child of `init` gets the processor, exits and is reaped. -/
def oneChild : List ForkOp :=
  [.fork, .yield, .dispatch 1, .exit 0, .dispatch 0, .wait 0x8001FFF0]

theorem Idle.next {n : Nat} {s : ForkState} (h : Idle n s) (hcan : s.kernel.CanFork) :
    ∃ s', Transition.run step s oneChild = some s' ∧ Idle (n + 1) s' := by
  obtain ⟨a, ha, h₀⟩ := h
  have hused : a ≠ .unused ∧ a ≠ .zombie := by rcases ha with rfl | rfl <;> simp
  have hcaller₀ : s.caller = some 0 :=
    caller_of h₀.current (by rw [h₀.zero]; exact hused.1) (by rw [h₀.zero]; exact hused.2)
  obtain ⟨s₁, hs₁, hk₁⟩ : ∃ s₁, s.step .fork = some s₁ ∧ s₁.kernel = s.kernel.fork.1 :=
    ⟨_, congrArg (Option.map _) hcaller₀, rfl⟩
  have h₁ := h₀.fork hused.1 hcan
  rw [← hk₁] at h₁
  obtain ⟨s₂, hs₂, hk₂⟩ : ∃ s₂, s₁.step .yield = some s₂ ∧ s₂.kernel = s₁.kernel.yield :=
    ⟨_, rfl, rfl⟩
  have h₂ := h₁.yield ha
  rw [← hk₂] at h₂
  obtain ⟨s₃, hs₃, hk₃⟩ : ∃ s₃, s₂.step (.dispatch 1) = some s₃ ∧
      s₃.kernel = s₂.kernel.dispatch 1 := ⟨_, if_pos h₂.one, rfl⟩
  have h₃ := h₂.dispatch_one (by simp)
  rw [← hk₃] at h₃
  have hcaller₃ : s₃.caller = some 1 :=
    caller_of h₃.current (by rw [h₃.one]; simp) (by rw [h₃.one]; simp)
  obtain ⟨s₄, hs₄, hk₄⟩ : ∃ s₄, s₃.step (.exit 0) = some s₄ ∧ s₄.kernel = s₃.kernel.exit 0 :=
    ⟨_, congrArg (Option.map _) hcaller₃, rfl⟩
  have h₄ := h₃.exit (by simp) 0
  rw [← hk₄] at h₄
  obtain ⟨s₅, hs₅, hk₅⟩ : ∃ s₅, s₄.step (.dispatch 0) = some s₅ ∧
      s₅.kernel = s₄.kernel.dispatch 0 := ⟨_, if_pos h₄.zero, rfl⟩
  have h₅ := h₄.dispatch_zero
  rw [← hk₅] at h₅
  have hcaller₅ : s₅.caller = some 0 :=
    caller_of h₅.current (by rw [h₅.zero]; simp) (by rw [h₅.zero]; simp)
  obtain ⟨s₆, hs₆, hk₆⟩ : ∃ s₆, s₅.step (.wait 0x8001FFF0) = some s₆ ∧
      s₆.kernel = (s₅.kernel.wait 0x8001FFF0).1 := ⟨_, congrArg (Option.map _) hcaller₅, rfl⟩
  have h₆ := h₅.wait (by simp) 0x8001FFF0
  rw [← hk₆] at h₆
  refine ⟨s₆, ?_, .running, Or.inr rfl, ?_⟩
  · simp only [oneChild, Transition.run_cons, Transition.run_nil, hs₁, hs₂, hs₃, hs₄, hs₅, hs₆,
      Option.bind_some]
  · have hnext : BitVec.ofNat 32 (n + 2) + 1 = BitVec.ofNat 32 (n + 1 + 2) := by
      rw [show n + 1 + 2 = n + 2 + 1 by omega]
      exact (BitVec.ofNat_add (n + 2) 1).symm
    rwa [← hnext]

/-- `n` children, one after the other. -/
def children : Nat → List ForkOp
  | 0 => []
  | n + 1 => children n ++ oneChild

theorem idle_init (mem : Word → Word) : Idle 0 (init (memoryTested 0x80020000 mem)) := by
  obtain ⟨hcur, hstate, hothers, hnext⟩ := init_boot mem
  exact ⟨.runnable, Or.inl rfl, hstate, hothers 1 (by decide), fun i h₀ _ => hothers i h₀,
    fun e => absurd rfl e, hcur, hnext⟩

/-- `init` can have as many children as it likes, one after the other. -/
theorem run_children (mem : Word → Word) : ∀ n, ∃ s,
    Transition.run step (init (memoryTested 0x80020000 mem)) (children n) = some s ∧
      Idle n s ∧ s.kernel.CanFork := by
  have h₀ := conserved_init (init_boot_ne_none mem)
  have hP : 6 ≤ (pool (memoryTested 0x80020000 mem)).card := by
    rw [pool, ← numFree_eq_card]
    exact memoryTested_room mem
  -- along the way no page is lost
  have hcan : ∀ {n ops s}, Transition.run step (init (memoryTested 0x80020000 mem)) ops = some s →
      Idle n s → s.kernel.CanFork := fun hs hidle =>
    hidle.canFork (Transition.reachable_inv
      (fun s _ _ (h : Conserved _ s.kernel) hs => conserved_step h hs) h₀ ⟨_, hs⟩) hP
  intro n
  induction n with
  | zero =>
    exact ⟨_, Transition.run_nil _, idle_init mem, hcan (Transition.run_nil _) (idle_init mem)⟩
  | succ n ih =>
    obtain ⟨s, hs, hidle, hfork⟩ := ih
    obtain ⟨s', hs', hidle'⟩ := hidle.next hfork
    have hrun : Transition.run step (init (memoryTested 0x80020000 mem)) (children (n + 1))
        = some s' := by
      rw [children, Transition.run_append, hs]
      exact hs'
    exact ⟨s', hrun, hidle', hcan hrun hidle'⟩

/-- After 2 ^ 32 - 3 children `next_pid` is -1; `fork` makes another child, and returns -1. -/
theorem fork_minus_one : ¬ ∀ (kend : Word) (mem : Word → Word) (ops : List ForkOp),
    (init (memoryTested kend mem)).kernel.currentProcess ≠ none →
      Transition.Always step (ResourcesOk (init (memoryTested kend mem)).kernel.total)
        (init (memoryTested kend mem)) ops := by
  intro hall
  obtain ⟨s, hs, ⟨a, ha, hidle⟩, hcan⟩ := run_children (fun _ => 0) (2 ^ 32 - 3)
  have hok := Transition.always_iff_reachable.mp
    (fun ops => hall 0x80020000 (fun _ => 0) ops (init_boot_ne_none _)) s ⟨_, hs⟩
  have hcaller : s.caller = some 0 := by
    refine caller_of hidle.current ?_ ?_ <;> rw [hidle.zero] <;> rcases ha with rfl | rfl <;> simp
  rcases fork_outcome hidle.current with ⟨-, c, hc⟩ | ⟨hno, -⟩
  · have hresult : s.kernel.fork.2 = -1 := by
      rw [hc.result, hidle.nextPid]
      decide
    have hslot := (hok.undone 0 hcaller hresult).slot c hc.slot
    rw [hc.state] at hslot
    exact absurd hslot (by simp)
  · exact hno hcan

end ForkState

end Lithium
