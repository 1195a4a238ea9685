/-
# What a runnable process is resumed from

`scheduler()` resumes a process from its `struct context`, and nothing but `context_switch` ever
writes one.  `alloc_proc` leaves the context of the entry as it is: zeros, if the entry was never
used, or what was saved for the process that had the entry before.

The registers themselves are a label of the step, since they are whatever the process that is
switched out has in them.
-/
import Lithium.Proc.Supply

namespace Lithium

/-! ## 1. The contexts, and who has written them -/

/-- `struct context`. -/
structure Regs where
  ra : Word
  sp : Word
  s0 : Word
  s1 : Word
  s2 : Word
  s3 : Word
  s4 : Word
  s5 : Word
  s6 : Word
  s7 : Word
  s8 : Word
  s9 : Word
  s10 : Word
  s11 : Word
  deriving DecidableEq

/-- A context of `.bss`. -/
def Regs.zero : Regs :=
  { ra := 0, sp := 0, s0 := 0, s1 := 0, s2 := 0, s3 := 0, s4 := 0, s5 := 0, s6 := 0, s7 := 0,
    s8 := 0, s9 := 0, s10 := 0, s11 := 0 }

/-- Where the context of an entry comes from: it was never written, or written for a process that
had the entry before, or set when the process was created, or saved when the process was switched
out.  No step of the code is a case of `creation`. -/
inductive ContextOrigin where
  | bss
  | previousOwner
  | creation (regs : Regs)
  | switchedOut (regs : Regs)
  deriving DecidableEq

/-- What the context is to the next process in the entry. -/
def ContextOrigin.inherited : ContextOrigin → ContextOrigin
  | .bss => .bss
  | .previousOwner | .creation _ | .switchedOut _ => .previousOwner

/-- The kernel with the contexts of the processes, beside where each one comes from and which
processes have had the processor. -/
structure ResumeState where
  base : ForkState
  context : ProcRef → Regs
  origin : ProcRef → ContextOrigin
  hasRun : ProcRef → Bool

namespace ResumeState

/-- The table. -/
abbrev kernel (s : ResumeState) : Kernel := s.base.kernel

/-- `alloc_proc` hands the entry on, its context included. -/
def claim (s : ResumeState) : Option ProcRef → ResumeState
  | none => s
  | some c =>
    { s with
      origin := Function.update s.origin c (s.origin c).inherited
      hasRun := Function.update s.hasRun c false }

/-- `context_switch(&prev->context, &p->context)`, with `regs` in the registers. -/
def contextSwitch (s : ResumeState) (prev : Option ProcRef) (i : ProcRef) (regs : Regs) :
    ResumeState :=
  let s := { s with hasRun := Function.update s.hasRun i true }
  match prev with
  | none => s
  | some j =>
    { s with
      context := Function.update s.context j regs
      origin := Function.update s.origin j (.switchedOut regs) }

/-- What a call does to the contexts. -/
def switch (s : ResumeState) (regs : Regs) : ForkOp → ResumeState
  | .fork => s.claim s.kernel.allocProc.2
  | .dispatch i => s.contextSwitch s.kernel.currentProcess i regs
  | .exit _ | .wait _ | .yield | .sleep | .wakeup => s

/-- One step, with the registers at that time. -/
def step (s : ResumeState) (l : ForkOp × Regs) : Option ResumeState :=
  (s.base.step l.1).map fun base => { s.switch l.2 l.1 with base := base }

/-- After `proc_init`. -/
def init (vm : Vm) : ResumeState where
  base := .init vm
  context _ := .zero
  origin _ := .bss
  hasRun i := (ForkState.init vm).kernel.currentProcess == some i

/-- The context of process `i` is what was saved when it was last switched out; or the process has
never run, and its context was set when it was created, with a stack pointer in its kernel stack
and a return address that is an entry point. -/
def Resumable (entry : Word → Prop) (s : ResumeState) (i : ProcRef) : Prop :=
  s.origin i = .switchedOut (s.context i) ∨
    (s.hasRun i = false ∧ s.origin i = .creation (s.context i) ∧
      (s.kernel.procTable i).kstack - pageSize < (s.context i).sp ∧
      (s.context i).sp ≤ (s.kernel.procTable i).kstack ∧ entry (s.context i).ra)

/-- Every runnable process that is not current can be resumed. -/
def Resumes (entry : Word → Prop) (s : ResumeState) : Prop :=
  ∀ i, (s.kernel.procTable i).state = .runnable → s.kernel.currentProcess ≠ some i →
    s.Resumable entry i

/-- Every runnable process that is not current has had the processor. -/
def Started (s : ResumeState) : Prop :=
  ∀ i, (s.kernel.procTable i).state = .runnable → s.kernel.currentProcess ≠ some i →
    s.hasRun i = true

/-- The condition on a step: `fork` cannot make a child. -/
def MakesNoChild (s : ResumeState) (l : ForkOp × Regs) : Prop := l.1 = .fork → ¬ s.kernel.CanFork

end ResumeState

/-! ## 2. Steps that switch nothing -/

namespace Kernel

/-- From `k` to `k'` nobody is dispatched or created: only the current process changes its state,
but for sleepers that wake up and entries that become free. -/
structure Steady (k k' : Kernel) : Prop where
  current : k'.currentProcess = k.currentProcess
  entry : ∀ i, (k'.procTable i).state ≠ .unused → (k.procTable i).state ≠ .unused ∧
    (k.currentProcess = some i ∨ (k'.procTable i).state = (k.procTable i).state ∨
      ((k.procTable i).state = .sleeping ∧ (k'.procTable i).state = .runnable))

namespace Steady

variable {k k' k'' : Kernel}

theorem refl (k : Kernel) : Steady k k := ⟨rfl, fun _ hi => ⟨hi, Or.inr (Or.inl rfl)⟩⟩

theorem trans (h : Steady k k') (h' : Steady k' k'') : Steady k k'' := by
  refine ⟨h'.current.trans h.current, ?_⟩
  intro i hi
  obtain ⟨hi', hstate'⟩ := h'.entry i hi
  obtain ⟨hused, hstate⟩ := h.entry i hi'
  rw [h.current] at hstate'
  refine ⟨hused, ?_⟩
  rcases hstate with hcur | heq | ⟨hsleep, hrun⟩
  · exact Or.inl hcur
  · rwa [heq] at hstate'
  · rcases hstate' with hcur | heq' | ⟨hsleep', -⟩
    · exact Or.inl hcur
    · exact Or.inr (Or.inr ⟨hsleep, heq'.trans hrun⟩)
    · rw [hrun] at hsleep'
      exact absurd hsleep' (by simp)

/-- An assignment to the current process. -/
theorem modify {i : ProcRef} (hcur : k.currentProcess = some i)
    (hi : (k.procTable i).state ≠ .unused) (f : Proc → Proc) : Steady k (k.modify i f) := by
  refine ⟨rfl, ?_⟩
  intro j hj
  by_cases hji : j = i
  · subst hji
    exact ⟨hi, Or.inl hcur⟩
  · rw [modify_of_ne _ _ _ hji] at hj ⊢
    exact ⟨hj, Or.inr (Or.inl rfl)⟩

theorem wakeup (k : Kernel) : Steady k k.wakeup := by
  refine ⟨rfl, ?_⟩
  intro i hi
  unfold Kernel.wakeup at hi ⊢
  dsimp only at hi ⊢
  split
  case isTrue hsleep => exact ⟨by simp [hsleep], Or.inr (Or.inr ⟨hsleep, rfl⟩)⟩
  case isFalse hawake =>
    rw [if_neg hawake] at hi
    exact ⟨hi, Or.inr (Or.inl rfl)⟩

theorem exit (status : BitVec 32)
    (hused : ∀ i, k.currentProcess = some i → (k.procTable i).state ≠ .unused) :
    Steady k (k.exit status) := by
  unfold Kernel.exit
  cases hcur : k.currentProcess with
  | none => exact .refl k
  | some i =>
    have hzombie := Steady.modify hcur (hused i hcur)
      fun p => { p with exitCode := status, state := .zombie }
    dsimp only
    split
    · exact hzombie.trans (.wakeup _)
    · exact hzombie

theorem sleep (hused : ∀ i, k.currentProcess = some i → (k.procTable i).state ≠ .unused) :
    Steady k k.sleep := by
  unfold Kernel.sleep
  cases hcur : k.currentProcess with
  | none => exact .refl k
  | some i => exact .modify hcur (hused i hcur) _

theorem yield (k : Kernel) : Steady k k.yield := by
  unfold Kernel.yield
  cases hcur : k.currentProcess with
  | none => exact .refl k
  | some i =>
    dsimp only
    split
    case isTrue hrun => exact .modify hcur (by simp [hrun]) _
    case isFalse => exact .refl k

theorem wait (k : Kernel) (statusAddr : Word) : Steady k (k.wait statusAddr).1 := by
  have hcurrent : (k.wait statusAddr).1.currentProcess = k.currentProcess := by
    unfold Kernel.wait
    split
    · rfl
    · exact (freeProc_globals _ _).2
  refine ⟨hcurrent, ?_⟩
  intro i hi
  rcases k.wait_cases statusAddr with ⟨hnone, -⟩ | ⟨c, -, -, -, hfreed, hfills⟩
  · rw [hnone] at hi ⊢
    exact ⟨hi, Or.inr (Or.inl rfl)⟩
  · have hic : i ≠ c := fun e => hi (e ▸ hfreed)
    rw [hfills.others i hic] at hi ⊢
    exact ⟨hi, Or.inr (Or.inl rfl)⟩

end Steady

end Kernel

namespace ResumeState

open Kernel

/-! ## 3. The invariant -/

/-- The current process has run; another process that has run was switched out, and its context
is what was saved then; one that has not is where its creation has left it, with the context of
the entry. -/
structure ContextsOk (s : ResumeState) : Prop where
  current : ∀ i, s.kernel.currentProcess = some i → s.hasRun i = true
  saved : ∀ i, (s.kernel.procTable i).state ≠ .unused → s.kernel.currentProcess ≠ some i →
    s.hasRun i = true → s.origin i = .switchedOut (s.context i)
  fresh : ∀ i, (s.kernel.procTable i).state ≠ .unused → s.hasRun i = false →
    ((s.kernel.procTable i).state = .runnable ∨ (s.kernel.procTable i).state = .used) ∧
      (s.origin i = .bss ∨ s.origin i = .previousOwner)

variable {s s' : ResumeState} {entry : Word → Prop}

/-- **A process that is not current can be resumed exactly when it has run.** -/
theorem ContextsOk.resumable_iff (h : ContextsOk s) {i : ProcRef}
    (hi : (s.kernel.procTable i).state ≠ .unused) (hcur : s.kernel.currentProcess ≠ some i) :
    s.Resumable entry i ↔ s.hasRun i = true := by
  constructor
  · intro hres
    by_contra hrun
    have hfrom := (h.fresh i hi (Bool.eq_false_iff.mpr hrun)).2
    rcases hres with hsaved | ⟨-, hset, -⟩
    · rw [hsaved] at hfrom
      exact absurd hfrom (by simp)
    · rw [hset] at hfrom
      exact absurd hfrom (by simp)
  · exact fun hrun => Or.inl (h.saved i hi hcur hrun)

theorem ContextsOk.resumes_iff_started (h : ContextsOk s) : s.Resumes entry ↔ s.Started := by
  refine forall_congr' fun i => forall₂_congr fun hi hcur => ?_
  exact h.resumable_iff (by simp [hi]) hcur

/-- Steps that switch nothing. -/
theorem ContextsOk.steady (h : ContextsOk s) {base : ForkState}
    (hk : Steady s.kernel base.kernel) : ContextsOk { s with base := base } where
  current i hi := h.current i (hk.current.symm.trans hi)
  saved i hi hcur hrun := h.saved i (hk.entry i hi).1 (fun e => hcur (hk.current.trans e)) hrun
  fresh i hi hrun := by
    obtain ⟨hused, hstate⟩ := hk.entry i hi
    have hfresh := h.fresh i hused hrun
    refine ⟨?_, hfresh.2⟩
    rcases hstate with hcur | heq | ⟨hsleep, -⟩
    · rw [h.current i hcur] at hrun
      exact absurd hrun (by simp)
    · rw [heq]
      exact hfresh.1
    · rw [hsleep] at hfresh
      exact absurd hfresh.1 (by simp)

theorem Started.steady (h : ContextsOk s) (hst : s.Started) {base : ForkState}
    (hk : Steady s.kernel base.kernel) : Started { s with base := base } := by
  intro i hi hcur
  change s.hasRun i = true
  have hcur' : s.kernel.currentProcess ≠ some i := fun e => hcur (hk.current.trans e)
  obtain ⟨hused, hstate⟩ := hk.entry i (by rw [hi]; simp)
  rcases hstate with hc | heq | ⟨hsleep, -⟩
  · exact absurd hc hcur'
  · exact hst i (heq.symm.trans hi) hcur'
  · by_contra hrun
    have hfresh := (h.fresh i hused (Bool.eq_false_iff.mpr hrun)).1
    rw [hsleep] at hfresh
    exact absurd hfresh (by simp)

theorem inherited_cases (o : ContextOrigin) :
    o.inherited = .bss ∨ o.inherited = .previousOwner := by
  cases o with
  | bss => exact Or.inl rfl
  | previousOwner => exact Or.inr rfl
  | creation regs => exact Or.inr rfl
  | switchedOut regs => exact Or.inr rfl

/-- What `alloc_proc` leaves as it is. -/
theorem claim_frame (s : ResumeState) (o : Option ProcRef) :
    (s.claim o).context = s.context ∧
      (∀ j, o ≠ some j → (s.claim o).origin j = s.origin j ∧ (s.claim o).hasRun j = s.hasRun j) ∧
      ∀ c, o = some c →
        (s.claim o).origin c = (s.origin c).inherited ∧ (s.claim o).hasRun c = false := by
  cases o with
  | none => exact ⟨rfl, fun _ _ => ⟨rfl, rfl⟩, fun _ hc => absurd hc (by simp)⟩
  | some c =>
    refine ⟨rfl, ?_, ?_⟩
    · intro j hj
      have hjc : j ≠ c := fun e => hj (e ▸ rfl)
      exact ⟨Function.update_of_ne hjc _ _, Function.update_of_ne hjc _ _⟩
    · intro d hd
      obtain rfl := Option.some.inj hd
      exact ⟨Function.update_self _ _ _, Function.update_self _ _ _⟩

/-- **`fork`**: a child has not run, and its context is the one of the entry. -/
theorem ContextsOk.fork (h : ContextsOk s) {p : ProcRef} (hcaller : s.base.caller = some p)
    {base : ForkState} (hk : base.kernel = s.kernel.fork.1) :
    ContextsOk { s.claim s.kernel.allocProc.2 with base := base } := by
  obtain ⟨hcur, hp⟩ := ForkState.caller_eq_some hcaller
  obtain ⟨hcurrent, hothers, hslot⟩ := fork_frame hcur
  obtain ⟨hcontext, hkeep, hnew⟩ := s.claim_frame s.kernel.allocProc.2
  rw [← hk] at hcurrent hothers hslot
  refine ⟨?_, ?_, ?_⟩
  · intro i hi
    have hi' : s.kernel.currentProcess = some i := hcurrent.symm.trans hi
    obtain rfl : p = i := Option.some.inj (hcur.symm.trans hi')
    change (s.claim s.kernel.allocProc.2).hasRun p = true
    rw [(hkeep p fun e => hp (hslot p e).1).2]
    exact h.current p hi'
  · intro i hi hne hrun
    change (s.claim s.kernel.allocProc.2).hasRun i = true at hrun
    change (s.claim s.kernel.allocProc.2).origin i
      = .switchedOut ((s.claim s.kernel.allocProc.2).context i)
    by_cases hs : s.kernel.allocProc.2 = some i
    · rw [(hnew i hs).2] at hrun
      exact absurd hrun (by simp)
    · change (base.kernel.procTable i).state ≠ .unused at hi
      rw [hothers i hs] at hi
      rw [(hkeep i hs).2] at hrun
      rw [(hkeep i hs).1, hcontext]
      exact h.saved i hi (fun e => hne (hcurrent.trans e)) hrun
  · intro i hi hrun
    change (s.claim s.kernel.allocProc.2).hasRun i = false at hrun
    change (base.kernel.procTable i).state ≠ .unused at hi
    change ((base.kernel.procTable i).state = .runnable ∨ (base.kernel.procTable i).state = .used) ∧
      ((s.claim s.kernel.allocProc.2).origin i = .bss ∨
        (s.claim s.kernel.allocProc.2).origin i = .previousOwner)
    by_cases hs : s.kernel.allocProc.2 = some i
    · rw [(hnew i hs).1]
      exact ⟨Or.inl ((hslot i hs).2.resolve_right hi), inherited_cases _⟩
    · rw [hothers i hs] at hi ⊢
      rw [(hkeep i hs).2] at hrun
      rw [(hkeep i hs).1]
      exact h.fresh i hi hrun

/-- What `context_switch` leaves in the table, and what it does not touch. -/
theorem contextSwitch_frame (s : ResumeState) (prev : Option ProcRef) (i : ProcRef) (regs : Regs) :
    (s.contextSwitch prev i regs).hasRun = Function.update s.hasRun i true ∧
      (∀ j, prev ≠ some j → (s.contextSwitch prev i regs).context j = s.context j ∧
        (s.contextSwitch prev i regs).origin j = s.origin j) ∧
      ∀ j, prev = some j → (s.contextSwitch prev i regs).origin j =
        .switchedOut ((s.contextSwitch prev i regs).context j) := by
  cases prev with
  | none => exact ⟨rfl, fun _ _ => ⟨rfl, rfl⟩, fun _ hj => absurd hj (by simp)⟩
  | some l =>
    refine ⟨rfl, ?_, ?_⟩
    · intro j hj
      have hjl : j ≠ l := fun e => hj (e ▸ rfl)
      exact ⟨Function.update_of_ne hjl _ _, Function.update_of_ne hjl _ _⟩
    · intro j hj
      obtain rfl := Option.some.inj hj
      change Function.update s.origin l (.switchedOut regs) l
        = .switchedOut (Function.update s.context l regs l)
      rw [Function.update_self, Function.update_self]

/-- **A dispatch**: the process that is left is saved. -/
theorem ContextsOk.dispatch (h : ContextsOk s) {i : ProcRef}
    (hi : (s.kernel.procTable i).state = .runnable) (regs : Regs) {base : ForkState}
    (hk : base.kernel = s.kernel.dispatch i) :
    ContextsOk { s.contextSwitch s.kernel.currentProcess i regs with base := base } := by
  obtain ⟨hrun, hkeep, hsaved⟩ := s.contextSwitch_frame s.kernel.currentProcess i regs
  have hcur : base.kernel.currentProcess = some i := by rw [hk, dispatch_currentProcess]
  have hstate : ∀ j, j ≠ i →
      (base.kernel.procTable j).state = (s.kernel.procTable j).state := by
    intro j hj
    rw [hk, dispatch_state, if_neg hj]
  refine ⟨?_, ?_, ?_⟩
  · intro j hj
    obtain rfl : i = j := Option.some.inj (hcur.symm.trans hj)
    change (s.contextSwitch s.kernel.currentProcess i regs).hasRun i = true
    rw [hrun, Function.update_self]
  · intro j hj hne hran
    have hji : j ≠ i := fun e => hne (e ▸ hcur)
    change (base.kernel.procTable j).state ≠ .unused at hj
    change (s.contextSwitch s.kernel.currentProcess i regs).hasRun j = true at hran
    change (s.contextSwitch s.kernel.currentProcess i regs).origin j
      = .switchedOut ((s.contextSwitch s.kernel.currentProcess i regs).context j)
    rw [hstate j hji] at hj
    rw [hrun, Function.update_of_ne hji] at hran
    by_cases hprev : s.kernel.currentProcess = some j
    · exact hsaved j hprev
    · rw [(hkeep j hprev).1, (hkeep j hprev).2]
      exact h.saved j hj hprev hran
  · intro j hj hran
    change (s.contextSwitch s.kernel.currentProcess i regs).hasRun j = false at hran
    change (base.kernel.procTable j).state ≠ .unused at hj
    change ((base.kernel.procTable j).state = .runnable ∨ (base.kernel.procTable j).state = .used) ∧
      ((s.contextSwitch s.kernel.currentProcess i regs).origin j = .bss ∨
        (s.contextSwitch s.kernel.currentProcess i regs).origin j = .previousOwner)
    have hji : j ≠ i := by
      rintro rfl
      rw [hrun, Function.update_self] at hran
      exact absurd hran (by simp)
    rw [hrun, Function.update_of_ne hji] at hran
    rw [hstate j hji] at hj ⊢
    -- the process that is left has run
    have hprev : s.kernel.currentProcess ≠ some j := by
      intro e
      rw [h.current j e] at hran
      exact absurd hran (by simp)
    rw [(hkeep j hprev).2]
    exact h.fresh j hj hran

/-- A child has not run. -/
theorem started_fork_iff (hst : s.Started) {p : ProcRef} (hcaller : s.base.caller = some p)
    {base : ForkState} (hk : base.kernel = s.kernel.fork.1) :
    Started { s.claim s.kernel.allocProc.2 with base := base } ↔ ¬ s.kernel.CanFork := by
  obtain ⟨hcur, hp⟩ := ForkState.caller_eq_some hcaller
  obtain ⟨-, hkeep, hnew⟩ := s.claim_frame s.kernel.allocProc.2
  rcases fork_outcome hcur with ⟨hcan, c, hc⟩ | ⟨hno, hr⟩
  · refine iff_of_false (fun hstarted => ?_) (not_not_intro hcan)
    have hne : base.kernel.currentProcess ≠ some c := by
      rw [hk, hc.current, ne_eq, Option.some.injEq]
      exact fun e => hp (e ▸ hc.free)
    have hran : (s.claim s.kernel.allocProc.2).hasRun c = true :=
      hstarted c (by rw [← hc.state, ← hk]) hne
    rw [(hnew c hc.slot).2] at hran
    exact absurd hran (by simp)
  · refine iff_of_true (fun i hi hne => ?_) hno
    change (base.kernel.procTable i).state = .runnable at hi
    change base.kernel.currentProcess ≠ some i at hne
    change (s.claim s.kernel.allocProc.2).hasRun i = true
    rw [hk] at hi
    rw [hk, hr.current] at hne
    have hs : s.kernel.allocProc.2 ≠ some i := by
      intro e
      rw [(hr.slot i e).2] at hi
      exact absurd hi (by simp)
    rw [hr.others i hs] at hi
    rw [(hkeep i hs).2]
    exact hst i hi hne

theorem Started.dispatch (h : ContextsOk s) (hst : s.Started) (i : ProcRef) (regs : Regs)
    {base : ForkState} (hk : base.kernel = s.kernel.dispatch i) :
    Started { s.contextSwitch s.kernel.currentProcess i regs with base := base } := by
  obtain ⟨hrun, -, -⟩ := s.contextSwitch_frame s.kernel.currentProcess i regs
  intro j hj _
  change (base.kernel.procTable j).state = .runnable at hj
  change (s.contextSwitch s.kernel.currentProcess i regs).hasRun j = true
  rw [hk, dispatch_state] at hj
  split at hj
  case isTrue => exact absurd hj (by simp)
  case isFalse hji =>
    rw [hrun, Function.update_of_ne hji]
    by_cases hprev : s.kernel.currentProcess = some j
    · exact h.current j hprev
    · exact hst j hj hprev

/-- **One step.** -/
theorem step_cases {l : ForkOp × Regs} (hs : s.step l = some s') :
    (∃ p base, l.1 = .fork ∧ s.base.caller = some p ∧ base.kernel = s.kernel.fork.1 ∧
      s' = { s.claim s.kernel.allocProc.2 with base := base }) ∨
    (∃ i base, l.1 = .dispatch i ∧ (s.kernel.procTable i).state = .runnable ∧
      base.kernel = s.kernel.dispatch i ∧
      s' = { s.contextSwitch s.kernel.currentProcess i l.2 with base := base }) ∨
    (∃ base, l.1 ≠ .fork ∧ Steady s.kernel base.kernel ∧ s' = { s with base := base }) := by
  obtain ⟨op, regs⟩ := l
  obtain ⟨base, hbase, rfl⟩ := Option.map_eq_some_iff.mp hs
  cases op with
  | fork =>
    obtain ⟨p, hcaller, rfl⟩ := Option.map_eq_some_iff.mp hbase
    exact Or.inl ⟨p, _, rfl, hcaller, rfl, rfl⟩
  | dispatch i =>
    simp only [ForkState.step, Option.ite_none_right_eq_some, Option.some.injEq] at hbase
    obtain ⟨hrun, rfl⟩ := hbase
    exact Or.inr (Or.inl ⟨i, _, rfl, hrun, rfl, rfl⟩)
  | exit status =>
    obtain ⟨p, hcaller, rfl⟩ := Option.map_eq_some_iff.mp hbase
    exact Or.inr (Or.inr ⟨_, by simp, .exit status (ForkState.used_of_caller hcaller), rfl⟩)
  | wait statusAddr =>
    obtain ⟨p, -, rfl⟩ := Option.map_eq_some_iff.mp hbase
    exact Or.inr (Or.inr ⟨_, by simp, .wait _ statusAddr, rfl⟩)
  | yield => exact Or.inr (Or.inr ⟨_, by simp, Option.some.inj hbase ▸ .yield _, rfl⟩)
  | sleep =>
    obtain ⟨p, hcaller, rfl⟩ := Option.map_eq_some_iff.mp hbase
    exact Or.inr (Or.inr ⟨_, by simp, .sleep (ForkState.used_of_caller hcaller), rfl⟩)
  | wakeup => exact Or.inr (Or.inr ⟨_, by simp, Option.some.inj hbase ▸ .wakeup _, rfl⟩)

theorem ContextsOk.step {l : ForkOp × Regs} (h : ContextsOk s) (hs : s.step l = some s') :
    ContextsOk s' := by
  rcases step_cases hs with ⟨p, base, -, hcaller, hk, rfl⟩ | ⟨i, base, -, hi, hk, rfl⟩ |
    ⟨base, -, hk, rfl⟩
  · exact h.fork hcaller hk
  · exact h.dispatch hi l.2 hk
  · exact h.steady hk

theorem started_step_iff {l : ForkOp × Regs} (h : ContextsOk s) (hst : s.Started)
    (hs : s.step l = some s') : s'.Started ↔ s.MakesNoChild l := by
  rcases step_cases hs with ⟨p, base, hl, hcaller, hk, rfl⟩ | ⟨i, base, hl, -, hk, rfl⟩ |
    ⟨base, hl, hk, rfl⟩
  · rw [started_fork_iff hst hcaller hk]
    exact ⟨fun hno _ => hno, fun hno => hno hl⟩
  · exact iff_of_true (hst.dispatch h i l.2 hk) fun e => absurd (hl.symm.trans e) (by simp)
  · exact iff_of_true (hst.steady h hk) fun e => absurd e hl

/-! ## 4. Whole runs -/

theorem init_kernel (vm : Vm) : (init vm).kernel = (fresh vm).procInit := by
  rw [kernel, init, ForkState.init]

theorem init_hasRun (vm : Vm) (i : ProcRef) :
    (init vm).hasRun i = true ↔ (init vm).kernel.currentProcess = some i := by
  rw [init, kernel, beq_iff_eq]

theorem ContextsOk.init (vm : Vm) : ContextsOk (init vm) where
  current i hi := (init_hasRun vm i).mpr hi
  saved i _ hne hrun := absurd ((init_hasRun vm i).mp hrun) hne
  fresh i hi hrun := by
    have hne : (ResumeState.init vm).kernel.currentProcess ≠ some i := fun e =>
      Bool.eq_false_iff.mp hrun ((init_hasRun vm i).mpr e)
    refine ⟨?_, Or.inl rfl⟩
    rw [init_kernel] at hi hne ⊢
    rcases procInit_state vm i with hun | hused | ⟨-, hcur⟩
    · exact absurd hun hi
    · exact Or.inr hused
    · exact absurd hcur hne

theorem Started.init (vm : Vm) : Started (init vm) := by
  intro i hi hne
  rw [init_kernel] at hi hne
  rcases procInit_state vm i with hun | hused | ⟨-, hcur⟩
  · exact absurd (hi.symm.trans hun) (by simp)
  · exact absurd (hi.symm.trans hused) (by simp)
  · exact absurd hcur hne

/-- **In every state, the runnable processes that are not current can be resumed exactly when each
of them has run; and they can be resumed in all states of a run exactly when no `fork` of the run
can make a child.** -/
theorem resumes_iff (entry : Word → Prop) (vm : Vm) (ls : List (ForkOp × Regs)) :
    Transition.Always step (fun s => s.Resumes entry ↔ s.Started) (init vm) ls ∧
      (Transition.Always step (Resumes entry) (init vm) ls ↔
        Transition.EachStep step MakesNoChild (init vm) ls) := by
  have hok : Transition.Always step ContextsOk (init vm) ls :=
    Transition.always_of_inv (fun _ _ _ h hs => h.step hs) ls _ (ContextsOk.init vm)
  have hiff : Transition.Always step (fun s => s.Resumes entry ↔ s.Started) (init vm) ls :=
    hok.mono fun _ h => h.resumes_iff_started
  refine ⟨hiff, hiff.congr.trans ?_⟩
  exact Transition.always_iff_eachStep
    (fun _ _ _ (h : ContextsOk _) hst hs => ⟨started_step_iff h hst hs, fun _ => h.step hs⟩) ls _
    (ContextsOk.init vm) (Started.init vm)

/-- The first child of `init` is runnable, with the zeros of `.bss` for a context. -/
theorem child_has_no_context :
    ¬ ∀ (entry : Word → Prop) (vm : Vm) (ls : List (ForkOp × Regs)),
      Transition.Always step (Resumes entry) (init vm) ls := by
  intro hall
  have hrun : (Transition.run step (init ForkState.onePageImage) [(.fork, .zero)]).any (fun s =>
      (s.kernel.procTable 1).state == .runnable && s.kernel.currentProcess == some 0 &&
        s.origin 1 == .bss) = true := by
    decide +kernel
  obtain ⟨s, hs, htest⟩ := (Option.any_eq_true _ _).mp hrun
  simp only [Bool.and_eq_true, beq_iff_eq] at htest
  obtain ⟨⟨hstate, hcur⟩, hbss⟩ := htest
  have hresumes := Transition.always_iff_reachable.mp
    (hall (fun _ => True) ForkState.onePageImage) s ⟨_, hs⟩
  rcases hresumes 1 hstate (by rw [hcur]; decide) with hsaved | ⟨-, hset, -⟩
  · rw [hbss] at hsaved
    exact absurd hsaved (by simp)
  · rw [hbss] at hset
    exact absurd hset (by simp)

end ResumeState

end Lithium
