/-
# Runs of a labelled transition system

A machine is a partial step function `step : σ → ℓ → Option σ`: the label carries every
nondeterministic choice (which process moves, what the device answers), and `none` says that
the label is not enabled.  A run is a list of labels; it stops at the first label that is not
enabled, so every list of labels is a run and nothing has to be assumed of it.

Two predicates on runs are all the developments above need.

* `Always P s ls`: every state the run passes through satisfies `P`.
* `EachStep C s ls`: every step the run takes satisfies `C` in the state it is taken from.

The rules of section 3 are the ones proofs about runs go by: an invariant holds always
(`always_of_inv`), a condition on the steps keeps a property (`always_of_eachStep`), two conditions
that agree under an invariant are met by the same runs (`eachStep_congr`), and a condition that is
exact for one step is exact for whole runs (`always_iff_eachStep`).

Section 4 compares two machines by what an observer sees of their runs, and section 5 is about runs
that can be brought to an end.
-/
import Mathlib.Logic.Basic
import Mathlib.Data.List.Basic

namespace Lithium.Transition

variable {σ ℓ : Type*}

/-! ## 1. Runs -/

/-- The state reached by a list of labels, when all of them are enabled in turn. -/
def run (step : σ → ℓ → Option σ) : σ → List ℓ → Option σ
  | s, [] => some s
  | s, l :: ls => (step s l).bind fun s' => run step s' ls

/-- Every state of the run satisfies `P`, the first one included. -/
def Always (step : σ → ℓ → Option σ) (P : σ → Prop) : σ → List ℓ → Prop
  | s, [] => P s
  | s, l :: ls => P s ∧ ∀ s', step s l = some s' → Always step P s' ls

/-- Every step the run takes satisfies `C` in the state it starts from. -/
def EachStep (step : σ → ℓ → Option σ) (C : σ → ℓ → Prop) : σ → List ℓ → Prop
  | _, [] => True
  | s, l :: ls => ∀ s', step s l = some s' → C s l ∧ EachStep step C s' ls

instance EachStep.decidable (step : σ → ℓ → Option σ) (C : σ → ℓ → Prop)
    [∀ s l, Decidable (C s l)] : ∀ s ls, Decidable (EachStep step C s ls)
  | _, [] => isTrue trivial
  | s, l :: ls =>
    match hs : step s l with
    | none => isTrue fun s' hs' => absurd (hs.symm.trans hs') (by simp)
    | some t =>
      haveI := EachStep.decidable step C t ls
      decidable_of_iff (C s l ∧ EachStep step C t ls)
        ⟨fun h s' hs' => Option.some.inj (hs.symm.trans hs') ▸ h, fun h => h t hs⟩

/-- `t` can be reached from `s`. -/
def Reachable (step : σ → ℓ → Option σ) (s t : σ) : Prop :=
  ∃ ls, run step s ls = some t

variable {step : σ → ℓ → Option σ} {P Inv : σ → Prop} {C : σ → ℓ → Prop}

@[simp] theorem run_nil (s : σ) : run step s [] = some s := rfl

theorem run_cons (s : σ) (l : ℓ) (ls : List ℓ) :
    run step s (l :: ls) = (step s l).bind fun s' => run step s' ls := rfl

/-- Running two lists of labels one after the other. -/
theorem run_append : ∀ (ks ls : List ℓ) (s : σ),
    run step s (ks ++ ls) = (run step s ks).bind fun s' => run step s' ls
  | [], ls, s => rfl
  | k :: ks, ls, s => by
    rw [List.cons_append, run_cons, run_cons]
    cases step s k with
    | none => rfl
    | some s' => exact run_append ks ls s'

theorem Reachable.refl (s : σ) : Reachable step s s := ⟨[], rfl⟩

theorem Reachable.tail {s t u : σ} {l : ℓ} (h : Reachable step s t) (hl : step t l = some u) :
    Reachable step s u := by
  obtain ⟨ls, hls⟩ := h
  refine ⟨ls ++ [l], ?_⟩
  rw [run_append, hls, Option.bind_some, run_cons, hl]
  rfl

theorem Reachable.trans {s t u : σ} (h : Reachable step s t) (h' : Reachable step t u) :
    Reachable step s u := by
  obtain ⟨ks, hks⟩ := h
  obtain ⟨ls, hls⟩ := h'
  refine ⟨ks ++ ls, ?_⟩
  rw [run_append, hks, Option.bind_some, hls]

/-! ## 2. Reading a run -/

theorem Always.head {s : σ} {ls : List ℓ} (h : Always step P s ls) : P s := by
  cases ls with
  | nil => exact h
  | cons l ls => exact h.1

theorem Always.mono {Q : σ → Prop} (hPQ : ∀ s, P s → Q s) :
    ∀ {ls : List ℓ} {s : σ}, Always step P s ls → Always step Q s ls
  | [], _, h => hPQ _ h
  | _ :: _, _, h => ⟨hPQ _ h.1, fun s' hs' => Always.mono hPQ (h.2 s' hs')⟩

/-- Where two properties agree along a run, the run keeps both or neither. -/
theorem Always.congr {Q : σ → Prop} :
    ∀ {ls : List ℓ} {s : σ}, Always step (fun s => P s ↔ Q s) s ls →
      (Always step P s ls ↔ Always step Q s ls)
  | [], _, h => h
  | _ :: _, _, h => and_congr h.1 (forall₂_congr fun s' hs' => Always.congr (h.2 s' hs'))

/-- Another condition that the enabled steps meeting `C` meet. -/
theorem EachStep.mono {D : σ → ℓ → Prop}
    (hCD : ∀ s l s', step s l = some s' → C s l → D s l) :
    ∀ {ls : List ℓ} {s : σ}, EachStep step C s ls → EachStep step D s ls
  | [], _, _ => trivial
  | _ :: _, _, h => fun s' hs' => ⟨hCD _ _ s' hs' (h s' hs').1, EachStep.mono hCD (h s' hs').2⟩

/-- Labels that meet the condition in every state. -/
theorem eachStep_of_labels : ∀ {ls : List ℓ} {s : σ}, (∀ l ∈ ls, ∀ s, C s l) →
    EachStep step C s ls
  | [], _, _ => trivial
  | _ :: _, _, h => fun _ _ =>
      ⟨h _ List.mem_cons_self _, eachStep_of_labels fun l hl => h l (List.mem_cons_of_mem _ hl)⟩

/-- **What `Always` says**: `P` holds in the state reached by every part of the run. -/
theorem always_iff_forall_part : ∀ (ls : List ℓ) (s : σ),
    Always step P s ls ↔ ∀ ks t, ks <+: ls → run step s ks = some t → P t
  | [], s => by
    constructor
    · rintro h ks t hks ht
      rw [List.prefix_nil.mp hks, run_nil, Option.some.injEq] at ht
      exact ht ▸ h
    · exact fun h => h [] s List.prefix_rfl rfl
  | l :: ls, s => by
    constructor
    · rintro ⟨hP, hrest⟩ ks t hks ht
      cases ks with
      | nil => rw [run_nil, Option.some.injEq] at ht; exact ht ▸ hP
      | cons k ks =>
        obtain ⟨rfl, hks'⟩ := List.cons_prefix_cons.mp hks
        rw [run_cons, Option.bind_eq_some_iff] at ht
        obtain ⟨s', hs', ht'⟩ := ht
        exact (always_iff_forall_part ls s').mp (hrest s' hs') ks t hks' ht'
    · intro h
      refine ⟨h [] s (List.nil_prefix) rfl, fun s' hs' => ?_⟩
      refine (always_iff_forall_part ls s').mpr fun ks t hks ht => ?_
      refine h (l :: ks) t (List.cons_prefix_cons.mpr ⟨rfl, hks⟩) ?_
      rw [run_cons, hs']
      exact ht

/-- A property holds along every run exactly when it holds in every reachable state. -/
theorem always_iff_reachable {s : σ} :
    (∀ ls, Always step P s ls) ↔ ∀ t, Reachable step s t → P t := by
  constructor
  · rintro h t ⟨ls, hls⟩
    exact (always_iff_forall_part ls s).mp (h ls) ls t List.prefix_rfl hls
  · exact fun h ls => (always_iff_forall_part ls s).mpr fun ks t _ ht => h t ⟨ks, ht⟩

/-- A condition is met by every step of every run exactly when it is met by every step that is
enabled in a reachable state. -/
theorem eachStep_iff_reachable {s : σ} : (∀ ls, EachStep step C s ls) ↔
    ∀ t l t', Reachable step s t → step t l = some t' → C t l := by
  constructor
  · rintro h t l t' ⟨ks, hks⟩ hl
    have key : ∀ (ks : List ℓ) (s : σ), EachStep step C s (ks ++ [l]) →
        run step s ks = some t → C t l := by
      intro ks
      induction ks with
      | nil =>
        intro s hc hs
        rw [run_nil, Option.some.injEq] at hs
        subst hs
        exact (hc t' hl).1
      | cons k ks ih =>
        intro s hc hs
        rw [run_cons, Option.bind_eq_some_iff] at hs
        obtain ⟨s', hs', hs⟩ := hs
        exact ih s' (hc s' hs').2 hs
    exact key ks s (h (ks ++ [l])) hks
  · intro h ls
    have key : ∀ (ls : List ℓ) (u : σ), Reachable step s u → EachStep step C u ls := by
      intro ls
      induction ls with
      | nil => exact fun _ _ => trivial
      | cons l ls ih => exact fun u hu u' hu' => ⟨h u l u' hu hu', ih u' (hu.tail hu')⟩
    exact key ls s (Reachable.refl s)

/-! ## 3. The rules -/

/-- **Invariants.**  What holds at first and is kept by every step holds always. -/
theorem always_of_inv (hstep : ∀ s l s', Inv s → step s l = some s' → Inv s') :
    ∀ (ls : List ℓ) (s : σ), Inv s → Always step Inv s ls
  | [], _, h => h
  | l :: ls, s, h => ⟨h, fun s' hs' => always_of_inv hstep ls s' (hstep s l s' h hs')⟩

/-- An invariant holds in every reachable state. -/
theorem reachable_inv (hstep : ∀ s l s', Inv s → step s l = some s' → Inv s') {s t : σ}
    (h : Inv s) (ht : Reachable step s t) : Inv t :=
  always_iff_reachable.mp (fun ls => always_of_inv hstep ls s h) t ht

/-- **Conditional invariants.**  What the steps meeting `C` keep holds along every run all of
whose steps meet `C`. -/
theorem always_of_eachStep
    (hstep : ∀ s l s', Inv s → C s l → step s l = some s' → Inv s') :
    ∀ (ls : List ℓ) (s : σ), Inv s → EachStep step C s ls → Always step Inv s ls
  | [], _, h, _ => h
  | l :: ls, s, h, hc => ⟨h, fun s' hs' =>
      always_of_eachStep hstep ls s' (hstep s l s' h (hc s' hs').1 hs') (hc s' hs').2⟩

/-- What the steps meeting `C` satisfy under an invariant that they keep. -/
theorem eachStep_of_eachStep {D : σ → ℓ → Prop}
    (hstep : ∀ s l s', Inv s → C s l → step s l = some s' → Inv s' ∧ D s l) :
    ∀ (ls : List ℓ) (s : σ), Inv s → EachStep step C s ls → EachStep step D s ls
  | [], _, _, _ => trivial
  | l :: ls, s, h, hc => fun s' hs' =>
      have hnext := hstep s l s' h (hc s' hs').1 hs'
      ⟨hnext.2, eachStep_of_eachStep hstep ls s' hnext.1 (hc s' hs').2⟩

/-- **Conditions that agree** on the steps from states that keep an invariant are met by the same
runs. -/
theorem eachStep_congr {D : σ → ℓ → Prop}
    (hinv : ∀ s l s', Inv s → step s l = some s' → Inv s')
    (hcd : ∀ s l s', Inv s → step s l = some s' → (C s l ↔ D s l)) :
    ∀ (ls : List ℓ) (s : σ), Inv s → (EachStep step C s ls ↔ EachStep step D s ls)
  | [], _, _ => Iff.rfl
  | l :: ls, s, h => forall₂_congr fun s' hs' =>
      and_congr (hcd s l s' h hs') (eachStep_congr hinv hcd ls s' (hinv s l s' h hs'))

/-- **Exact conditions.**  If, as long as the invariant and the property hold, a step keeps the
property exactly when it meets `C`, then a whole run keeps it exactly when all its steps do.
The invariant only has to be kept by the steps that keep the property. -/
theorem always_iff_eachStep
    (hstep : ∀ s l s', Inv s → P s → step s l = some s' → (P s' ↔ C s l) ∧ (P s' → Inv s')) :
    ∀ (ls : List ℓ) (s : σ), Inv s → P s → (Always step P s ls ↔ EachStep step C s ls)
  | [], _, _, hP => ⟨fun _ => trivial, fun _ => hP⟩
  | l :: ls, s, hI, hP => by
    constructor
    · rintro ⟨-, hrest⟩ s' hs'
      obtain ⟨hiff, hinv⟩ := hstep s l s' hI hP hs'
      have hP' : P s' := (hrest s' hs').head
      exact ⟨hiff.mp hP', (always_iff_eachStep hstep ls s' (hinv hP') hP').mp (hrest s' hs')⟩
    · intro hc
      refine ⟨hP, fun s' hs' => ?_⟩
      obtain ⟨hiff, hinv⟩ := hstep s l s' hI hP hs'
      obtain ⟨hC, hcs⟩ := hc s' hs'
      have hP' : P s' := hiff.mpr hC
      exact (always_iff_eachStep hstep ls s' (hinv hP') hP').mpr hcs

/-! ## 4. Two machines -/

section Refinement

variable {σ' ℓ' ε : Type*}

/-- What an observer sees of a run, who sees of each step the event `vis` gives it, if any. -/
def trace (step : σ → ℓ → Option σ) (vis : σ → ℓ → Option ε) : σ → List ℓ → List ε
  | _, [] => []
  | s, l :: ls =>
    match step s l with
    | none => []
    | some s' => (vis s l).toList ++ trace step vis s' ls

variable {vis : σ → ℓ → Option ε} {step' : σ' → ℓ' → Option σ'} {vis' : σ' → ℓ' → Option ε}

theorem trace_cons {s s' : σ} {l : ℓ} (hs : step s l = some s') (ls : List ℓ) :
    trace step vis s (l :: ls) = (vis s l).toList ++ trace step vis s' ls := by
  rw [trace, hs]

theorem trace_append : ∀ (ks ls : List ℓ) {s t : σ}, run step s ks = some t →
    trace step vis s (ks ++ ls) = trace step vis s ks ++ trace step vis t ls
  | [], ls, s, t, h => by
    rw [run_nil, Option.some.injEq] at h
    rw [h]
    rfl
  | k :: ks, ls, s, t, h => by
    rw [run_cons, Option.bind_eq_some_iff] at h
    obtain ⟨s', hs', h⟩ := h
    rw [List.cons_append, trace_cons hs', trace_cons hs', trace_append ks ls h, List.append_assoc]

/-- Some run of the second machine goes from `a` to `b`, and an observer sees `es` of it. -/
def Shows (step' : σ' → ℓ' → Option σ') (vis' : σ' → ℓ' → Option ε) (a b : σ') (es : List ε) :
    Prop :=
  ∃ ks, run step' a ks = some b ∧ trace step' vis' a ks = es

theorem Shows.refl (a : σ') : Shows step' vis' a a [] := ⟨[], rfl, rfl⟩

/-- One step of the second machine. -/
theorem Shows.single {a b : σ'} {l : ℓ'} (h : step' a l = some b) :
    Shows step' vis' a b (vis' a l).toList := by
  refine ⟨[l], ?_, ?_⟩
  · rw [run_cons, h]
    rfl
  · rw [trace_cons h, trace, List.append_nil]

theorem Shows.trans {a b c : σ'} {es fs : List ε} (h : Shows step' vis' a b es)
    (h' : Shows step' vis' b c fs) : Shows step' vis' a c (es ++ fs) := by
  obtain ⟨ks, hks, rfl⟩ := h
  obtain ⟨ls, hls, rfl⟩ := h'
  refine ⟨ks ++ ls, ?_, trace_append ks ls hks⟩
  rw [run_append, hks, Option.bind_some, hls]

/-- **Simulation.**  If the second machine can follow each step that the first one takes with a
label in `C`, from and to related states, and an observer sees the same of both, then it follows
whole runs. -/
theorem shows_of_simulation {R : σ → σ' → Prop} {C : ℓ → Prop}
    (hstep : ∀ s l s' a, R s a → C l → step s l = some s' →
      ∃ b, R s' b ∧ Shows step' vis' a b (vis s l).toList) :
    ∀ (ls : List ℓ) {s t : σ} {a : σ'}, R s a → (∀ l ∈ ls, C l) → run step s ls = some t →
      ∃ b, R t b ∧ Shows step' vis' a b (trace step vis s ls) := by
  intro ls
  induction ls with
  | nil =>
    intro s t a hR _ hrun
    rw [run_nil, Option.some.injEq] at hrun
    subst hrun
    exact ⟨a, hR, .refl a⟩
  | cons l ls ih =>
    intro s t a hR hC hrun
    rw [run_cons, Option.bind_eq_some_iff] at hrun
    obtain ⟨s', hs', hrun⟩ := hrun
    obtain ⟨b, hR', hshows⟩ := hstep s l s' a hR (hC l List.mem_cons_self) hs'
    obtain ⟨c, hR'', hshows'⟩ := ih hR' (fun k hk => hC k (List.mem_cons_of_mem l hk)) hrun
    rw [trace_cons hs']
    exact ⟨c, hR'', hshows.trans hshows'⟩

/-- **Refinement.**  If the second machine follows each step that the first one takes under its
invariant, from and to the states that `f` gives, and an observer sees the same of both, then it
follows whole runs. -/
theorem shows_of_steps (f : σ → σ') (hinv : ∀ s l s', Inv s → step s l = some s' → Inv s')
    (hstep : ∀ s l s', Inv s → step s l = some s' →
      Shows step' vis' (f s) (f s') (vis s l).toList)
    (ls : List ℓ) (s t : σ) (hs : Inv s) (hrun : run step s ls = some t) :
    Shows step' vis' (f s) (f t) (trace step vis s ls) := by
  obtain ⟨b, ⟨-, rfl⟩, hshows⟩ := shows_of_simulation (R := fun s a => Inv s ∧ f s = a)
    (C := fun _ => True)
    (fun s l s' a hR _ hs' => ⟨f s', ⟨hinv s l s' hR.1 hs', rfl⟩, hR.2 ▸ hstep s l s' hR.1 hs'⟩)
    ls ⟨hs, rfl⟩ (fun _ _ => trivial) hrun
  exact hshows

end Refinement

/-! ## 5. Runs that can be ended -/

/-- How many steps of a run meet `C`. -/
def count (step : σ → ℓ → Option σ) (C : σ → ℓ → Bool) : σ → List ℓ → Nat
  | _, [] => 0
  | s, l :: ls =>
    match step s l with
    | none => 0
    | some s' => (C s l).toNat + count step C s' ls

theorem count_cons {C : σ → ℓ → Bool} {s s' : σ} {l : ℓ} (hs : step s l = some s')
    (ls : List ℓ) : count step C s (l :: ls) = (C s l).toNat + count step C s' ls := by
  rw [count, hs]

/-- A run with labels in `D` takes at most `n` steps that meet `C`, and wherever it stands, more
labels in `D` lead to `P`. -/
structure Finishes (step : σ → ℓ → Option σ) (D : ℓ → Prop) (C : σ → ℓ → Bool) (P : σ → Prop)
    (n : Nat) (s : σ) : Prop where
  bounded : ∀ ls t, run step s ls = some t → (∀ l ∈ ls, D l) → count step C s ls ≤ n
  canEnd : ∀ ls t, run step s ls = some t → (∀ l ∈ ls, D l) →
    ∃ ks u, run step t ks = some u ∧ (∀ k ∈ ks, D k) ∧ P u

/-- **Variants.**  Under an invariant no step raises the measure, those that meet `C` lower it, and
short of `P` some run lowers it. -/
theorem finishes_of_measure {D : ℓ → Prop} {C : σ → ℓ → Bool} (m : σ → Nat)
    (hinv : ∀ s l s', Inv s → step s l = some s' → Inv s')
    (hle : ∀ s l s', Inv s → step s l = some s' → D l → m s' + (C s l).toNat ≤ m s)
    (hgoes : ∀ s, Inv s → ¬ P s → ∃ ls t, run step s ls = some t ∧ (∀ l ∈ ls, D l) ∧ m t < m s)
    {s : σ} (hs : Inv s) : Finishes step D C P (m s) s := by
  have hcount : ∀ (ls : List ℓ) (s t : σ), Inv s → run step s ls = some t → (∀ l ∈ ls, D l) →
      m t + count step C s ls ≤ m s := by
    intro ls
    induction ls with
    | nil =>
      intro s t _ hrun _
      rw [run_nil, Option.some.injEq] at hrun
      exact hrun ▸ Nat.le_refl _
    | cons l ls ih =>
      intro s t hI hrun hD
      rw [run_cons, Option.bind_eq_some_iff] at hrun
      obtain ⟨s', hs', hrun⟩ := hrun
      have hrest := ih s' t (hinv s l s' hI hs') hrun fun k hk => hD k (List.mem_cons_of_mem l hk)
      have hstep := hle s l s' hI hs' (hD l List.mem_cons_self)
      rw [count_cons hs']
      omega
  -- what is left of the measure pays for the rest of the run
  have hend : ∀ (n : Nat) (t : σ), Inv t → m t ≤ n →
      ∃ ks u, run step t ks = some u ∧ (∀ k ∈ ks, D k) ∧ P u := by
    intro n
    induction n with
    | zero =>
      intro t hI hn
      refine ⟨[], t, rfl, fun _ hk => absurd hk List.not_mem_nil, ?_⟩
      by_contra hP
      obtain ⟨ls, t', -, -, hlt⟩ := hgoes t hI hP
      omega
    | succ n ih =>
      intro t hI hn
      by_cases hP : P t
      · exact ⟨[], t, rfl, fun _ hk => absurd hk List.not_mem_nil, hP⟩
      · obtain ⟨ls, t', hrun, hD, hlt⟩ := hgoes t hI hP
        obtain ⟨ks, u, hu, hDu, hPu⟩ := ih t' (reachable_inv hinv hI ⟨ls, hrun⟩) (by omega)
        refine ⟨ls ++ ks, u, ?_, fun k hk => (List.mem_append.mp hk).elim (hD k) (hDu k), hPu⟩
        rw [run_append, hrun]
        exact hu
  refine ⟨fun ls t hrun hD => ?_, fun ls t hrun _ => ?_⟩
  · have := hcount ls s t hs hrun hD
    omega
  · exact hend (m t) t (reachable_inv hinv hs ⟨ls, hrun⟩) (Nat.le_refl _)

end Lithium.Transition
