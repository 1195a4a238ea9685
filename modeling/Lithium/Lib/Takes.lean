/-
# Taking resources in groups

A process takes resources in groups, one after another.  A take may fail; a take of a resource that
is held never returns.  A group that the process has got in full is given back at its end; of any
other group it keeps what it has got.

`Passes` says that all the takes return, and `keeps` what is kept in the end.  Which takes fail is
given by their numbers.
-/
import Mathlib.Algebra.GroupWithZero.Nat
import Mathlib.Data.List.Basic

namespace Lithium.Takes

variable {β : Type*} (fails : Nat → Bool)

/-! ## 1. What is got, and what is kept -/

/-- What the process gets of a group whose first take has the number `r`. -/
def got : Nat → List β → List β
  | _, [] => []
  | r, b :: g => if fails r then got (r + 1) g else b :: got (r + 1) g

/-- What it keeps of a group. -/
def kept (r : Nat) (g : List β) : List β :=
  if (got fails r g).length = g.length then [] else got fails r g

/-- What it keeps of several groups. -/
def keeps : Nat → List (List β) → List β
  | _, [] => []
  | r, g :: gs => kept fails r g ++ keeps (r + g.length) gs

/-- The takes of a group return: nothing of it is held, or taken twice. -/
structure Returns (r : Nat) (held : β → Prop) (g : List β) : Prop where
  nodup : (got fails r g).Nodup
  free : ∀ b ∈ got fails r g, ¬ held b

/-- The takes of all the groups return; what is kept is held from then on. -/
def Passes : Nat → (β → Prop) → List (List β) → Prop
  | _, _, [] => True
  | r, held, g :: gs =>
    Returns fails r held g ∧ Passes (r + g.length) (fun b => held b ∨ b ∈ kept fails r g) gs

/-- The number of takes. -/
def total (gs : List (List β)) : Nat := (gs.map List.length).sum

/-! ## 2. One list of groups after another -/

variable {fails} {r : Nat} {held held' : β → Prop} {g : List β} {gs gs' : List (List β)}

@[simp] theorem total_cons : total (g :: gs) = g.length + total gs := by simp [total]

theorem keeps_append (fails : Nat → Bool) (r : Nat) (gs gs' : List (List β)) :
    keeps fails r (gs ++ gs') =
      keeps fails r gs ++ keeps fails (r + total gs) gs' := by
  induction gs generalizing r with
  | nil => rfl
  | cons g gs ih =>
    rw [List.cons_append, keeps, keeps, ih, total_cons, List.append_assoc, Nat.add_assoc]

theorem Returns.congr (h : ∀ b, held b ↔ held' b) :
    Returns fails r held g ↔ Returns fails r held' g :=
  ⟨fun hr => ⟨hr.nodup, fun b hb hh => hr.free b hb ((h b).mpr hh)⟩,
    fun hr => ⟨hr.nodup, fun b hb hh => hr.free b hb ((h b).mp hh)⟩⟩

theorem Passes.congr (h : ∀ b, held b ↔ held' b) :
    Passes fails r held gs ↔ Passes fails r held' gs := by
  have heq : held = held' := funext fun b => propext (h b)
  rw [heq]

/-- **The takes of two lists of groups return** when those of the first do, and those of the second
with what the first has kept. -/
theorem passes_append : Passes fails r held (gs ++ gs') ↔ Passes fails r held gs ∧
    Passes fails (r + total gs) (fun b => held b ∨ b ∈ keeps fails r gs) gs' := by
  induction gs generalizing r held with
  | nil =>
    have hnone : ∀ b, held b ↔ held b ∨ b ∈ keeps fails r [] := fun b => by simp [keeps]
    rw [List.nil_append, Passes.congr hnone]
    exact (iff_of_eq (true_and _)).symm
  | cons g gs ih =>
    have hassoc : ∀ b, (held b ∨ b ∈ kept fails r g) ∨ b ∈ keeps fails (r + g.length) gs ↔
        held b ∨ b ∈ keeps fails r (g :: gs) := fun b => by
      rw [keeps, List.mem_append, or_assoc]
    rw [List.cons_append, Passes, Passes, ih, Passes.congr hassoc, total_cons, Nat.add_assoc,
      and_assoc]

/-- A process that gets nothing. -/
theorem got_of_fails (h : ∀ k, r ≤ k → fails k = true) : got fails r g = [] := by
  induction g generalizing r with
  | nil => rfl
  | cons b g ih =>
    rw [got, if_pos (h r (Nat.le_refl r))]
    exact ih fun k hk => h k (Nat.le_of_succ_le hk)

/-- Takes that fail return. -/
theorem passes_of_fails (h : ∀ k, r ≤ k → fails k = true) : Passes fails r held gs := by
  induction gs generalizing r held with
  | nil => trivial
  | cons g gs ih =>
    refine ⟨?_, ih fun k hk => h k (Nat.le_of_add_right_le hk)⟩
    constructor
    · rw [got_of_fails h]
      exact List.nodup_nil
    · rw [got_of_fails h]
      exact fun _ hb => absurd hb List.not_mem_nil

/-! ## 3. Groups of one and of two -/

/-- A group of one is given back, or not got. -/
@[simp] theorem kept_single (b : β) : kept fails r [b] = [] := by
  unfold kept got got
  cases fails r <;> rfl

theorem keeps_single (b : β) : keeps fails r [[b]] = [] := by
  rw [keeps, kept_single]
  rfl

/-- A take that does not fail returns when nobody holds the resource. -/
theorem returns_single {b : β} :
    Returns fails r held [b] ↔ (fails r = false → ¬ held b) := by
  have hgot : got fails r [b] = if fails r then [] else [b] := rfl
  constructor
  · intro h hr
    exact h.free b (by simp [hgot, hr])
  · intro h
    cases hr : fails r with
    | true => exact ⟨by simp [hgot, hr], by simp [hgot, hr]⟩
    | false => exact ⟨by simp [hgot, hr], by simpa [hgot, hr] using h hr⟩

theorem passes_single {b : β} :
    Passes fails r held [[b]] ↔ (fails r = false → ¬ held b) := by
  rw [Passes, Passes, and_true, returns_single]

/-- What the process gets of a group of two. -/
theorem got_pair (fails : Nat → Bool) (r : Nat) (x y : β) : got fails r [x, y] =
    (if fails r then [] else [x]) ++ if fails (r + 1) then [] else [y] := by
  unfold got got got
  split <;> split <;> rfl

/-- The number of the first take of a group of two, from the group after the first one on. -/
theorem pair_shift (r t : Nat) (x y : β) : r + [x, y].length + 2 * t = r + 2 * (t + 1) := by
  simp only [List.length_cons, List.length_nil]
  omega

/-- A group of two is got in full, or not at all, or it leaves something behind. -/
theorem kept_pair (b b' : β) : kept fails r [b, b'] = [] ↔ fails r = fails (r + 1) := by
  unfold kept got got got
  cases fails r <;> cases fails (r + 1) <;> simp

/-- Nothing is left behind when the two takes of every group fail together. -/
theorem keeps_pairs {γ : Type*} {f f' : γ → β} {es : List γ} :
    keeps fails r (es.map fun e => [f e, f' e]) = [] ↔
      ∀ t < es.length, fails (r + 2 * t) = fails (r + 2 * t + 1) := by
  induction es generalizing r with
  | nil => simp [keeps]
  | cons e es ih =>
    rw [List.map_cons, keeps, List.append_eq_nil_iff, kept_pair, ih]
    simp only [pair_shift]
    constructor
    · rintro ⟨hzero, hsucc⟩ t ht
      cases t with
      | zero => exact hzero
      | succ t => exact hsucc t (Nat.lt_of_succ_lt_succ ht)
    · exact fun h => ⟨h 0 (Nat.zero_lt_succ _), fun t ht => h (t + 1) (Nat.succ_lt_succ ht)⟩

/-- What a group of two leaves behind. -/
theorem mem_kept_pair {b x y : β} : b ∈ kept fails r [x, y] ↔
    (fails r = false ∧ fails (r + 1) = true ∧ b = x) ∨
      (fails r = true ∧ fails (r + 1) = false ∧ b = y) := by
  unfold kept got got got
  cases fails r <;> cases fails (r + 1) <;> simp

/-- The takes of a group of two return when nobody holds what is got, and it is not got twice. -/
theorem returns_pair {x y : β} : Returns fails r held [x, y] ↔
    (fails r = false → ¬ held x) ∧
      (fails (r + 1) = false → ¬ held y ∧ (fails r = false → y ≠ x)) := by
  have hgot := got_pair fails r x y
  constructor
  · rintro ⟨hnodup, hfree⟩
    rw [hgot] at hnodup hfree
    refine ⟨fun h0 => hfree x (by simp [h0]), fun h1 => ⟨hfree y (by simp [h1]), fun h0 => ?_⟩⟩
    rintro rfl
    simp [h0, h1] at hnodup
  · rintro ⟨hfirst, hsecond⟩
    refine ⟨?_, ?_⟩
    · rw [hgot]
      cases h0 : fails r <;> cases h1 : fails (r + 1) <;> simp
      exact fun he => (hsecond h1).2 h0 he.symm
    · rw [hgot]
      intro b hb
      rcases List.mem_append.mp hb with hb | hb
      · cases h0 : fails r with
        | true => simp [h0] at hb
        | false =>
          rw [h0] at hb
          exact List.mem_singleton.mp hb ▸ hfirst h0
      · cases h1 : fails (r + 1) with
        | true => simp [h1] at hb
        | false =>
          rw [h1] at hb
          exact List.mem_singleton.mp hb ▸ (hsecond h1).1

section Pairs

variable {γ : Type*} {f f' : γ → β} {es : List γ}

/-- What the groups of two have left behind. -/
theorem mem_keeps_pairs {b : β} : b ∈ keeps fails r (es.map fun e => [f e, f' e]) ↔
    ∃ t e, es[t]? = some e ∧ b ∈ kept fails (r + 2 * t) [f e, f' e] := by
  induction es generalizing r with
  | nil => simp [keeps]
  | cons e es ih =>
    rw [List.map_cons, keeps, List.mem_append, ih]
    simp only [pair_shift]
    constructor
    · rintro (hb | ⟨t, e', he', hb⟩)
      · exact ⟨0, e, rfl, hb⟩
      · exact ⟨t + 1, e', he', hb⟩
    · rintro ⟨t, e', he', hb⟩
      cases t with
      | zero =>
        obtain rfl := Option.some.inj he'
        exact .inl hb
      | succ t => exact .inr ⟨t, e', he', hb⟩

/-- **The takes of groups of two return** when those of each group do, with what the groups before
it have left behind. -/
theorem passes_pairs : Passes fails r held (es.map fun e => [f e, f' e]) ↔
    ∀ t e, es[t]? = some e → Returns fails (r + 2 * t)
      (fun b => held b ∨ b ∈ keeps fails r ((es.take t).map fun e => [f e, f' e])) [f e, f' e] := by
  induction es generalizing r held with
  | nil => simp [Passes]
  | cons e es ih =>
    have hheld : ∀ t b, (held b ∨ b ∈ kept fails r [f e, f' e]) ∨
        b ∈ keeps fails (r + [f e, f' e].length) ((es.take t).map fun e => [f e, f' e]) ↔
        held b ∨ b ∈ keeps fails r (((e :: es).take (t + 1)).map fun e => [f e, f' e]) :=
      fun t b => by
        rw [List.take_succ_cons, List.map_cons, keeps, List.mem_append, or_assoc]
    have hzero : ∀ b, held b ↔
        held b ∨ b ∈ keeps fails r (((e :: es).take 0).map fun e => [f e, f' e]) := fun b => by
      simp [keeps]
    rw [List.map_cons, Passes, ih]
    constructor
    · rintro ⟨hfirst, hrest⟩ t e' he'
      cases t with
      | zero =>
        obtain rfl := Option.some.inj he'
        exact (Returns.congr hzero).mp hfirst
      | succ t =>
        rw [← pair_shift r t (f e) (f' e), ← Returns.congr (hheld t)]
        exact hrest t e' he'
    · refine fun h => ⟨(Returns.congr hzero).mpr (h 0 e rfl), fun t e' he' => ?_⟩
      rw [Returns.congr (hheld t), pair_shift]
      exact h (t + 1) e' he'

end Pairs

end Lithium.Takes
