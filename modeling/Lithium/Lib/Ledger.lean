/-
# Who holds what

A pool of items, of which some are free and each other one is held by one holder.  An item is
handed out, is passed on, or comes back, and new items may enter the pool.  What is free follows
from what is held, and the number of free items from the number of holders.
-/
import Mathlib.Data.Finset.Card

namespace Lithium

variable {ι η : Type*}

/-- Every item of the pool is free or held, no item is both, and no two holders share an item or
two items a holder. -/
structure Ledger (pool free : ι → Prop) (holds : η → ι → Prop) : Prop where
  total : ∀ x, pool x ↔ free x ∨ ∃ h, holds h x
  taken : ∀ {h x}, holds h x → ¬ free x
  alone : ∀ {h h' x}, holds h x → holds h' x → h = h'
  single : ∀ {h x x'}, holds h x → holds h x' → x = x'

namespace Ledger

variable {pool free free' : ι → Prop} {holds holds' : η → ι → Prop}

/-- At first nothing is held. -/
theorem start (hpool : ∀ x, pool x ↔ free x) (hnone : ∀ g x, ¬ holds g x) :
    Ledger pool free holds where
  total x := by
    rw [hpool]
    exact ⟨Or.inl, fun h => h.elim id fun ⟨g, hg⟩ => absurd hg (hnone g x)⟩
  taken hx := absurd hx (hnone _ _)
  alone hx := absurd hx (hnone _ _)
  single hx := absurd hx (hnone _ _)

/-- What is not held is free. -/
theorem free_iff (h : Ledger pool free holds) (x : ι) :
    free x ↔ pool x ∧ ∀ g, ¬ holds g x := by
  constructor
  · exact fun hx => ⟨(h.total x).mpr (Or.inl hx), fun g hg => h.taken hg hx⟩
  · rintro ⟨hx, hnone⟩
    rcases (h.total x).mp hx with hfree | ⟨g, hg⟩
    · exact hfree
    · exact absurd hg (hnone g)

/-- Two ledgers of one pool with the same holders have the same free items. -/
theorem free_congr (h : Ledger pool free holds) (h' : Ledger pool free' holds')
    (hholds : ∀ g x, holds' g x ↔ holds g x) (x : ι) : free' x ↔ free x := by
  rw [h.free_iff, h'.free_iff]
  simp only [hholds]

theorem congr (h : Ledger pool free holds) (hfree : ∀ x, free' x ↔ free x)
    (hholds : ∀ g x, holds' g x ↔ holds g x) : Ledger pool free' holds' where
  total x := by
    rw [h.total, hfree]
    simp only [hholds]
  taken hx hf := h.taken ((hholds _ _).mp hx) ((hfree _).mp hf)
  alone hx hx' := h.alone ((hholds _ _).mp hx) ((hholds _ _).mp hx')
  single hx hx' := h.single ((hholds _ _).mp hx) ((hholds _ _).mp hx')

/-- One more holder, of an item that nobody held, and who held nothing: the items are not shared. -/
theorem alone_added {g : η} {x : ι} (hholds : ∀ g' y, holds' g' y ↔ holds g' y ∨ (g' = g ∧ y = x))
    (halone : ∀ {g₁ g₂ y}, holds g₁ y → holds g₂ y → g₁ = g₂) (hnobody : ∀ g', ¬ holds g' x)
    {g₁ g₂ : η} {y : ι} (h₁ : holds' g₁ y) (h₂ : holds' g₂ y) : g₁ = g₂ := by
  rcases (hholds g₁ y).mp h₁ with h₁ | ⟨e₁, hy⟩ <;> rcases (hholds g₂ y).mp h₂ with h₂ | ⟨e₂, hy'⟩
  · exact halone h₁ h₂
  · exact absurd (hy' ▸ h₁) (hnobody g₁)
  · exact absurd (hy ▸ h₂) (hnobody g₂)
  · exact e₁.trans e₂.symm

theorem single_added {g : η} {x : ι} (hholds : ∀ g' y, holds' g' y ↔ holds g' y ∨ (g' = g ∧ y = x))
    (hsingle : ∀ {g' y y'}, holds g' y → holds g' y' → y = y') (hnone : ∀ y, ¬ holds g y)
    {g' : η} {y y' : ι} (h₁ : holds' g' y) (h₂ : holds' g' y') : y = y' := by
  rcases (hholds g' y).mp h₁ with h₁ | ⟨e₁, hy⟩ <;> rcases (hholds g' y').mp h₂ with h₂ | ⟨e₂, hy'⟩
  · exact hsingle h₁ h₂
  · exact absurd (e₂ ▸ h₁) (hnone y)
  · exact absurd (e₁ ▸ h₂) (hnone y')
  · exact hy.trans hy'.symm

/-- **Handing out** the free item `x` to `g`, who held nothing. -/
theorem give (h : Ledger pool free holds) {g : η} {x : ι} (hx : free x)
    (hnone : ∀ y, ¬ holds g y) (hfree : ∀ y, free' y ↔ free y ∧ y ≠ x)
    (hholds : ∀ g' y, holds' g' y ↔ holds g' y ∨ (g' = g ∧ y = x)) :
    Ledger pool free' holds' where
  total y := by
    rw [h.total]
    simp only [hfree, hholds]
    by_cases hy : y = x
    · subst hy
      exact ⟨fun _ => Or.inr ⟨g, Or.inr ⟨rfl, rfl⟩⟩, fun _ => Or.inl hx⟩
    · simp [hy]
  taken {g' y} hy hf := by
    obtain ⟨hf, hne⟩ := (hfree y).mp hf
    rcases (hholds g' y).mp hy with hy | ⟨-, hy⟩
    · exact h.taken hy hf
    · exact hne hy
  alone := alone_added hholds h.alone fun _ hg' => h.taken hg' hx
  single := single_added hholds h.single hnone

/-- **Taking back** the item `x` of `g`. -/
theorem back (h : Ledger pool free holds) {g : η} {x : ι} (hx : holds g x)
    (hfree : ∀ y, free' y ↔ free y ∨ y = x)
    (hholds : ∀ g' y, holds' g' y ↔ holds g' y ∧ g' ≠ g) : Ledger pool free' holds' where
  total y := by
    rw [h.total]
    simp only [hfree, hholds]
    constructor
    · rintro (hy | ⟨g', hg'⟩)
      · exact Or.inl (Or.inl hy)
      · by_cases he : g' = g
        · exact Or.inl (Or.inr (h.single (he ▸ hg') hx))
        · exact Or.inr ⟨g', hg', he⟩
    · rintro ((hy | rfl) | ⟨g', hg', -⟩)
      · exact Or.inl hy
      · exact Or.inr ⟨g, hx⟩
      · exact Or.inr ⟨g', hg'⟩
  taken {g' y} hy hf := by
    obtain ⟨hy, hne⟩ := (hholds g' y).mp hy
    rcases (hfree y).mp hf with hf | rfl
    · exact h.taken hy hf
    · exact hne (h.alone hy hx)
  alone h₁ h₂ := h.alone ((hholds _ _).mp h₁).1 ((hholds _ _).mp h₂).1
  single h₁ h₂ := h.single ((hholds _ _).mp h₁).1 ((hholds _ _).mp h₂).1

/-- **Entering** a new item `x` into the pool, held by `g`, who held nothing. -/
theorem enter {pool' : ι → Prop} (h : Ledger pool free holds) {g : η} {x : ι} (hx : ¬ pool x)
    (hnone : ∀ y, ¬ holds g y) (hpool : ∀ y, pool' y ↔ pool y ∨ y = x)
    (hholds : ∀ g' y, holds' g' y ↔ holds g' y ∨ (g' = g ∧ y = x)) :
    Ledger pool' free holds' where
  total y := by
    rw [hpool, h.total]
    simp only [hholds]
    constructor
    · rintro ((hy | ⟨g', hg'⟩) | rfl)
      · exact Or.inl hy
      · exact Or.inr ⟨g', Or.inl hg'⟩
      · exact Or.inr ⟨g, Or.inr ⟨rfl, rfl⟩⟩
    · rintro (hy | ⟨g', hg' | ⟨-, rfl⟩⟩)
      · exact Or.inl (Or.inl hy)
      · exact Or.inl (Or.inr ⟨g', hg'⟩)
      · exact Or.inr rfl
  taken {g' y} hy hf := by
    rcases (hholds g' y).mp hy with hy | ⟨-, rfl⟩
    · exact h.taken hy hf
    · exact hx ((h.total y).mpr (Or.inl hf))
  alone := alone_added hholds h.alone fun g' hg' => hx ((h.total x).mpr (Or.inr ⟨g', hg'⟩))
  single := single_added hholds h.single hnone

/-- **Passing on** the item `x` from `g` to `g'`, who held nothing. -/
theorem pass (h : Ledger pool free holds) {g g' : η} {x : ι} (hx : holds g x)
    (hnone : ∀ y, ¬ holds g' y)
    (hholds : ∀ k y, holds' k y ↔ (holds k y ∧ k ≠ g) ∨ (k = g' ∧ y = x)) :
    Ledger pool free holds' where
  total y := by
    rw [h.total]
    simp only [hholds]
    refine or_congr_right ⟨?_, ?_⟩
    · rintro ⟨k, hk⟩
      by_cases he : k = g
      · exact ⟨g', Or.inr ⟨rfl, h.single (he ▸ hk) hx⟩⟩
      · exact ⟨k, Or.inl ⟨hk, he⟩⟩
    · rintro ⟨k, ⟨hk, -⟩ | ⟨-, rfl⟩⟩
      · exact ⟨k, hk⟩
      · exact ⟨g, hx⟩
  taken {k y} hy hf := by
    rcases (hholds k y).mp hy with ⟨hy, -⟩ | ⟨-, rfl⟩
    · exact h.taken hy hf
    · exact h.taken hx hf
  -- the others, without `g`, and then `g'`
  alone := alone_added hholds (fun h₁ h₂ => h.alone h₁.1 h₂.1) fun _ hk => hk.2 (h.alone hk.1 hx)
  single := single_added hholds (fun h₁ h₂ => h.single h₁.1 h₂.1) fun y hk => hnone y hk.1

/-- **Counting**: the items of the pool are the free ones, and one for each holder. -/
theorem card_eq (h : Ledger pool free holds) {P F : Finset ι} {H : Finset η}
    (hP : ∀ x, x ∈ P ↔ pool x) (hF : ∀ x, x ∈ F ↔ free x) (hH : ∀ g, g ∈ H ↔ ∃ x, holds g x) :
    F.card + H.card = P.card := by
  classical
  have hsub : F ⊆ P := fun x hx => (hP x).mpr ((h.total x).mpr (Or.inl ((hF x).mp hx)))
  have hheld : H.card = (P \ F).card := by
    refine Finset.card_bij (fun g hg => ((hH g).mp hg).choose) ?_ ?_ ?_
    · intro g hg
      have hx := ((hH g).mp hg).choose_spec
      rw [Finset.mem_sdiff, hP, hF]
      exact ⟨(h.total _).mpr (Or.inr ⟨g, hx⟩), h.taken hx⟩
    · intro g hg g' hg' heq
      have hx := ((hH g).mp hg).choose_spec
      rw [heq] at hx
      exact h.alone hx ((hH g').mp hg').choose_spec
    · intro x hx
      rw [Finset.mem_sdiff, hP, hF] at hx
      rcases (h.total x).mp hx.1 with hfree | ⟨g, hg⟩
      · exact absurd hfree hx.2
      · have hmem := (hH g).mpr ⟨x, hg⟩
        exact ⟨g, hmem, h.single ((hH g).mp hmem).choose_spec hg⟩
  rw [hheld, Nat.add_comm, Finset.card_sdiff_add_card_eq_card hsub]

end Ledger

end Lithium
