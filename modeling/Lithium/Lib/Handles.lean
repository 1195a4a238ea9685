/-
# Counting handles

A list of handles, each of an owner to an item; an owner may have several handles to one item.  The
count of an item is what a reference counter has to show.
-/
import Mathlib.Data.List.Perm.Basic
import Mathlib.Data.List.Count

namespace Lithium

variable {τ ι : Type*} [DecidableEq ι]

/-- The number of handles to an item. -/
def handlesOf (hs : List (τ × ι)) (x : ι) : Nat := hs.countP fun h => h.2 = x

@[simp] theorem handlesOf_nil (x : ι) : handlesOf ([] : List (τ × ι)) x = 0 := rfl

theorem handlesOf_cons_self (hs : List (τ × ι)) (t : τ) (x : ι) :
    handlesOf ((t, x) :: hs) x = handlesOf hs x + 1 := by
  simp [handlesOf]

theorem handlesOf_cons_of_ne (hs : List (τ × ι)) (t : τ) {x y : ι} (h : y ≠ x) :
    handlesOf ((t, x) :: hs) y = handlesOf hs y := by
  simp [handlesOf, Ne.symm h]

theorem handlesOf_pos {hs : List (τ × ι)} {x : ι} : 0 < handlesOf hs x ↔ ∃ t, (t, x) ∈ hs := by
  rw [handlesOf, List.countP_pos_iff]
  constructor
  · rintro ⟨⟨t, y⟩, hmem, hy⟩
    obtain rfl : y = x := by simpa using hy
    exact ⟨t, hmem⟩
  · rintro ⟨t, hmem⟩
    exact ⟨(t, x), hmem, by simp⟩

/-- A counter that shows it cannot pass the number of all handles. -/
theorem handlesOf_le_length (hs : List (τ × ι)) (x : ι) : handlesOf hs x ≤ hs.length :=
  List.countP_le_length

variable [DecidableEq τ]

theorem handlesOf_erase_self {hs : List (τ × ι)} {t : τ} {x : ι} (h : (t, x) ∈ hs) :
    handlesOf hs x = handlesOf (hs.erase (t, x)) x + 1 := by
  rw [handlesOf, (List.perm_cons_erase h).countP_eq]
  exact handlesOf_cons_self _ t x

theorem handlesOf_erase_of_ne {hs : List (τ × ι)} {t : τ} {x y : ι} (h : (t, x) ∈ hs)
    (hy : y ≠ x) : handlesOf hs y = handlesOf (hs.erase (t, x)) y := by
  rw [handlesOf, (List.perm_cons_erase h).countP_eq]
  exact handlesOf_cons_of_ne _ t hy

/-- An item with one handle has one owner. -/
theorem owner_eq_of_handlesOf_eq_one {hs : List (τ × ι)} {t u : τ} {x : ι}
    (h : handlesOf hs x = 1) (ht : (t, x) ∈ hs) (hu : (u, x) ∈ hs) : u = t := by
  by_contra hne
  rw [handlesOf_erase_self ht] at h
  have hrest : (u, x) ∈ hs.erase (t, x) :=
    (List.mem_erase_of_ne fun he => hne (congrArg Prod.fst he)).mpr hu
  have hpos := handlesOf_pos.mpr ⟨u, hrest⟩
  omega

end Lithium
