/-
# Sequences laid out in blocks

Entry `o` of a sequence is kept in block `o / size`, at index `o % size`; `place` says which block
that is.  A loop that goes through a range takes it in pieces that lie in one block each.
-/
import Mathlib.Algebra.GroupWithZero.Nat

namespace Lithium.Extents

variable {κ α : Type*} {size : Nat}

/-! ## 1. Ranges replaced -/

/-- The sequence with `n` entries of `src` from `off` on. -/
def overlay (old src : Nat → α) (off n o : Nat) : α :=
  if off ≤ o ∧ o < off + n then src (o - off) else old o

theorem overlay_zero (old src : Nat → α) (off o : Nat) : overlay old src off 0 o = old o := by
  rw [overlay, if_neg (by omega)]

theorem overlay_congr {old old' : Nat → α} (src : Nat → α) (off n : Nat) {o : Nat}
    (h : old o = old' o) : overlay old src off n o = overlay old' src off n o := by
  rw [overlay, overlay, h]

/-- **A range is replaced piece by piece.** -/
theorem overlay_append (old src : Nat → α) (off m n o : Nat) :
    overlay (overlay old src off m) (fun i => src (m + i)) (off + m) n o
      = overlay old src off (m + n) o := by
  unfold overlay
  by_cases hbefore : o < off
  · rw [if_neg (by omega), if_neg (by omega), if_neg (by omega)]
  by_cases hfirst : o < off + m
  · rw [if_neg (by omega), if_pos (by omega), if_pos (by omega)]
  by_cases hsecond : o < off + m + n
  · have hindex : m + (o - (off + m)) = o - off := by omega
    rw [if_pos (by omega), if_pos (by omega)]
    exact congrArg src hindex
  · rw [if_neg (by omega), if_neg (by omega), if_neg (by omega)]

/-! ## 2. The blocks -/

variable [NeZero size]

/-- Entry `o` of the sequence. -/
def entry (view : κ → Fin size → α) (place : Nat → κ) (o : Nat) : α :=
  view (place (o / size)) (Fin.ofNat size o)

/-- The block with `len` entries of `src` from `start` on. -/
def splice (data : Fin size → α) (start len : Nat) (src : Nat → α) : Fin size → α := fun j =>
  if start ≤ j.val ∧ j.val < start + len then src (j.val - start) else data j

/-- The positions of a piece of a block. -/
theorem piece_iff {off m o : Nat} (hm : off % size + m ≤ size) :
    (o / size = off / size ∧ off % size ≤ o % size ∧ o % size < off % size + m) ↔
      off ≤ o ∧ o < off + m := by
  have hpos : 0 < size := Nat.pos_of_neZero size
  have hoff := Nat.div_add_mod off size
  have ho := Nat.div_add_mod o size
  have hmod : o % size < size := Nat.mod_lt _ hpos
  constructor
  · rintro ⟨hdiv, hlo, hhi⟩
    rw [hdiv] at ho
    omega
  · rintro ⟨hlo, hhi⟩
    have hdiv : o / size = off / size := by
      refine Nat.div_eq_of_lt_le ?_ ?_
      · rw [Nat.mul_comm]
        omega
      · rw [Nat.add_mul, Nat.one_mul, Nat.mul_comm]
        omega
    rw [hdiv] at ho
    exact ⟨hdiv, by omega, by omega⟩

/-- **A piece of a block read** is a piece of the sequence. -/
theorem entry_piece (view : κ → Fin size → α) (place : Nat → κ) {off m i : Nat}
    (hm : off % size + m ≤ size) (hi : i < m) :
    view (place (off / size)) (Fin.ofNat size (off % size + i)) = entry view place (off + i) := by
  obtain ⟨hdiv, -⟩ := (piece_iff (o := off + i) hm).mpr ⟨by omega, by omega⟩
  have hindex : Fin.ofNat size (off % size + i) = Fin.ofNat size (off + i) := by
    refine Fin.ext ?_
    change (off % size + i) % size = (off + i) % size
    rw [Nat.mod_add_mod]
  rw [entry, hdiv, hindex]

/-- **A piece of a block replaced** is a piece of the sequence replaced, when no other block of the
sequence is kept in the same place. -/
theorem entry_splice {view view' : κ → Fin size → α} {place : Nat → κ} {src : Nat → α}
    {off m o : Nat} (hm : off % size + m ≤ size)
    (hhere : view' (place (off / size)) = splice (view (place (off / size))) (off % size) m src)
    (hthere : ∀ b, b ≠ place (off / size) → view' b = view b)
    (hinj : place (o / size) = place (off / size) → o / size = off / size) :
    entry view' place o = overlay (entry view place) src off m o := by
  have hpiece := piece_iff (o := o) hm
  by_cases hdiv : o / size = off / size
  case neg =>
    have hout : ¬ (off ≤ o ∧ o < off + m) := fun hin => hdiv (hpiece.mpr hin).1
    rw [overlay, if_neg hout, entry, entry, hthere _ fun he => hdiv (hinj he)]
  have hval : (Fin.ofNat size o).val = o % size := rfl
  rw [entry, hdiv, hhere, splice, hval, overlay]
  by_cases hin : off ≤ o ∧ o < off + m
  · obtain ⟨-, hlo, hhi⟩ := hpiece.mpr hin
    have hoff := Nat.div_add_mod off size
    have ho := Nat.div_add_mod o size
    rw [hdiv] at ho
    have hdist : o % size - off % size = o - off := by omega
    rw [if_pos ⟨hlo, hhi⟩, if_pos hin, hdist]
  · rw [if_neg fun h => hin (hpiece.mp ⟨hdiv, h⟩), if_neg hin, entry, hdiv]

end Lithium.Extents
