/-
# Scans that go round

A table of `n` entries and a scan that goes round it, one entry at a time.  `ahead c i` is how far
entry `i` is from the entry `c` the scan has come to, and `visits c k` are the next `k` entries.

A scan that does not come to an entry for a while has not gone round: what it visits in that time
is all different, and fewer than `n` entries (`nodup_of_not_mem`, `lt_of_not_mem`).
-/
import Mathlib.Algebra.Group.Fin.Basic
import Mathlib.Algebra.GroupWithZero.Nat
import Mathlib.Data.List.Nodup

namespace Lithium.Cyclic

variable {n : Nat} [NeZero n]

/-- How many entries the scan passes before it comes to `i`. -/
def ahead (c i : Fin n) : Nat := (i - c).val

/-- The next `k` entries. -/
def visits (c : Fin n) : Nat → List (Fin n)
  | 0 => []
  | k + 1 => c :: visits (c + 1) k

/-- `i` is the first entry with `P`. -/
def First (P : Fin n → Prop) (c i : Fin n) : Prop := P i ∧ ∀ j, ahead c j < ahead c i → ¬ P j

variable {c i : Fin n} {k : Nat}

/-! ## 1. Distances -/

omit [NeZero n] in
theorem ahead_lt (c i : Fin n) : ahead c i < n := (i - c).isLt

@[simp] theorem ahead_self (c : Fin n) : ahead c c = 0 := by
  rw [ahead, sub_self]
  exact Fin.val_zero n

theorem ahead_succ (h : i ≠ c) : ahead (c + 1) i + 1 = ahead c i := by
  have hne : i - c ≠ 0 := sub_ne_zero.mpr h
  have hpos : (i - c).val ≠ 0 := fun hzero => hne (Fin.ext hzero)
  rw [ahead, ahead, ← sub_sub, Fin.val_sub_one_of_ne_zero hne]
  omega

/-- One step takes the scan away from where it was, all the way round. -/
theorem ahead_succ_self (c : Fin n) : ahead (c + 1) c + 1 = n := by
  obtain ⟨m, rfl⟩ := Nat.exists_eq_succ_of_ne_zero (NeZero.ne n)
  rw [ahead, ← sub_sub, sub_self, zero_sub, Fin.coe_neg_one]

/-! ## 2. What a scan visits -/

@[simp] theorem length_visits (c : Fin n) (k : Nat) : (visits c k).length = k := by
  induction k generalizing c with
  | zero => rfl
  | succ k ih => rw [visits, List.length_cons, ih]

theorem mem_visits : i ∈ visits c k ↔ ahead c i < k := by
  induction k generalizing c with
  | zero => simp [visits]
  | succ k ih =>
    rw [visits, List.mem_cons, ih]
    by_cases h : i = c
    · simp [h]
    · have hsucc := ahead_succ h
      simp only [h, false_or]
      omega

/-- The entry the scan comes to after `k` visits is no more than `k` ahead. -/
theorem ahead_le_of_visits_succ (h : visits c (k + 1) = visits c k ++ [i]) : ahead c i ≤ k := by
  have hmem : i ∈ visits c (k + 1) := by
    rw [h]
    exact List.mem_append_right _ List.mem_cons_self
  exact Nat.le_of_lt_succ (mem_visits.mp hmem)

theorem nodup_visits (hk : k ≤ n) : (visits c k).Nodup := by
  induction k generalizing c with
  | zero => exact List.nodup_nil
  | succ k ih =>
    rw [visits, List.nodup_cons, mem_visits]
    have hself := ahead_succ_self c
    exact ⟨by omega, ih (by omega)⟩

/-- **A scan that has not come to `i`** has made fewer than `n` visits. -/
theorem lt_of_not_mem (h : i ∉ visits c k) : k < n := by
  rw [mem_visits] at h
  have hlt := ahead_lt c i
  omega

theorem nodup_of_not_mem (h : i ∉ visits c k) : (visits c k).Nodup :=
  nodup_visits (lt_of_not_mem h).le

end Lithium.Cyclic
