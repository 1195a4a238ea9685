/-
# Circular buffers with wrapping counters

A buffer of `size` slots with two counters of `w` bits that are only ever incremented: `r` counts
what has been taken out and `e` what has been put in, and `x` stands for the slot `x % size`.  The
counters wrap, and the slots follow them since `size` divides `2 ^ w`.

`Holds data r e q` says that the slots from `r` up to `e` hold the list `q`.  The rules (`push`,
`pop`, `eq_iff`, `full_iff`, `lt_iff`) speak of `q` alone.
-/
import Mathlib.Data.BitVec
import Mathlib.Data.Nat.ModEq
import Mathlib.Logic.Function.Basic
import Mathlib.Tactic.Common

namespace Lithium.Circular

variable {w size : Nat} [NeZero size] {α : Type*}

/-- The slot of a counter. -/
def slot (size : Nat) [NeZero size] (x : BitVec w) : Fin size := Fin.ofNat size x.toNat

/-- The slots from `r` up to `e` hold `q`. -/
structure Holds (data : Fin size → α) (r e : BitVec w) (q : List α) : Prop where
  counter : e = r + BitVec.ofNat w q.length
  fits : q.length ≤ size
  slots : ∀ j (hj : j < q.length), data (slot size (r + BitVec.ofNat w j)) = q.get ⟨j, hj⟩

/-- The slot of a counter that has wrapped or not. -/
theorem slot_add (hdvd : size ∣ 2 ^ w) (r : BitVec w) (j : Nat) :
    (slot size (r + BitVec.ofNat w j)).val = (r.toNat + j) % size := by
  rw [slot, Fin.val_ofNat, BitVec.toNat_add, BitVec.toNat_ofNat, Nat.mod_mod_of_dvd _ hdvd,
    Nat.add_mod, Nat.mod_mod_of_dvd _ hdvd, ← Nat.add_mod]

/-- Counters less than `size` apart have different slots. -/
theorem slot_inj (hdvd : size ∣ 2 ^ w) (r : BitVec w) {i j : Nat} (hi : i < size) (hj : j < size)
    (h : slot size (r + BitVec.ofNat w i) = slot size (r + BitVec.ofNat w j)) : i = j := by
  have hval := congrArg Fin.val h
  rw [slot_add hdvd, slot_add hdvd] at hval
  have hmod : i ≡ j [MOD size] := Nat.ModEq.add_left_cancel' r.toNat hval
  exact hmod.eq_of_lt_of_lt hi hj

namespace Holds

variable {data : Fin size → α} {r e : BitVec w} {q : List α}

theorem nil (data : Fin size → α) (r : BitVec w) : Holds data r r [] :=
  ⟨by simp, Nat.zero_le _, fun _ hj => absurd hj (Nat.not_lt_zero _)⟩

/-- The length of the list is the difference of the counters. -/
theorem sub_toNat (h : Holds data r e q) (hlt : size < 2 ^ w) : (e - r).toNat = q.length := by
  rw [h.counter, BitVec.add_comm, BitVec.add_sub_cancel, BitVec.toNat_ofNat,
    Nat.mod_eq_of_lt (Nat.lt_of_le_of_lt h.fits hlt)]

/-- The counters agree on an empty buffer only. -/
theorem eq_iff (h : Holds data r e q) (hlt : size < 2 ^ w) : r = e ↔ q = [] := by
  constructor
  · intro he
    rw [← List.length_eq_zero_iff, ← h.sub_toNat hlt, he]
    simp
  · rintro rfl
    simpa using h.counter.symm

/-- The counters are `size` apart on a full buffer only. -/
theorem full_iff (h : Holds data r e q) (hlt : size < 2 ^ w) :
    e = r + BitVec.ofNat w size ↔ q.length = size := by
  constructor
  · intro he
    rw [← h.sub_toNat hlt, he, BitVec.add_comm, BitVec.add_sub_cancel, BitVec.toNat_ofNat,
      Nat.mod_eq_of_lt hlt]
  · intro hlen
    rw [h.counter, hlen]

/-- As long as `e` has not wrapped past `r`, comparing the counters finds what is left. -/
theorem lt_iff (h : Holds data r e q) (hlt : size < 2 ^ w) (hle : r ≤ e) : r < e ↔ q ≠ [] := by
  rw [Ne, ← h.eq_iff hlt]
  constructor
  · rintro hre rfl
    exact absurd hre (BitVec.lt_irrefl r)
  · intro hne
    exact BitVec.lt_of_le_ne hle hne

/-- **Putting an element in.** -/
theorem push (h : Holds data r e q) (hdvd : size ∣ 2 ^ w) (hroom : q.length < size) (x : α) :
    Holds (Function.update data (slot size e) x) r (e + 1) (q ++ [x]) where
  counter := by
    rw [h.counter, List.length_append, List.length_singleton, BitVec.ofNat_add, BitVec.add_assoc]
    rfl
  fits := by
    rw [List.length_append, List.length_singleton]
    exact hroom
  slots j hj := by
    rw [List.length_append, List.length_singleton] at hj
    rw [h.counter]
    by_cases hlast : j = q.length
    · subst hlast
      simp
    · have hjq : j < q.length := by omega
      have hne : slot size (r + BitVec.ofNat w j) ≠ slot size (r + BitVec.ofNat w q.length) :=
        fun heq => hlast (slot_inj hdvd r (by omega) hroom heq)
      rw [Function.update_of_ne hne, h.slots j hjq]
      simp [List.getElem_append_left hjq]

/-- **Taking the first element out.** -/
theorem pop {x : α} (h : Holds data r e (x :: q)) :
    data (slot size r) = x ∧ Holds data (r + 1) e q := by
  refine ⟨?_, ?_, ?_, ?_⟩
  · simpa using h.slots 0 (by simp)
  · rw [h.counter, List.length_cons, Nat.add_comm, BitVec.ofNat_add, ← BitVec.add_assoc]
    rfl
  · exact Nat.le_of_succ_le (by simpa using h.fits)
  · intro j hj
    have hnext : r + 1 + BitVec.ofNat w j = r + BitVec.ofNat w (j + 1) := by
      rw [Nat.add_comm, BitVec.ofNat_add, ← BitVec.add_assoc]
      rfl
    rw [hnext]
    simpa using h.slots (j + 1) (by simpa using hj)

end Holds

end Lithium.Circular
