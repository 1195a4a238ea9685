/-
# Copying cell by cell

Stores one after the other, each of what its source holds at that time (`copyAll`), over cells of
any type.  If no store hits what is read later, and no cell is stored to twice (`Safe`), every cell
gets what its source held at first (`copyAll_dst`), and no other cell changes (`copyAll_of_ne`).  In
which order to go through overlapping ranges is then a question about the order alone.  Stores of
one value (`fillAll`) have no such trouble.

The loops that count up to `n`, or down from it, with a machine counter (`forUp`, `forDown`) end,
and go through the numbers below `n` in this order, or backwards.
-/
import Mathlib.Data.BitVec
import Mathlib.Data.List.Basic
import Mathlib.Logic.Function.Basic

namespace Lithium.Copy

/-! ## 1. Copies -/

variable {A V I : Type*} [DecidableEq A] {dst src : I → A} {m : A → V} {is js : List I} {i : I}

/-- For each index in turn, what is at its source is stored at its destination. -/
def copyAll (dst src : I → A) (m : A → V) (is : List I) : A → V :=
  is.foldl (fun m i => Function.update m (dst i) (m (src i))) m

/-- What is stored is neither read nor stored to later. -/
def Safe (dst src : I → A) (is : List I) : Prop :=
  is.Pairwise fun i j => src j ≠ dst i ∧ dst j ≠ dst i

theorem copyAll_cons (m : A → V) (i : I) (is : List I) :
    copyAll dst src m (i :: is)
      = copyAll dst src (Function.update m (dst i) (m (src i))) is := rfl

theorem copyAll_append (m : A → V) (is js : List I) :
    copyAll dst src m (is ++ js) = copyAll dst src (copyAll dst src m is) js := List.foldl_append

/-- Only destinations change. -/
theorem copyAll_of_ne {x : A} (h : ∀ i ∈ is, x ≠ dst i) : copyAll dst src m is x = m x := by
  induction is generalizing m with
  | nil => rfl
  | cons i is ih =>
    rw [copyAll_cons, ih fun j hj => h j (List.mem_cons_of_mem _ hj),
      Function.update_of_ne (h i List.mem_cons_self)]

/-- **Safe copies** bring every cell what its source held at first. -/
theorem copyAll_dst (h : Safe dst src is) (hi : i ∈ is) :
    copyAll dst src m is (dst i) = m (src i) := by
  induction is generalizing m with
  | nil => cases hi
  | cons j is ih =>
    obtain ⟨hj, hrest⟩ := List.pairwise_cons.mp h
    rw [copyAll_cons]
    rcases List.mem_cons.mp hi with rfl | hi
    · rw [copyAll_of_ne fun k hk => (hj k hk).2.symm, Function.update_self]
    · rw [ih hrest hi, Function.update_of_ne (hj i hi).1]

/-- What an index stores is read after those before it, and kept by those after it. -/
theorem copyAll_split (h : ∀ j ∈ js, dst i ≠ dst j) :
    copyAll dst src m (is ++ i :: js) (dst i) = copyAll dst src m is (src i) := by
  rw [copyAll_append, copyAll_cons, copyAll_of_ne h, Function.update_self]

theorem range_split (i r : Nat) :
    List.range (i + r + 1) = List.range i ++ i :: List.range' (i + 1) r := by
  have happend : List.range' 0 i ++ List.range' (0 + i) (r + 1) = List.range' 0 (i + (r + 1)) :=
    List.range'_append_1
  rw [List.range_eq_range', List.range_eq_range', Nat.add_assoc, ← happend, Nat.zero_add,
    List.range'_succ]

/-- At each index, `v` is stored. -/
def fillAll (dst : I → A) (v : V) (m : A → V) (is : List I) : A → V :=
  is.foldl (fun m i => Function.update m (dst i) v) m

theorem fillAll_cons (v : V) (m : A → V) (i : I) (is : List I) :
    fillAll dst v m (i :: is) = fillAll dst v (Function.update m (dst i) v) is := rfl

theorem fillAll_apply (v : V) (x : A) :
    fillAll dst v m is x = if x ∈ is.map dst then v else m x := by
  induction is generalizing m with
  | nil => rfl
  | cons i is ih =>
    rw [fillAll_cons, ih, List.map_cons]
    by_cases hmem : x ∈ is.map dst
    · rw [if_pos hmem, if_pos (List.mem_cons_of_mem _ hmem)]
    · by_cases hx : x = dst i
      · rw [if_neg hmem, hx, Function.update_self, if_pos List.mem_cons_self]
      · rw [if_neg hmem, Function.update_of_ne hx, if_neg]
        exact fun h => (List.mem_cons.mp h).elim hx hmem

/-! ## 2. Counting loops -/

variable {σ : Type*} {w : Nat}

/-- `for (i = 0; i < n; i++) body`, from `i` on, for fewer rounds than the first number. -/
def forUp (n : BitVec w) (body : BitVec w → σ → σ) : Nat → BitVec w → σ → Option σ
  | 0, _, _ => none
  | k + 1, i, s => if i < n then forUp n body k (i + 1#w) (body i s) else some s

/-- `for (i = n; i > 0; i--) body`, from `i` on. -/
def forDown (body : BitVec w → σ → σ) : Nat → BitVec w → σ → Option σ
  | 0, _, _ => none
  | k + 1, i, s => if 0#w < i then forDown body k (i - 1#w) (body i s) else some s

/-- A counter up to `n` does not wrap. -/
theorem ofNat_lt_iff (n : BitVec w) {i : Nat} (h : i ≤ n.toNat) :
    BitVec.ofNat w i < n ↔ i < n.toNat := by
  rw [BitVec.lt_def, BitVec.toNat_ofNat, Nat.mod_eq_of_lt (Nat.lt_of_le_of_lt h n.isLt)]

theorem forUp_range' (n : BitVec w) (body : BitVec w → σ → σ) {k i : Nat} (h : i + k = n.toNat)
    (s : σ) : forUp n body (k + 1) (BitVec.ofNat w i) s
      = some ((List.range' i k).foldl (fun s i => body (BitVec.ofNat w i) s) s) := by
  induction k generalizing i s with
  | zero =>
    have hstop : ¬ BitVec.ofNat w i < n := by
      rw [ofNat_lt_iff n (by omega)]
      omega
    rw [forUp, if_neg hstop]
    rfl
  | succ k ih =>
    have hmore : BitVec.ofNat w i < n := (ofNat_lt_iff n (by omega)).mpr (by omega)
    rw [forUp, if_pos hmore, ← BitVec.ofNat_add, ih (by omega), List.range'_succ,
      List.foldl_cons]

/-- **Counting up** goes through the numbers below `n`. -/
theorem forUp_eq (n : BitVec w) (body : BitVec w → σ → σ) (s : σ) :
    forUp n body (n.toNat + 1) 0#w s
      = some ((List.range n.toNat).foldl (fun s i => body (BitVec.ofNat w i) s) s) := by
  rw [List.range_eq_range']
  exact forUp_range' n body (Nat.zero_add _) s

theorem forDown_range (body : BitVec w → σ → σ) {k : Nat} (h : k < 2 ^ w) (s : σ) :
    forDown body (k + 1) (BitVec.ofNat w k) s
      = some ((List.range k).reverse.foldl (fun s i => body (BitVec.ofNat w (i + 1)) s) s) := by
  induction k generalizing s with
  | zero => rfl
  | succ k ih =>
    have hmore : 0#w < BitVec.ofNat w (k + 1) := by
      rw [BitVec.lt_def, BitVec.toNat_zero, BitVec.toNat_ofNat, Nat.mod_eq_of_lt h]
      exact Nat.succ_pos k
    have hpred : BitVec.ofNat w (k + 1) - 1#w = BitVec.ofNat w k := by
      rw [BitVec.ofNat_add, BitVec.add_sub_cancel]
    rw [forDown, if_pos hmore, hpred, ih (Nat.lt_of_succ_lt h), List.range_succ,
      List.reverse_append, List.reverse_singleton, List.singleton_append, List.foldl_cons]

/-- **Counting down** goes through them backwards; the counter is one more. -/
theorem forDown_eq (n : BitVec w) (body : BitVec w → σ → σ) (s : σ) :
    forDown body (n.toNat + 1) n s
      = some ((List.range n.toNat).reverse.foldl
          (fun s i => body (BitVec.ofNat w (i + 1)) s) s) := by
  have hdown := forDown_range body n.isLt s
  rwa [BitVec.ofNat_toNat, BitVec.setWidth_eq] at hdown

end Lithium.Copy
