/-
# `string.c`

`memcpy`, `memset`, `memmove` and `memcmp`, over memory by bytes.

`memmove` copies correctly however its ranges overlap (`memmove_copies`): going up, what is stored
is below what is read later, if the destination is below the source; going down it is above it, if
not.  `memcpy` only goes up, and is right exactly where its destination does not begin inside of the
source (`memcpy_copies_iff`): there it repeats the bytes before (`copyAll_repeats`).  `memset` fills
its range (`memset_fills`), and `memcmp` is the lexicographic order (`memcmp_eq`), which finds a
copy equal (`Copied.memcmp_eq_zero`).
-/
import Lithium.Lib.Copy
import Lithium.Lib.SaveArea

namespace Lithium

open Copy
open SaveArea (Mem)

/-! ## 1. The functions -/

/-- `d[i] = s[i]`. -/
def copyByte (d s i : BitVec 64) (m : Mem) : Mem := Function.update m (d + i) (m (s + i))

/-- `memcpy`: the result, and memory, or `none` if it does not end. -/
def memcpy (m : Mem) (dest src n : BitVec 64) : Option (BitVec 64 × Mem) :=
  (forUp n (copyByte dest src) (n.toNat + 1) 0#64 m).map fun m => (dest, m)

/-- `memset`. -/
def memset (m : Mem) (s : BitVec 64) (c : BitVec 32) (n : BitVec 64) : Option (BitVec 64 × Mem) :=
  (forUp n (fun i m => Function.update m (s + i) (c.setWidth 8)) (n.toNat + 1) 0#64 m).map
    fun m => (s, m)

/-- `memmove`. -/
def memmove (m : Mem) (dest src n : BitVec 64) : Option (BitVec 64 × Mem) :=
  (if dest < src then forUp n (copyByte dest src) (n.toNat + 1) 0#64 m
  else forDown (fun i => copyByte dest src (i - 1#64)) (n.toNat + 1) n m).map fun m => (dest, m)

/-- The loop of `memcmp`, which leaves it at the first difference. -/
def memcmpLoop (m : Mem) (p1 p2 n : BitVec 64) : Nat → BitVec 64 → Option Int
  | 0, _ => none
  | k + 1, i =>
    if i < n then
      if m (p1 + i) ≠ m (p2 + i) then some (if m (p1 + i) < m (p2 + i) then -1 else 1)
      else memcmpLoop m p1 p2 n k (i + 1#64)
    else some 0

/-- `memcmp`. -/
def memcmp (m : Mem) (p1 p2 n : BitVec 64) : Option Int :=
  memcmpLoop m p1 p2 n (n.toNat + 1) 0#64

/-! ## 2. Ranges -/

/-- `p + i`. -/
def byteAt (p : BitVec 64) (i : Nat) : BitVec 64 := p + BitVec.ofNat 64 i

/-- The range does not wrap around the address space. -/
def Fits (p n : BitVec 64) : Prop := p.toNat + n.toNat ≤ 2 ^ 64

/-- `m'` has, from `dest` on, the `n` bytes that `m` has from `src` on, and is `m` elsewhere. -/
structure Copied (m m' : Mem) (dest src n : BitVec 64) : Prop where
  copied : ∀ i, i < n.toNat → m' (byteAt dest i) = m (byteAt src i)
  frame : ∀ x, (∀ i, i < n.toNat → x ≠ byteAt dest i) → m' x = m x

variable {m m' : Mem} {dest src n p q : BitVec 64} {i j : Nat}

theorem toNat_byteAt (h : Fits p n) (hi : i < n.toNat) : (byteAt p i).toNat = p.toNat + i := by
  rw [Fits] at h
  rw [byteAt, BitVec.toNat_add, BitVec.toNat_ofNat]
  omega

theorem byteAt_eq_iff (hp : Fits p n) (hq : Fits q n) (hi : i < n.toNat) (hj : j < n.toNat) :
    byteAt p i = byteAt q j ↔ p.toNat + i = q.toNat + j := by
  rw [← BitVec.toNat_inj, toNat_byteAt hp hi, toNat_byteAt hq hj]

theorem byteAt_ne (h : Fits p n) (hi : i < n.toNat) (hj : j < n.toNat) (hij : i ≠ j) :
    byteAt p i ≠ byteAt p j := fun heq =>
  hij (Nat.add_left_cancel ((byteAt_eq_iff h h hi hj).mp heq))

/-- Going up is safe if the destination does not begin behind the first byte of the source. -/
theorem safe_up (hd : Fits dest n) (hs : Fits src n)
    (h : dest.toNat ≤ src.toNat ∨ src.toNat + n.toNat ≤ dest.toNat) :
    Safe (byteAt dest) (byteAt src) (List.range n.toNat) := by
  refine List.pairwise_lt_range.imp_of_mem fun {i j} hi hj hij => ?_
  rw [List.mem_range] at hi hj
  refine ⟨fun heq => ?_, byteAt_ne hd hj hi (Nat.ne_of_gt hij)⟩
  rw [byteAt_eq_iff hs hd hj hi] at heq
  omega

/-- Going down is safe if the destination does not begin before the source. -/
theorem safe_down (hd : Fits dest n) (hs : Fits src n) (h : src.toNat ≤ dest.toNat) :
    Safe (byteAt dest) (byteAt src) (List.range n.toNat).reverse := by
  refine List.pairwise_reverse.mpr (List.pairwise_lt_range.imp_of_mem fun {i j} hi hj hij => ?_)
  rw [List.mem_range] at hi hj
  refine ⟨fun heq => ?_, byteAt_ne hd hi hj (Nat.ne_of_lt hij)⟩
  rw [byteAt_eq_iff hs hd hi hj] at heq
  omega

/-- A safe copy of the whole range, in any order. -/
theorem Copied.of_safe {is : List Nat} (h : Safe (byteAt dest) (byteAt src) is)
    (his : ∀ i, i ∈ is ↔ i < n.toNat) (m : Mem) :
    Copied m (copyAll (byteAt dest) (byteAt src) m is) dest src n where
  copied i hi := copyAll_dst h ((his i).mpr hi)
  frame _ hx := copyAll_of_ne fun i hi => hx i ((his i).mp hi)

/-! ## 3. `memcpy` and `memmove` -/

theorem forUp_copyByte (m : Mem) (dest src n : BitVec 64) :
    forUp n (copyByte dest src) (n.toNat + 1) 0#64 m
      = some (copyAll (byteAt dest) (byteAt src) m (List.range n.toNat)) := forUp_eq n _ m

theorem forDown_copyByte (m : Mem) (dest src n : BitVec 64) :
    forDown (fun i => copyByte dest src (i - 1#64)) (n.toNat + 1) n m
      = some (copyAll (byteAt dest) (byteAt src) m (List.range n.toNat).reverse) := by
  have hbody : (fun (m : Mem) i => copyByte dest src (BitVec.ofNat 64 (i + 1) - 1#64) m)
      = fun m i => Function.update m (byteAt dest i) (m (byteAt src i)) := by
    funext m i
    rw [BitVec.ofNat_add, BitVec.add_sub_cancel]
    rfl
  rw [forDown_eq, hbody]
  rfl

theorem memcpy_eq (m : Mem) (dest src n : BitVec 64) : memcpy m dest src n
    = some (dest, copyAll (byteAt dest) (byteAt src) m (List.range n.toNat)) := by
  rw [memcpy, forUp_copyByte]
  rfl

/-- With the destination `k` bytes behind the source, going up brings the first `k` bytes of the
source again and again. -/
theorem copyAll_repeats (hd : Fits dest n) (hs : Fits src n) {k : Nat}
    (hk : src.toNat + k = dest.toNat) (hpos : 0 < k) {len : Nat} (hlen : len ≤ n.toNat)
    (hi : i < len) : copyAll (byteAt dest) (byteAt src) m (List.range len) (byteAt dest i)
      = m (byteAt src (i % k)) := by
  induction i using Nat.strong_induction_on generalizing len with
  | _ i ih =>
    obtain ⟨r, rfl⟩ := Nat.exists_eq_add_of_lt hi
    have hlater : ∀ j ∈ List.range' (i + 1) r, byteAt dest i ≠ byteAt dest j := by
      intro j hj
      rw [List.mem_range'_1] at hj
      exact byteAt_ne hd (by omega) (by omega) (by omega)
    rw [range_split, copyAll_split hlater]
    rcases Nat.lt_or_ge i k with hik | hik
    · -- the source's byte is before the destination
      rw [Nat.mod_eq_of_lt hik]
      refine copyAll_of_ne fun j hj heq => ?_
      rw [List.mem_range] at hj
      rw [byteAt_eq_iff hs hd (by omega) (by omega)] at heq
      omega
    · -- it is a byte of the destination that has been stored
      have hback : byteAt src i = byteAt dest (i - k) := by
        rw [byteAt_eq_iff hs hd (by omega) (by omega)]
        omega
      rw [hback, ih (i - k) (by omega) (by omega) (by omega), Nat.mod_eq_sub_mod hik]

/-- **Where `memcpy` copies**: its destination does not begin inside of its source, behind the first
byte. -/
theorem memcpy_copies_iff (hd : Fits dest n) (hs : Fits src n) :
    (∀ m, ∃ m', memcpy m dest src n = some (dest, m') ∧ Copied m m' dest src n) ↔
      dest.toNat ≤ src.toNat ∨ src.toNat + n.toNat ≤ dest.toNat := by
  constructor
  · intro hall
    by_contra hinside
    obtain ⟨hlt, hin⟩ := not_or.mp hinside
    obtain ⟨k, hk⟩ := Nat.exists_eq_add_of_lt (Nat.lt_of_not_le hlt)
    -- the first byte alone is marked, and comes back `dest - src` bytes on
    obtain ⟨m', hm', hcopied⟩ := hall (Function.update (fun _ => 0#8) (byteAt src 0) 1#8)
    have hkn : k + 1 < n.toNat := by omega
    have hgets := hcopied.copied (k + 1) hkn
    have hne := byteAt_ne hs hkn (Nat.zero_lt_of_lt hkn) (Nat.succ_ne_zero k)
    rw [memcpy_eq, Option.some.injEq, Prod.mk.injEq] at hm'
    rw [← hm'.2, copyAll_repeats hd hs hk.symm (Nat.succ_pos k) (Nat.le_refl _) hkn, Nat.mod_self,
      Function.update_self, Function.update_of_ne hne] at hgets
    exact absurd hgets (by decide)
  · intro h m
    exact ⟨_, memcpy_eq m dest src n, .of_safe (safe_up hd hs h) (fun _ => List.mem_range) m⟩

/-- **`memmove` copies under any overlap.** -/
theorem memmove_copies (m : Mem) (hd : Fits dest n) (hs : Fits src n) :
    ∃ m', memmove m dest src n = some (dest, m') ∧ Copied m m' dest src n := by
  rw [memmove]
  split
  next hlt =>
    have hsafe := safe_up hd hs (.inl (Nat.le_of_lt hlt))
    rw [forUp_copyByte]
    exact ⟨_, rfl, .of_safe hsafe (fun _ => List.mem_range) m⟩
  next hge =>
    have hsafe := safe_down hd hs (Nat.le_of_not_lt hge)
    rw [forDown_copyByte]
    exact ⟨_, rfl, .of_safe hsafe (fun _ => List.mem_reverse.trans List.mem_range) m⟩

/-- Four bytes are moved up by two. -/
theorem memmove_copies_overlap : Fits 0x1002#64 4#64 ∧ Fits 0x1000#64 4#64 ∧
    ∃ m', memmove (fun x => x.setWidth 8) 0x1002#64 0x1000#64 4#64 = some (0x1002#64, m') ∧
      Copied (fun x => x.setWidth 8) m' 0x1002#64 0x1000#64 4#64 := by
  have hd : Fits 0x1002#64 4#64 := by
    rw [Fits]
    decide
  have hs : Fits 0x1000#64 4#64 := by
    rw [Fits]
    decide
  exact ⟨hd, hs, memmove_copies _ hd hs⟩

/-! ## 4. `memset` and `memcmp` -/

theorem mem_range_byteAt {x : BitVec 64} :
    x ∈ (List.range n.toNat).map (byteAt p) ↔ ∃ i, i < n.toNat ∧ byteAt p i = x := by
  simp only [List.mem_map, List.mem_range]

/-- **`memset`** leaves the low byte of `c` in its range, and memory elsewhere. -/
theorem memset_fills (m : Mem) (s : BitVec 64) (c : BitVec 32) (n : BitVec 64) :
    ∃ m', memset m s c n = some (s, m') ∧
      (∀ i, i < n.toNat → m' (byteAt s i) = c.setWidth 8) ∧
      ∀ x, (∀ i, i < n.toNat → x ≠ byteAt s i) → m' x = m x := by
  refine ⟨fillAll (byteAt s) (c.setWidth 8) m (List.range n.toNat), ?_, fun i hi => ?_,
    fun x hx => ?_⟩
  · rw [memset, forUp_eq]
    rfl
  · rw [fillAll_apply, if_pos (mem_range_byteAt.mpr ⟨i, hi, rfl⟩)]
  · rw [fillAll_apply, if_neg]
    intro hmem
    obtain ⟨i, hi, heq⟩ := mem_range_byteAt.mp hmem
    exact hx i hi heq.symm

/-- The bytes of a range, from the `i`-th on. -/
def bytesAt (m : Mem) (p : BitVec 64) (i k : Nat) : List (BitVec 8) :=
  (List.range' i k).map fun j => m (byteAt p j)

theorem bytesAt_succ (m : Mem) (p : BitVec 64) (i k : Nat) :
    bytesAt m p i (k + 1) = m (byteAt p i) :: bytesAt m p (i + 1) k := by
  rw [bytesAt, List.range'_succ, List.map_cons]
  rfl

/-- The sign of the lexicographic order. -/
def lexSign (xs ys : List (BitVec 8)) : Int := if xs < ys then -1 else if ys < xs then 1 else 0

theorem lexSign_cons_of_ne {x y : BitVec 8} (h : x ≠ y) (xs ys : List (BitVec 8)) :
    lexSign (x :: xs) (y :: ys) = if x < y then -1 else 1 := by
  rw [lexSign]
  simp only [List.cons_lt_cons_iff, h, h.symm, false_and, or_false]
  split
  next => rfl
  next hxy =>
    have hyx : y < x := by
      have hne : x.toNat ≠ y.toNat := fun heq => h (BitVec.eq_of_toNat_eq heq)
      rw [BitVec.lt_def] at hxy ⊢
      omega
    rw [if_pos hyx]

theorem lexSign_cons_self (x : BitVec 8) (xs ys : List (BitVec 8)) :
    lexSign (x :: xs) (x :: ys) = lexSign xs ys := by
  simp only [lexSign, List.cons_lt_cons_self]

theorem lexSign_eq_zero {xs ys : List (BitVec 8)} : lexSign xs ys = 0 ↔ xs = ys := by
  induction xs generalizing ys with
  | nil =>
    cases ys with
    | nil => exact iff_of_true rfl rfl
    | cons y ys => exact iff_of_false (by simp [lexSign]) (List.cons_ne_nil y ys).symm
  | cons x xs ih =>
    cases ys with
    | nil => exact iff_of_false (by simp [lexSign]) (List.cons_ne_nil x xs)
    | cons y ys =>
      by_cases hxy : x = y
      · rw [hxy, lexSign_cons_self, ih, List.cons_inj_right]
      · rw [lexSign_cons_of_ne hxy]
        refine ⟨fun h => ?_, fun h => absurd (List.cons.inj h).1 hxy⟩
        split at h <;> cases h

theorem memcmpLoop_eq (m : Mem) (p1 p2 : BitVec 64) {k : Nat} (h : i + k = n.toNat) :
    memcmpLoop m p1 p2 n (k + 1) (BitVec.ofNat 64 i)
      = some (lexSign (bytesAt m p1 i k) (bytesAt m p2 i k)) := by
  induction k generalizing i with
  | zero =>
    have hstop : ¬ BitVec.ofNat 64 i < n := by
      rw [ofNat_lt_iff n (by omega)]
      omega
    rw [memcmpLoop, if_neg hstop]
    rfl
  | succ k ih =>
    have hmore : BitVec.ofNat 64 i < n := (ofNat_lt_iff n (by omega)).mpr (by omega)
    rw [memcmpLoop, if_pos hmore, bytesAt_succ, bytesAt_succ]
    split
    next hne => exact congrArg some (lexSign_cons_of_ne hne _ _).symm
    next heq =>
      have hbyte : m (byteAt p1 i) = m (byteAt p2 i) := not_not.mp heq
      rw [hbyte, lexSign_cons_self, ← BitVec.ofNat_add, ih (by omega)]

/-- **`memcmp`** is the lexicographic order of the bytes. -/
theorem memcmp_eq (m : Mem) (p1 p2 n : BitVec 64) :
    memcmp m p1 p2 n = some (lexSign (bytesAt m p1 0 n.toNat) (bytesAt m p2 0 n.toNat)) :=
  memcmpLoop_eq m p1 p2 (Nat.zero_add _)

theorem bytesAt_congr_iff : bytesAt m p 0 n.toNat = bytesAt m' q 0 n.toNat ↔
    ∀ i, i < n.toNat → m (byteAt p i) = m' (byteAt q i) := by
  simp only [bytesAt, List.map_inj_left, List.mem_range'_1, Nat.zero_le, true_and, Nat.zero_add]

/-- **A copy compares equal**, where it has left the source alone. -/
theorem Copied.memcmp_eq_zero (h : Copied m m' dest src n) (hd : Fits dest n) (hs : Fits src n)
    (hapart : dest.toNat + n.toNat ≤ src.toNat ∨ src.toNat + n.toNat ≤ dest.toNat) :
    memcmp m' dest src n = some 0 := by
  rw [memcmp_eq, Option.some.injEq, lexSign_eq_zero, bytesAt_congr_iff]
  intro i hi
  have hkept : m' (byteAt src i) = m (byteAt src i) := by
    refine h.frame _ fun j hj heq => ?_
    rw [byteAt_eq_iff hs hd hi hj] at heq
    omega
  rw [h.copied i hi, hkept]

end Lithium
