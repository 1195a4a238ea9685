/-
# Numeric directives

Which of the numerals that `%d`, `%i`, `%u`, `%x`, `%X` and `%p` are for are printed, padded to
their width: those of 0, and those with as many characters as the width already, but for the least
`int` (`printk_numerals`).  `%p` drops the width, and pads its digits to 8.
-/
import Lithium.Io.Printk

namespace Lithium

open Numeral Scan

/-! ## 1. Padded numerals -/

/-- `ds`, padded on the left to `width` characters. -/
def padded (width : BitVec 32) (pad : Char) (ds : List Char) : List Char :=
  List.replicate (width.toInt.toNat - ds.length) pad ++ ds

/-- The directive prints `ds` behind what is there. -/
def Prints (a : Args) (s : PrintkState) (width : BitVec 32) (pad c : Char) (ds : List Char) :
    Prop :=
  ∃ s', vprintkConversion a s width pad c = some s' ∧ s'.out = s.out ++ ds

/-- The directives for numbers. -/
inductive NumericConv where
  | d | i | u | x | X

namespace NumericConv

/-- As it is written. -/
def char : NumericConv → Char
  | d => 'd'
  | i => 'i'
  | u => 'u'
  | x => 'x'
  | X => 'X'

/-- The numeral of its argument. -/
def numeral (val : BitVec 32) : NumericConv → List Char
  | d | i => Numeral.numeral 10 val.toInt
  | u => Nat.toDigits 10 val.toNat
  | x | X => Nat.toDigits 16 val.toNat

/-- There is nothing to pad, or the number is 0; and it is not the least `int`. -/
def Right (width val : BitVec 32) (conv : NumericConv) : Prop :=
  (val = 0#32 ∨ width.toInt ≤ (conv.numeral val).length) ∧
    match conv with
    | d | i => val ≠ intMin
    | u | x | X => True

end NumericConv

/-! ## 2. Which are printed -/

theorem prints_iff (a : Args) (s : PrintkState) (width : BitVec 32) (pad c : Char)
    (ds : List Char) : Prints a s width pad c ds ↔ convText a s.ap width pad c = ds := by
  constructor
  · rintro ⟨s', hs', hout⟩
    rw [vprintkConversion_eq, Option.some.injEq] at hs'
    rw [← hs'] at hout
    exact List.append_cancel_left hout
  · rintro rfl
    exact ⟨_, vprintkConversion_eq a s width pad c, rfl⟩

theorem padding_eq (width : BitVec 32) (pad : Char) :
    padding width pad ++ ['0'] = padded width pad ['0'] := by
  rw [padding_eq_replicate, padded, List.length_singleton]

/-- There is nothing to pad. -/
theorem eq_padded_iff (width : BitVec 32) (pad : Char) (ds : List Char) :
    ds = padded width pad ds ↔ width.toInt ≤ ds.length := by
  rw [padded, List.self_eq_append_left, List.replicate_eq_nil_iff]
  omega

theorem uintText_iff (base : Nat) (width : BitVec 32) (pad : Char) (val : BitVec 32) :
    uintText base width pad val = padded width pad (Nat.toDigits base val.toNat) ↔
      val = 0#32 ∨ width.toInt ≤ (Nat.toDigits base val.toNat).length := by
  rw [uintText]
  split
  next hzero =>
    rw [hzero, BitVec.toNat_zero, Nat.toDigits_zero, padding_eq]
    exact iff_of_true rfl (.inl rfl)
  next hne => rw [eq_padded_iff, or_iff_right hne]

theorem intText_iff (width : BitVec 32) (pad : Char) (val : BitVec 32) :
    intText width pad val = padded width pad (numeral 10 val.toInt) ↔
      (val = 0#32 ∨ width.toInt ≤ (numeral 10 val.toInt).length) ∧ val ≠ intMin := by
  rcases eq_or_ne val intMin with rfl | hmin
  · refine iff_of_false (fun h => ?_) fun h => h.2 rfl
    -- the last character is no digit
    have hlast := congrArg List.getLast? h
    have htext : (intText width pad intMin).getLast? = some '(' := rfl
    have hnumeral : (numeral 10 intMin.toInt).getLast? = some '8' := by decide
    rw [padded, List.getLast?_append_of_ne_nil _ (by decide), htext, hnumeral] at hlast
    exact absurd hlast (by decide)
  · rw [and_iff_left hmin]
    rcases eq_or_ne val 0#32 with rfl | hzero
    · exact iff_of_true (padding_eq width pad) (.inl rfl)
    · rw [intText_of_ne hzero hmin, eq_padded_iff, or_iff_right hzero]

/-- **A directive for a number** prints its padded numeral in these cases. -/
theorem numeric_iff (a : Args) (s : PrintkState) (width : BitVec 32) (pad : Char)
    (conv : NumericConv) :
    Prints a s width pad conv.char
        (padded width pad (conv.numeral ((a.arg s.ap).setWidth 32))) ↔
      conv.Right width ((a.arg s.ap).setWidth 32) := by
  rw [prints_iff]
  cases conv with
  | d => exact intText_iff width pad _
  | i => exact intText_iff width pad _
  | u => exact (uintText_iff 10 width pad _).trans (and_iff_left trivial).symm
  | x => exact (uintText_iff 16 width pad _).trans (and_iff_left trivial).symm
  | X => exact (uintText_iff 16 width pad _).trans (and_iff_left trivial).symm

theorem length_padded (width : BitVec 32) (pad : Char) (ds : List Char) :
    (padded width pad ds).length = max width.toInt.toNat ds.length := by
  rw [padded, List.length_append, List.length_replicate]
  omega

/-- A `uint32` has at most eight digits. -/
theorem length_toDigits_le_eight (val : BitVec 32) : (Nat.toDigits 16 val.toNat).length ≤ 8 :=
  (Nat.length_toDigits_le_iff (by decide) (by decide)).mpr (by omega)

theorem toInt_eight : (8#32).toInt = 8 := by decide

/-- Eight digits are printed of 0, and of what has eight digits. -/
theorem eightDigits_iff (val : BitVec 32) :
    uintText 16 8#32 '0' val = padded 8#32 '0' (Nat.toDigits 16 val.toNat) ↔
      val = 0#32 ∨ 0x10000000 ≤ val.toNat := by
  have hseven := Nat.length_toDigits_le_iff (b := 16) (n := val.toNat) (k := 7) (by decide)
    (by decide)
  have height := toInt_eight
  refine (uintText_iff 16 8#32 '0' val).trans (or_congr_right ?_)
  omega

/-- More than eight are never printed. -/
theorem length_uintText_eight_le (val : BitVec 32) : (uintText 16 8#32 '0' val).length ≤ 8 := by
  rw [uintText]
  split
  next hzero =>
    rw [padding_eq, length_padded, toInt_eight, List.length_singleton]
    decide
  next hne => exact length_toDigits_le_eight val

/-- What `%p` is for: `0x` and eight digits, padded to the width. -/
def pointerNumeral (width : BitVec 32) (pad : Char) (val : BitVec 32) : List Char :=
  padded width pad ('0' :: 'x' :: padded 8#32 '0' (Nat.toDigits 16 val.toNat))

/-- `0x` and the eight digits are ten characters. -/
theorem length_pointerNumeral (width : BitVec 32) (pad : Char) (val : BitVec 32) :
    (pointerNumeral width pad val).length = max width.toInt.toNat 10 := by
  have hdigits := length_toDigits_le_eight val
  have height := toInt_eight
  rw [pointerNumeral, length_padded, List.length_cons, List.length_cons, length_padded]
  omega

/-- A width of up to ten adds nothing. -/
theorem pointerNumeral_of_le {width : BitVec 32} (hwidth : width.toInt ≤ 10) (pad : Char)
    (val : BitVec 32) : pointerNumeral width pad val =
      '0' :: 'x' :: padded 8#32 '0' (Nat.toDigits 16 val.toNat) := by
  refine ((eq_padded_iff width pad _).mpr ?_).symm
  have height := toInt_eight
  rw [List.length_cons, List.length_cons, length_padded]
  omega

/-- `%p` prints eight digits of 0, and of what has eight digits; the width is dropped. -/
theorem pointer_iff (a : Args) (s : PrintkState) (width : BitVec 32) (pad : Char) :
    Prints a s width pad 'p' (pointerNumeral width pad ((a.arg s.ap).setWidth 32)) ↔
      ((a.arg s.ap).setWidth 32 = 0#32 ∨ 0x10000000 ≤ ((a.arg s.ap).setWidth 32).toNat) ∧
        width.toInt ≤ 10 := by
  rw [prints_iff]
  by_cases hwidth : width.toInt ≤ 10
  · rw [and_iff_left hwidth, pointerNumeral_of_le hwidth, ← eightDigits_iff]
    refine ⟨fun h => ?_, fun h => ?_⟩
    · exact List.tail_eq_of_cons_eq (List.tail_eq_of_cons_eq h)
    · exact congrArg (fun ds => '0' :: 'x' :: ds) h
  · refine iff_of_false (fun h => ?_) fun h => hwidth h.2
    -- ten characters at most are printed, and there are more to print
    have hprinted : (convText a s.ap width pad 'p').length ≤ 10 :=
      Nat.add_le_add_right (length_uintText_eight_le _) 2
    rw [h, length_pointerNumeral] at hprinted
    omega

/-- **Numeric directives.**  They print the padded numeral of their argument if it is 0 or there is
nothing to pad, but for the least `int`. -/
theorem printk_numerals (a : Args) (s : PrintkState) (width : BitVec 32) (pad : Char) :
    (∀ conv : NumericConv, Prints a s width pad conv.char
        (padded width pad (conv.numeral ((a.arg s.ap).setWidth 32))) ↔
      conv.Right width ((a.arg s.ap).setWidth 32)) ∧
    (Prints a s width pad 'p' (pointerNumeral width pad ((a.arg s.ap).setWidth 32)) ↔
      ((a.arg s.ap).setWidth 32 = 0#32 ∨ 0x10000000 ≤ ((a.arg s.ap).setWidth 32).toNat) ∧
        width.toInt ≤ 10) :=
  ⟨numeric_iff a s width pad, pointer_iff a s width pad⟩

/-- 42 as the only argument. -/
def fortyTwo : Args where
  arg _ := 42#64
  str _ := []

/-- `%5d` of 42 prints no blanks. -/
theorem numeric_not_padded :
    ¬ Prints fortyTwo ⟨[], 0#32, 0⟩ 5#32 ' ' 'd' (padded 5#32 ' ' (numeral 10 42)) := by
  rw [prints_iff]
  decide

end Lithium
