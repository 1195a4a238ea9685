/-
# Numbers and formats in user space

`u_itoa`, `u_atoi` and `u_printf` of `ulibc.c`.

`u_itoa` stores a numeral and `u_atoi` reads it back, for every `int` but the least one: its
negation is negative, so that the loop over the digits stores none, and what is left is the sign
(`uItoa_intMin`).  `u_atoi` does read the numeral of the least `int`.
-/
import Lithium.Lib.Numeral
import Lithium.Lib.Scan

namespace Lithium

open Numeral Scan

/-! ## 1. Numbers -/

/-- `u_itoa`: what it stores in `buf`, or `none` if it stores outside of `tmp`. -/
def uItoa (n : BitVec 32) : Option (List Char) :=
  let neg := n.slt 0#32
  let n := if neg then -n else n
  if n = 0#32 then some (sign neg ++ ['0', '\x00'])
  else
    (fill (signedLoop 32) 12 n).map fun tmp =>
    sign neg ++ (List.range tmp.length).map (fun j => tmp.getD (tmp.length - 1 - j) '\x00')
      ++ ['\x00']

/-- `u_atoi`, of the characters that `s` points to. -/
def uAtoi (s : List Char) : BitVec 32 :=
  let neg := s.head? == some '-'
  let n := (readDigits 0#32 (if neg then s.tail else s)).1
  if neg then -n else n

/-- The copy goes backwards. -/
theorem map_range_reverse (tmp : List Char) :
    (List.range tmp.length).map (fun j => tmp.getD (tmp.length - 1 - j) '\x00') = tmp.reverse := by
  apply List.ext_getElem
  · rw [List.length_map, List.length_range, List.length_reverse]
  · intro j hj hrev
    rw [List.length_reverse] at hrev
    rw [List.getElem_map, List.getElem_range, List.getElem_reverse,
      List.getD_eq_getElem _ _ (by omega)]

/-- `u_itoa` of any `int` but the least one. -/
theorem uItoa_of_ne {n : BitVec 32} (hn : n ≠ intMin) :
    uItoa n = some (numeral 10 n.toInt ++ ['\x00']) := by
  have habs : (if n.msb then -n else n).msb = false := msb_abs hn
  have hlt := (if n.msb then -n else n).isLt
  have hdigits : fill (signedLoop 32) 12 (if n.msb then -n else n)
      = some (lowDigits 10 (if n.msb then -n else n).toNat) :=
    fill_eq (signedLoop_follows (by decide)) (by decide) habs (by omega)
  have hsign : sign n.msb ++ Nat.toDigits 10 (if n.msb then -n else n).toNat
      = numeral 10 n.toInt := by
    rw [← numeral_eq_ite]
    cases n.msb <;> rfl
  rw [uItoa, BitVec.slt_zero_eq_msb, ← hsign]
  rcases eq_or_ne (if n.msb then -n else n) 0#32 with hzero | hne
  · rw [hzero, if_pos rfl, BitVec.toNat_zero, Nat.toDigits_zero, List.append_assoc]
    rfl
  · have hpos : (if n.msb then -n else n).toNat ≠ 0 :=
      fun hzero => hne (BitVec.eq_of_toNat_eq hzero)
    rw [if_neg hne, hdigits, Option.map_some, map_range_reverse, lowDigits_of_ne hpos,
      List.reverse_reverse]

/-- No digit is stored. -/
theorem uItoa_intMin : uItoa intMin = some ['-', '\x00'] := by decide

theorem head?_of_canonical {ds : List Char} (h : Canonical ds) (p : List Char) :
    (ds ++ p).head? ≠ some '-' := by
  obtain ⟨hne, hdigits, -⟩ := h
  cases ds with
  | nil => exact absurd rfl hne
  | cons c ds =>
    intro hc
    have hdigit := hdigits c List.mem_cons_self
    rw [Option.some.inj hc] at hdigit
    exact absurd hdigit (by decide)

/-- **`u_atoi`** gives the value of a numeral, as an `int`. -/
theorem uAtoi_eq (neg : Bool) {ds : List Char} (h : Canonical ds) :
    uAtoi (sign neg ++ (ds ++ ['\x00'])) =
      if neg then -BitVec.ofNat 32 (Nat.ofDigitChars 10 ds 0)
      else BitVec.ofNat 32 (Nat.ofDigitChars 10 ds 0) := by
  have hread := readDigits_eq (w := 32) h.2.1 (p := ['\x00']) (fun c hc => by
    rw [← Option.some.inj hc]
    rfl) 0
  cases neg with
  | false =>
    have hhead : ((ds ++ ['\x00']).head? == some '-') = false :=
      beq_eq_false_iff_ne.mpr (head?_of_canonical h _)
    rw [uAtoi, sign, if_neg Bool.false_ne_true, List.nil_append, hhead]
    exact congrArg Prod.fst hread
  | true => exact congrArg (fun r => -r.1) hread

/-- `u_atoi` reads the numeral of every `int`. -/
theorem uAtoi_numeral (n : BitVec 32) : uAtoi (numeral 10 n.toInt ++ ['\x00']) = n := by
  have hread := uAtoi_eq n.msb (canonical_toDigits (if n.msb then -n else n).toNat)
  rw [← List.append_assoc, Nat.ofDigitChars_ten_toDigits, BitVec.ofNat_toNat,
    BitVec.setWidth_eq] at hread
  rw [← numeral_eq_ite]
  cases h : n.msb with
  | false =>
    rw [h] at hread
    exact hread
  | true =>
    rw [h] at hread
    exact hread.trans BitVec.neg_neg

/-- A sign and 10 digits. -/
theorem length_numeral_le (n : BitVec 32) : (numeral 10 n.toInt).length ≤ 11 := by
  have hle : ∀ v : BitVec 32, (Nat.toDigits 10 v.toNat).length ≤ 10 := fun v => by
    have hlt := v.isLt
    exact (Nat.length_toDigits_le_iff (by decide) (by decide)).mpr (by omega)
  rw [← numeral_eq_ite]
  cases n.msb with
  | false => exact Nat.le_succ_of_le (hle n)
  | true => exact Nat.succ_le_succ (hle (-n))

/-- `u_itoa` stores the numeral of `n`, in 12 bytes, and `u_atoi` gives `n` back. -/
def RoundTrips (n : BitVec 32) : Prop :=
  uItoa n = some (numeral 10 n.toInt ++ ['\x00']) ∧
    (numeral 10 n.toInt ++ ['\x00']).length ≤ 12 ∧
    uAtoi (numeral 10 n.toInt ++ ['\x00']) = n

/-- Numerals of an `int` as strings. -/
structure IntString where
  neg : Bool
  digits : List Char
  canonical : Canonical digits
  no_minus_zero : neg = true → digits ≠ ['0']
  fits : Nat.ofDigitChars 10 digits 0 < 2 ^ 31 ∨
    (neg = true ∧ Nat.ofDigitChars 10 digits 0 = 2 ^ 31)

namespace IntString

/-- The string, with its terminator. -/
def chars (s : IntString) : List Char := sign s.neg ++ (s.digits ++ ['\x00'])

/-- Its value. -/
def value (s : IntString) : Int :=
  if s.neg then -Nat.ofDigitChars 10 s.digits 0 else Nat.ofDigitChars 10 s.digits 0

/-- The string of an `int`. -/
def ofInt (n : BitVec 32) : IntString where
  neg := decide (n.toInt < 0)
  digits := Nat.toDigits 10 n.toInt.natAbs
  canonical := canonical_toDigits _
  no_minus_zero hneg hdigits := by
    have hzero : Nat.ofDigitChars 10 (Nat.toDigits 10 n.toInt.natAbs) 0 = 0 := by
      rw [hdigits]
      rfl
    rw [Nat.ofDigitChars_ten_toDigits] at hzero
    have hlt := of_decide_eq_true hneg
    omega
  fits := by
    have hlt : 2 * n.toInt < 2 ^ 32 := BitVec.two_mul_toInt_lt
    have hle : -2 ^ 32 ≤ 2 * n.toInt := BitVec.le_two_mul_toInt
    rw [Nat.ofDigitChars_ten_toDigits, decide_eq_true_eq]
    omega

theorem ofInt_value (n : BitVec 32) : (ofInt n).value = n.toInt := by
  simp only [value, ofInt, Nat.ofDigitChars_ten_toDigits, decide_eq_true_eq]
  split
  all_goals omega

example : (ofInt intMin).chars = "-2147483648".toList ++ ['\x00'] := by decide +kernel

/-- The string is the numeral of its value. -/
theorem numeral_value (s : IntString) : numeral 10 s.value ++ ['\x00'] = s.chars := by
  have hdigits := toDigits_of_canonical s.canonical
  rw [value, chars]
  cases h : s.neg with
  | false => rw [if_neg Bool.false_ne_true, numeral_natCast, hdigits]; rfl
  | true =>
    have hpos : Nat.ofDigitChars 10 s.digits 0 ≠ 0 := fun hzero =>
      s.no_minus_zero h (by rw [← hdigits, hzero, Nat.toDigits_zero])
    rw [if_pos rfl, numeral_of_neg (by omega), Int.natAbs_neg, Int.natAbs_natCast, hdigits]
    rfl

/-- `u_atoi` gives the value. -/
theorem uAtoi_chars (s : IntString) : (uAtoi s.chars).toInt = s.value := by
  have hfits := s.fits
  rw [chars, uAtoi_eq s.neg s.canonical, value]
  cases h : s.neg with
  | false =>
    rw [h] at hfits
    have hlt := hfits.resolve_right fun hmin => Bool.false_ne_true hmin.1
    rw [if_neg Bool.false_ne_true, if_neg Bool.false_ne_true, ← BitVec.ofInt_natCast,
      BitVec.toInt_ofInt, Int.bmod_eq_of_le (by omega) (by omega)]
  | true =>
    have hle : Nat.ofDigitChars 10 s.digits 0 ≤ 2 ^ 31 := by
      rcases hfits with hlt | ⟨-, hmin⟩ <;> omega
    rw [if_pos rfl, if_pos rfl, ← BitVec.ofInt_natCast, ← BitVec.ofInt_neg, BitVec.toInt_ofInt,
      Int.bmod_eq_of_le (by omega) (by omega)]

end IntString

theorem uItoa_eq_iff (n : BitVec 32) :
    uItoa n = some (numeral 10 n.toInt ++ ['\x00']) ↔ n ≠ intMin := by
  refine ⟨?_, uItoa_of_ne⟩
  rintro hstore rfl
  rw [uItoa_intMin] at hstore
  exact absurd hstore (by decide)

theorem roundTrips_iff (n : BitVec 32) : RoundTrips n ↔ n ≠ intMin := by
  refine ⟨fun h => (uItoa_eq_iff n).mp h.1, fun hn => ⟨uItoa_of_ne hn, ?_, uAtoi_numeral n⟩⟩
  rw [List.length_append]
  exact Nat.succ_le_succ (length_numeral_le n)

/-- **The round trips of `u_itoa` and `u_atoi`** work for all numbers, and all strings, but the
least `int`. -/
theorem decimal_roundTrip (n : BitVec 32) (s : IntString) :
    (RoundTrips n ↔ n ≠ intMin) ∧
    (uItoa (uAtoi s.chars) = some s.chars ↔ s.value ≠ intMin.toInt) := by
  refine ⟨roundTrips_iff n, ?_⟩
  rw [← s.numeral_value, ← s.uAtoi_chars, uAtoi_numeral, ne_eq, BitVec.toInt_inj]
  exact uItoa_eq_iff _

/-- `u_itoa(INT_MIN)`. -/
theorem uItoa_not_numeral : ¬ RoundTrips intMin := fun h => (uItoa_eq_iff intMin).mp h.1 rfl

/-! ## 2. `u_printf` -/

/-- A digit of `%x`. -/
def uHexDigit (n : BitVec 64) : Char := digitOf ((n &&& 0xF#64).setWidth 32)

/-- The case `'d'`, with `buf` of 20 characters. -/
def uPrintfInt (s : Printed) (n : BitVec 32) (p : List Char) : Except Fault (Ended Printed) :=
  match uItoa n with
  | some buf =>
    if buf.length ≤ 20 then .ok (.more (s.show (buf.takeWhile (· != '\x00'))) p)
    else .error .directive
  | none => .error .directive

/-- The case `'x'`. -/
def uPrintfHex (s : Printed) (n : BitVec 64) (p : List Char) : Except Fault (Ended Printed) :=
  if n = 0#64 then .ok (.more (s.show ['0']) p)
  else
    match fill (hexLoop uHexDigit) 17 n with
    | some hex => .ok (.more (s.show (unwind hex hex.length)) p)
    | none => .error .directive

/-- What is behind a `%`. -/
def uPrintfDirective (a : Args) (s : Printed) (p : List Char) : Except Fault (Ended Printed) :=
  match peek p with
  | 'd' => uPrintfInt s ((a.arg s.ap).setWidth 32) p
  | 's' =>
    .ok (.more (s.show (if a.arg s.ap = 0#64 then "(null)".toList else a.str (a.arg s.ap))) p)
  | 'c' => .ok (.more (s.show [charOf (a.arg s.ap)]) p)
  | 'x' => uPrintfHex s (a.arg s.ap) p
  | '%' => .ok (.more (s.put ['%']) p)
  | c => .ok (.more (s.put ['%', c]) p)

/-- `u_printf`. -/
def uPrintf (a : Args) (fmt : List Char) : Except Fault Printed :=
  scan (fun s c => s.put [c]) (uPrintfDirective a) fmt.length fmt .start

/-- What `%d` prints. -/
def uIntText (n : BitVec 32) : List Char := if n = intMin then ['-'] else numeral 10 n.toInt

/-- What a directive prints. -/
def uPrint (a : Args) (s : Printed) (c : Char) : Printed :=
  match c with
  | 'd' => s.show (uIntText ((a.arg s.ap).setWidth 32))
  | 's' => s.show (if a.arg s.ap = 0#64 then "(null)".toList else a.str (a.arg s.ap))
  | 'c' => s.show [charOf (a.arg s.ap)]
  | 'x' => s.show (Nat.toDigits 16 (a.arg s.ap).toNat)
  | '%' => s.put ['%']
  | c => s.put ['%', c]

theorem uHexDigit_eq (n : BitVec 64) : uHexDigit n = (n.toNat % 16).digitChar := by
  have hand : (n &&& 0xF#64).setWidth 32 = BitVec.ofNat 32 (n.toNat % 16) := by
    apply BitVec.eq_of_toNat_eq
    rw [BitVec.toNat_setWidth, BitVec.toNat_ofNat]
    exact congrArg (· % 2 ^ 32) (Nat.and_two_pow_sub_one_eq_mod n.toNat 4)
  rw [uHexDigit, hand, digitOf_eq (Nat.mod_lt _ (by decide))]

/-- The numeral ends at the terminator. -/
theorem takeWhile_numeral (z : Int) :
    (numeral 10 z ++ ['\x00']).takeWhile (· != '\x00') = numeral 10 z := by
  have hmem : ∀ c ∈ numeral 10 z, (c != '\x00') = true := by
    intro c hc
    rw [bne_iff_ne]
    rintro rfl
    rcases mem_numeral hc with h | h
    · exact absurd h (by decide)
    · exact absurd h (by decide)
  rw [List.takeWhile_append_of_pos hmem]
  exact List.append_nil _

theorem uPrintfInt_eq (s : Printed) (n : BitVec 32) (p : List Char) :
    uPrintfInt s n p = .ok (.more (s.show (uIntText n)) p) := by
  rcases eq_or_ne n intMin with rfl | hn
  · rw [uPrintfInt, uItoa_intMin, uIntText, if_pos rfl]
    rfl
  · have hlen : (numeral 10 n.toInt ++ ['\x00']).length ≤ 20 := by
      have hle := length_numeral_le n
      rw [List.length_append, List.length_singleton]
      omega
    rw [uPrintfInt, uItoa_of_ne hn, uIntText, if_neg hn]
    dsimp only
    rw [if_pos hlen, takeWhile_numeral]

theorem uPrintfHex_eq (s : Printed) (n : BitVec 64) (p : List Char) :
    uPrintfHex s n p = .ok (.more (s.show (Nat.toDigits 16 n.toNat)) p) := by
  have hlt := n.isLt
  rw [uPrintfHex]
  rcases eq_or_ne n 0#64 with rfl | hn
  · rw [if_pos rfl, BitVec.toNat_zero, Nat.toDigits_zero]
  · have hpos : n.toNat ≠ 0 := fun hzero => hn (BitVec.eq_of_toNat_eq hzero)
    rw [if_neg hn, fill_eq (hexLoop_follows uHexDigit_eq) (by decide) trivial (by omega),
      lowDigits_of_ne hpos]
    dsimp only
    rw [unwind_length, List.reverse_reverse]

/-- `u_printf` reads its directives, which have one character. -/
theorem uPrintf_reads (a : Args) : Reads (uPrintfDirective a) (fun c => [c]) (uPrint a) false where
  stop h := absurd h Bool.false_ne_true
  at_end _ s := ⟨_, rfl⟩
  reads s c p := by
    refine ⟨c, ?_⟩
    simp only [uPrintfDirective, uPrint, List.singleton_append, peek_cons]
    split <;> simp only [uPrintfInt_eq, uPrintfHex_eq]
  cuts s p hp := by
    cases p with
    | nil => exact absurd rfl hp
    | cons c p => exact .inl ⟨c, p, rfl⟩

/-- **`u_printf` prints its pieces** in order, if the format is whole. -/
theorem uPrintf_written (a : Args) {fmt : List Char} {ts : List (Piece Char)}
    (h : Written (fun c => [c]) false fmt ts) :
    uPrintf a fmt = .ok (ts.foldl (act1 (fun s c => s.put [c]) (uPrint a)) .start) :=
  scan_written (uPrintf_reads a) h (Nat.le_refl _) _

end Lithium
