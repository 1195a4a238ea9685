/-
# The console's `printf`

`print_int`, `print_int64`, `print_uint64` and `print_hex` of `console.c`, and `printf`, which is a
scan of its format (`Lib/Scan.lean`).

The numeral of every value is what it should be but for one: `print_int` negates its argument as an
`int`, so that the least `int` stays negative, and its one remainder makes a character that is not a
digit (`printInt_intMin`).  `print_int64` keeps the negated value as a `uint64`.
-/
import Lithium.Lib.Numeral
import Lithium.Lib.Scan

namespace Lithium

open Numeral Scan

/-! ## 1. Numbers -/

/-- `print_int`: `none` if it stores outside of `buffer`. -/
def printInt (n : BitVec 32) : Option (List Char) :=
  let isNegative := n.slt 0#32
  let n := if isNegative then -n else n
  (doFill (signedLoop 32) 16 n).bind fun buffer =>
  (if isNegative then store 16 buffer '-' else some buffer).map fun buffer =>
  unwind buffer buffer.length

/-- `print_uint64`. -/
def printUint64 (n : BitVec 64) : Option (List Char) :=
  if n = 0#64 then some ['0']
  else (fill (unsignedLoop 64) 32 n).map fun buffer => unwind buffer buffer.length

/-- `print_int64`. -/
def printInt64 (n : BitVec 64) : Option (List Char) :=
  let isNegative := n.slt 0#64
  let value := if isNegative then -n else n
  if value = 0#64 then some (if isNegative then ['-', '0'] else ['0'])
  else
    (fill (unsignedLoop 64) 32 value).bind fun buffer =>
    (if isNegative then store 32 buffer '-' else some buffer).map fun buffer =>
    unwind buffer buffer.length

/-- `digits`. -/
def hexDigits : List Char := "0123456789abcdef".toList

/-- `digits[n & 0xF]`. -/
def hexDigit (n : BitVec 64) : Char := hexDigits.getD (n &&& 0xF#64).toNat '\x00'

/-- `print_hex`. -/
def printHex (n : BitVec 64) : Option (List Char) :=
  (doFill (hexLoop hexDigit) 16 n).map fun buffer => '0' :: 'x' :: unwind buffer buffer.length

theorem hexDigit_eq (n : BitVec 64) : hexDigit n = (n.toNat % 16).digitChar := by
  have hand : (n &&& 0xF#64).toNat = n.toNat % 16 := Nat.and_two_pow_sub_one_eq_mod n.toNat 4
  have hdigit : ∀ k, k < 16 → hexDigits.getD k '\x00' = k.digitChar := by decide
  rw [hexDigit, hand, hdigit _ (Nat.mod_lt _ (by decide))]

/-- `print_int` of any `int` but the least one. -/
theorem printInt_of_ne {n : BitVec 32} (hn : n ≠ intMin) :
    printInt n = some (numeral 10 n.toInt) := by
  have habs : (if n.msb then -n else n).msb = false := msb_abs hn
  have hlt := (if n.msb then -n else n).isLt
  have hdigits : doFill (signedLoop 32) 16 (if n.msb then -n else n)
      = some (Nat.toDigits 10 (if n.msb then -n else n).toNat).reverse :=
    doFill_eq (signedLoop_follows (by decide)) (by decide) habs (by decide) (by omega)
  rw [printInt, BitVec.slt_zero_eq_msb]
  rw [hdigits, Option.bind_some,
    unwind_store (length_toDigits_lt (k := 15) (by decide) (by decide) (by omega) (by decide)),
    ← numeral_eq_ite]
  cases n.msb <;> rfl

/-- Its negation is negative, and so is what is left when it is divided by 10. -/
theorem printInt_intMin : printInt intMin = some ['-', '('] := by decide

/-- `print_int` stays in its buffer. -/
theorem printInt_isSome (n : BitVec 32) : (printInt n).isSome = true := by
  rcases eq_or_ne n intMin with rfl | hn
  · rw [printInt_intMin]
    rfl
  · rw [printInt_of_ne hn]
    rfl

theorem printUint64_eq (n : BitVec 64) : printUint64 n = some (Nat.toDigits 10 n.toNat) := by
  have hlt := n.isLt
  rw [printUint64]
  split
  next hzero =>
    rw [hzero, BitVec.toNat_zero, Nat.toDigits_zero]
  next hn =>
    have hpos : n.toNat ≠ 0 := fun hzero => hn (BitVec.eq_of_toNat_eq hzero)
    rw [fill_eq (unsignedLoop_follows (by decide)) (by decide) trivial (by omega),
      lowDigits_of_ne hpos, Option.map_some, unwind_length, List.reverse_reverse]

theorem printInt64_eq (n : BitVec 64) : printInt64 n = some (numeral 10 n.toInt) := by
  have hlt := (if n.msb then -n else n).isLt
  rw [printInt64, BitVec.slt_zero_eq_msb, ← numeral_eq_ite]
  rcases eq_or_ne (if n.msb then -n else n) 0#64 with hzero | hvalue
  · -- only 0 has the absolute value 0
    have hn : n = 0#64 := by
      cases h : n.msb with
      | false => rwa [h] at hzero
      | true =>
        rw [h, if_pos rfl] at hzero
        exact BitVec.neg_eq_zero_iff.mp hzero
    rw [hn]
    rfl
  · have hpos : (if n.msb then -n else n).toNat ≠ 0 :=
      fun hzero => hvalue (BitVec.eq_of_toNat_eq hzero)
    rw [if_neg hvalue, fill_eq (unsignedLoop_follows (by decide)) (by decide) trivial (by omega),
      lowDigits_of_ne hpos, Option.bind_some,
      unwind_store (length_toDigits_lt (k := 31) (by decide) (by decide) (by omega) (by decide))]
    cases n.msb <;> rfl

theorem printHex_eq (n : BitVec 64) :
    printHex n = some ('0' :: 'x' :: Nat.toDigits 16 n.toNat) := by
  rw [printHex, doFill_eq (hexLoop_follows hexDigit_eq) (by decide) trivial (by decide) n.isLt,
    Option.map_some, unwind_length, List.reverse_reverse]

/-- **Console numerals.**  All four functions stay in their buffers; all write the numeral of their
argument, but `print_int` that of the least `int`. -/
theorem console_numerals (n : BitVec 32) (m : BitVec 64) :
    ((printInt n).isSome = true ∧ (printInt n = some (numeral 10 n.toInt) ↔ n ≠ intMin)) ∧
    printInt64 m = some (numeral 10 m.toInt) ∧
    printUint64 m = some (Nat.toDigits 10 m.toNat) ∧
    printHex m = some ('0' :: 'x' :: Nat.toDigits 16 m.toNat) := by
  refine ⟨⟨printInt_isSome n, fun h hn => ?_, printInt_of_ne⟩, printInt64_eq m, printUint64_eq m,
    printHex_eq m⟩
  rw [hn, printInt_intMin] at h
  exact absurd h (by decide)

/-- `print_int(INT_MIN)`. -/
theorem printInt_not_numeral : ¬ printInt intMin = some (numeral 10 intMin.toInt) := by decide

/-! ## 2. `printf` -/

/-- What `print_*` writes for an argument. -/
def shown (s : Printed) (cs : Option (List Char)) (p : List Char) :
    Except Fault (Ended Printed) :=
  match cs with
  | some cs => .ok (.more (s.show cs) p)
  | none => .error .directive

/-- The case `'l'`, behind it. -/
def printfLong (a : Args) (s : Printed) (p : List Char) : Except Fault (Ended Printed) :=
  match peek p with
  | 'd' => shown s (printInt64 (a.arg s.ap)) p
  | 'u' => shown s (printUint64 (a.arg s.ap)) p
  | 'x' => shown s (printHex (a.arg s.ap)) p
  | c => .ok (.more (s.put ['%', 'l', c]) p)

/-- The case `'z'`, behind it. -/
def printfSize (a : Args) (s : Printed) (p : List Char) : Except Fault (Ended Printed) :=
  match peek p with
  | 'u' => shown s (printUint64 (a.arg s.ap)) p
  | c => .ok (.more (s.put ['%', 'z', c]) p)

/-- What is behind a `%`. -/
def printfDirective (a : Args) (s : Printed) (p : List Char) : Except Fault (Ended Printed) :=
  match peek p with
  | 's' => .ok (.more (s.show (a.str (a.arg s.ap))) p)
  | 'd' => shown s (printInt ((a.arg s.ap).setWidth 32)) p
  | 'u' => shown s (printUint64 (a.arg s.ap)) p
  | 'x' => shown s (printHex (a.arg s.ap)) p
  | 'p' => shown s (printHex (a.arg s.ap)) p
  | 'l' => printfLong a s p.tail
  | 'z' => printfSize a s p.tail
  | '%' => .ok (.more (s.put ['%']) p)
  | c => .ok (.more (s.put ['%', c]) p)

/-- `printf`. -/
def printf (a : Args) (fmt : List Char) : Except Fault Printed :=
  scan (fun s c => s.put [c]) (printfDirective a) fmt.length fmt .start

/-- The directives of `printf`. -/
inductive ConsoleDirective where
  | short (c : Char) (hc : c ≠ 'l' ∧ c ≠ 'z')
  | long (c : Char)
  | size (c : Char)

namespace ConsoleDirective

/-- What is behind the `%`. -/
def text : ConsoleDirective → List Char
  | short c _ => [c]
  | long c => ['l', c]
  | size c => ['z', c]

/-- What `print_int` prints. -/
def intText (n : BitVec 32) : List Char := if n = intMin then ['-', '('] else numeral 10 n.toInt

/-- What `print_hex` prints. -/
def hexText (n : BitVec 64) : List Char := '0' :: 'x' :: Nat.toDigits 16 n.toNat

/-- What a directive of one character prints. -/
def printShort (a : Args) (s : Printed) (c : Char) : Printed :=
  match c with
  | 's' => s.show (a.str (a.arg s.ap))
  | 'd' => s.show (intText ((a.arg s.ap).setWidth 32))
  | 'u' => s.show (Nat.toDigits 10 (a.arg s.ap).toNat)
  | 'x' => s.show (hexText (a.arg s.ap))
  | 'p' => s.show (hexText (a.arg s.ap))
  | '%' => s.put ['%']
  | c => s.put ['%', c]

/-- What a directive prints. -/
def print (a : Args) (s : Printed) : ConsoleDirective → Printed
  | short c _ => printShort a s c
  | long c =>
    match c with
    | 'd' => s.show (numeral 10 (a.arg s.ap).toInt)
    | 'u' => s.show (Nat.toDigits 10 (a.arg s.ap).toNat)
    | 'x' => s.show (hexText (a.arg s.ap))
    | c => s.put ['%', 'l', c]
  | size c =>
    match c with
    | 'u' => s.show (Nat.toDigits 10 (a.arg s.ap).toNat)
    | c => s.put ['%', 'z', c]

end ConsoleDirective

theorem printInt_eq (n : BitVec 32) : printInt n = some (ConsoleDirective.intText n) := by
  rw [ConsoleDirective.intText]
  split
  next hn => rw [hn, printInt_intMin]
  next hn => exact printInt_of_ne hn

theorem printfLong_cons (a : Args) (s : Printed) (c : Char) (p : List Char) :
    printfLong a s (c :: p) = .ok (.more (ConsoleDirective.print a s (.long c)) (c :: p)) := by
  simp only [printfLong, peek_cons, ConsoleDirective.print]
  split <;> simp only [shown, printInt64_eq, printUint64_eq, printHex_eq, ConsoleDirective.hexText]

theorem printfSize_cons (a : Args) (s : Printed) (c : Char) (p : List Char) :
    printfSize a s (c :: p) = .ok (.more (ConsoleDirective.print a s (.size c)) (c :: p)) := by
  simp only [printfSize, peek_cons, ConsoleDirective.print]
  split <;> simp only [shown, printUint64_eq]

theorem printfDirective_cons (a : Args) (s : Printed) {c : Char} (hc : c ≠ 'l' ∧ c ≠ 'z')
    (p : List Char) : printfDirective a s (c :: p)
      = .ok (.more (ConsoleDirective.print a s (.short c hc)) (c :: p)) := by
  simp only [printfDirective, peek_cons, ConsoleDirective.print, ConsoleDirective.printShort]
  split
  case h_6 => exact absurd rfl hc.1
  case h_7 => exact absurd rfl hc.2
  all_goals
    simp only [shown, printInt_eq, printUint64_eq, printHex_eq, ConsoleDirective.hexText]

/-- `printf` reads its directives. -/
theorem printf_reads (a : Args) :
    Reads (printfDirective a) ConsoleDirective.text (ConsoleDirective.print a) false where
  stop h := absurd h Bool.false_ne_true
  at_end _ s := ⟨_, rfl⟩
  reads s d p := by
    cases d with
    | short c hc => exact ⟨c, printfDirective_cons a s hc p⟩
    | long c => exact ⟨c, printfLong_cons a s c p⟩
    | size c => exact ⟨c, printfSize_cons a s c p⟩
  cuts s p hp := by
    cases p with
    | nil => exact absurd rfl hp
    | cons c p =>
      rcases eq_or_ne c 'l' with rfl | hl
      · cases p with
        | nil => exact .inr ⟨_, rfl⟩
        | cons c p => exact .inl ⟨.long c, p, rfl⟩
      · rcases eq_or_ne c 'z' with rfl | hz
        · cases p with
          | nil => exact .inr ⟨_, rfl⟩
          | cons c p => exact .inl ⟨.size c, p, rfl⟩
        · exact .inl ⟨.short c ⟨hl, hz⟩, p, rfl⟩

/-- **`printf` prints its pieces** in order, if the format is whole. -/
theorem printf_written (a : Args) {fmt : List Char} {ts : List (Piece ConsoleDirective)}
    (h : Written ConsoleDirective.text false fmt ts) :
    printf a fmt
      = .ok (ts.foldl (act1 (fun s c => s.put [c]) (ConsoleDirective.print a)) .start) :=
  scan_written (printf_reads a) h (Nat.le_refl _) _

end Lithium
