/-
# `printk`

`printk_write_int`, `printk_write_uint` and `vprintk` of `printk.c`.

What a directive prints is `convText`, and what it counts too much, or too little, is `convExtra`
(`vprintkConversion_eq`).  The functions for numbers pad a 0 only.  The least `int` is negated twice
and stays negative, which gives `--(`.
-/
import Lithium.Lib.Numeral
import Lithium.Lib.Scan

namespace Lithium

open Numeral Scan

/-! ## 1. The code -/

/-- `for (int i = 1; i < width; i++) uart_putchar(pad)`, if `width > 0`. -/
def padding (width : BitVec 32) (pad : Char) : List Char :=
  if (0#32).slt width then List.replicate (width.toNat - 1) pad else []

/-- `printk_write_int`, for that many nested calls. -/
def printkWriteInt : Nat → BitVec 32 → BitVec 32 → BitVec 32 → Char → Option (List Char)
  | 0, _, _, _, _ => none
  | depth + 1, n, base, width, pad =>
    if n = 0#32 then some (padding width pad ++ ['0'])
    else
      let neg := n.slt 0#32 && base == 10#32
      let n := if neg then -n else n
      (if (0#32).slt (n.sdiv base) then printkWriteInt depth (n.sdiv base) base 0#32 ' '
        else some []).map fun high => sign neg ++ high ++ [digitOf (n.srem base)]

/-- `printk_write_uint`. -/
def printkWriteUint : Nat → BitVec 32 → BitVec 32 → BitVec 32 → Char → Option (List Char)
  | 0, _, _, _, _ => none
  | depth + 1, n, base, width, pad =>
    if n = 0#32 then some (padding width pad ++ ['0'])
    else
      (if 0#32 < n / base then printkWriteUint depth (n / base) base 0#32 ' '
        else some []).map fun high => high ++ [digitOf (n % base)]

/-- What `vprintk` has printed and counted, and how many arguments it has taken. -/
structure PrintkState where
  out : List Char
  count : BitVec 32
  ap : Nat
  deriving DecidableEq

/-- `uart_putchar` and `count++`, for each character. -/
def PrintkState.put (s : PrintkState) (cs : List Char) : PrintkState :=
  { s with
    out := s.out ++ cs
    count := s.count + BitVec.ofNat 32 cs.length }

/-- `va_arg`. -/
def PrintkState.next (s : PrintkState) : PrintkState := { s with ap := s.ap + 1 }

/-- `while (temp > 0) { count++; temp /= 10; }`, for fewer rounds than the first argument. -/
def countDigits : Nat → BitVec 32 → BitVec 32 → Option (BitVec 32)
  | 0, _, _ => none
  | k + 1, temp, count =>
    if (0#32).slt temp then countDigits k (temp.sdiv 10#32) (count + 1#32) else some count

/-- The cases `'d'` and `'i'`. -/
def vprintkInt (s : PrintkState) (val width : BitVec 32) (pad : Char) : Option PrintkState :=
  let s := if val.slt 0#32 then s.put ['-'] else s
  let val := if val.slt 0#32 then -val else val
  (printkWriteInt 32 val 10#32 width pad).bind fun cs =>
  let count := s.count +
    if (0#32).slt width then width else if val = 0#32 then 1#32 else 0#32
  (if width = 0#32 then
    (countDigits 11 val count).map fun count => if val = 0#32 then 1#32 else count
  else some count).map fun count =>
  { s with
    out := s.out ++ cs
    count := count }

/-- The cases `'u'`, `'x'` and `'X'`. -/
def vprintkUint (s : PrintkState) (val base width : BitVec 32) (pad : Char) :
    Option PrintkState :=
  (printkWriteUint 32 val base width pad).map fun cs =>
  { s with
    out := s.out ++ cs
    count := s.count + if (0#32).slt width then width else 1#32 }

/-- The case `'p'`. -/
def vprintkPointer (s : PrintkState) (val : BitVec 32) : Option PrintkState :=
  let s := s.put ['0', 'x']
  (printkWriteUint 32 val 16#32 8#32 '0').map fun cs =>
  { s with
    out := s.out ++ cs
    count := s.count + 8#32 }

/-- The `switch` of `vprintk`. -/
def vprintkConversion (a : Args) (s : PrintkState) (width : BitVec 32) (pad : Char) (c : Char) :
    Option PrintkState :=
  match c with
  | '%' => some (s.put ['%'])
  | 'd' => vprintkInt s.next ((a.arg s.ap).setWidth 32) width pad
  | 'i' => vprintkInt s.next ((a.arg s.ap).setWidth 32) width pad
  | 'u' => vprintkUint s.next ((a.arg s.ap).setWidth 32) 10#32 width pad
  | 'x' => vprintkUint s.next ((a.arg s.ap).setWidth 32) 16#32 width pad
  | 'X' => vprintkUint s.next ((a.arg s.ap).setWidth 32) 16#32 width pad
  | 's' =>
    some (s.next.put (if a.arg s.ap = 0#64 then "(null)".toList else a.str (a.arg s.ap)))
  | 'c' => some (s.next.put [charOf ((a.arg s.ap).setWidth 32)])
  | 'p' => vprintkPointer s.next ((a.arg s.ap).setWidth 32)
  | c => some (s.put ['%', c])

/-- What is behind the width. -/
def vprintkSwitch (a : Args) (s : PrintkState) (width : BitVec 32) (pad : Char) (p : List Char) :
    Except Fault (Ended PrintkState) :=
  match vprintkConversion a s width pad (peek p) with
  | some s => .ok (.more s p)
  | none => .error .directive

/-- What is behind a `%`. -/
def vprintkDirective (a : Args) (s : PrintkState) : List Char → Except Fault (Ended PrintkState)
  | [] => .ok (.stop s)
  | c :: p =>
    let pad := if c = '0' then '0' else ' '
    let r := readDigits 0#32 (if c = '0' then p else c :: p)
    vprintkSwitch a s r.1 pad r.2

/-- `vprintk`. -/
def vprintk (a : Args) (fmt : List Char) : Except Fault PrintkState :=
  scan (fun s c => s.put [c]) (vprintkDirective a) fmt.length fmt ⟨[], 0#32, 0⟩

/-! ## 2. What is printed -/

/-- What `printk_write_uint` prints. -/
def uintText (base : Nat) (width : BitVec 32) (pad : Char) (val : BitVec 32) : List Char :=
  if val = 0#32 then padding width pad ++ ['0'] else Nat.toDigits base val.toNat

/-- What `%d` prints. -/
def intText (width : BitVec 32) (pad : Char) (val : BitVec 32) : List Char :=
  if val = 0#32 then padding width pad ++ ['0']
  else if val = intMin then ['-', '-', '(']
  else numeral 10 val.toInt

/-- What a directive prints. -/
def convText (a : Args) (ap : Nat) (width : BitVec 32) (pad : Char) (c : Char) : List Char :=
  match c with
  | '%' => ['%']
  | 'd' => intText width pad ((a.arg ap).setWidth 32)
  | 'i' => intText width pad ((a.arg ap).setWidth 32)
  | 'u' => uintText 10 width pad ((a.arg ap).setWidth 32)
  | 'x' => uintText 16 width pad ((a.arg ap).setWidth 32)
  | 'X' => uintText 16 width pad ((a.arg ap).setWidth 32)
  | 's' => if a.arg ap = 0#64 then "(null)".toList else a.str (a.arg ap)
  | 'c' => [charOf ((a.arg ap).setWidth 32)]
  | 'p' => '0' :: 'x' :: uintText 16 8#32 '0' ((a.arg ap).setWidth 32)
  | c => ['%', c]

/-- Whether it takes an argument. -/
def takesArg (c : Char) : Bool :=
  match c with
  | 'd' | 'i' | 'u' | 'x' | 'X' | 's' | 'c' | 'p' => true
  | _ => false

/-- What `%u` counts too much. -/
def uintExtra (base : Nat) (width val : BitVec 32) : Int :=
  if val = 0#32 then 0
  else (if 0 < width.toInt then width.toInt else 1) - (Nat.toDigits base val.toNat).length

/-- What `%d` counts too much. -/
def intExtra (width val : BitVec 32) : Int :=
  if val = 0#32 then 0
  else if val = intMin then max width.toInt 0 - 2
  else if width = 0#32 then 0
  else max width.toInt 0 - (Nat.toDigits 10 val.toInt.natAbs).length

/-- What a directive counts too much. -/
def convExtra (width arg : BitVec 32) (c : Char) : Int :=
  match c with
  | 'd' => intExtra width arg
  | 'i' => intExtra width arg
  | 'u' => uintExtra 10 width arg
  | 'x' => uintExtra 16 width arg
  | 'X' => uintExtra 16 width arg
  | 'p' => uintExtra 16 8#32 arg
  | _ => 0

/-- `if (val == 0) count = 1`. -/
def resets (width arg : BitVec 32) (c : Char) : Bool :=
  match c with
  | 'd' | 'i' => width == 0#32 && arg == 0#32
  | _ => false

/-- The state behind a directive. -/
def printConv (a : Args) (s : PrintkState) (width : BitVec 32) (pad : Char) (c : Char) :
    PrintkState where
  out := s.out ++ convText a s.ap width pad c
  count :=
    if resets width ((a.arg s.ap).setWidth 32) c then 1#32
    else s.count + BitVec.ofInt 32 ((convText a s.ap width pad c).length
      + convExtra width ((a.arg s.ap).setWidth 32) c)
  ap := s.ap + if takesArg c then 1 else 0

/-! ## 3. The functions that write numbers -/

variable {n : BitVec 32}

theorem printkWriteUint_zero (depth : Nat) (base width : BitVec 32) (pad : Char) :
    printkWriteUint (depth + 1) 0#32 base width pad = some (padding width pad ++ ['0']) :=
  if_pos rfl

/-- **`printk_write_uint`** writes the digits, without padding. -/
theorem printkWriteUint_of_ne {base width : BitVec 32} {pad : Char} (hlo : 1 < base.toNat)
    (hhi : base.toNat ≤ 16) (hn : n ≠ 0#32) {depth : Nat} (hdepth : n.toNat < base.toNat ^ depth) :
    printkWriteUint depth n base width pad = some (Nat.toDigits base.toNat n.toNat) := by
  induction depth generalizing n width pad with
  | zero =>
    have hzero : n.toNat = 0 := Nat.lt_one_iff.mp hdepth
    exact absurd (BitVec.eq_of_toNat_eq hzero) hn
  | succ depth ih =>
    have hdigit : digitOf (n % base) = (n.toNat % base.toNat).digitChar := by
      rw [← digitOf_eq (Nat.lt_of_lt_of_le (Nat.mod_lt _ (by omega)) hhi), ← BitVec.toNat_umod,
        BitVec.ofNat_toNat, BitVec.setWidth_eq]
    rw [printkWriteUint, if_neg hn, hdigit, Nat.toDigits_eq_if hlo]
    rcases Nat.lt_or_ge n.toNat base.toNat with hlt | hge
    · have hdiv : ¬ 0#32 < n / base := by
        rw [BitVec.lt_def, BitVec.toNat_udiv, Nat.div_eq_of_lt hlt]
        exact Nat.lt_irrefl 0
      rw [if_neg hdiv, if_pos hlt, Nat.mod_eq_of_lt hlt]
      rfl
    · have hpos : 0 < n.toNat / base.toNat := Nat.div_pos hge (by omega)
      have hdiv : 0#32 < n / base := by
        rw [BitVec.lt_def, BitVec.toNat_udiv]
        exact hpos
      have hless : (n / base).toNat < base.toNat ^ depth := by
        rw [BitVec.toNat_udiv, Nat.div_lt_iff_lt_mul (by omega), ← Nat.pow_succ]
        exact hdepth
      have hne : n / base ≠ 0#32 := fun hzero => by
        rw [hzero] at hdiv
        exact absurd hdiv (by decide)
      rw [if_pos hdiv, if_neg (Nat.not_lt.mpr hge), ih hne hless, BitVec.toNat_udiv]
      rfl

theorem printkWriteUint_eq (base : BitVec 32) (hlo : 1 < base.toNat) (hhi : base.toNat ≤ 16)
    (n width : BitVec 32) (pad : Char) :
    printkWriteUint 32 n base width pad = some (uintText base.toNat width pad n) := by
  rw [uintText]
  split
  next hn => rw [hn, printkWriteUint_zero]
  next hn =>
    have hpow : 2 ^ 32 ≤ base.toNat ^ 32 := Nat.pow_le_pow_left hlo 32
    exact printkWriteUint_of_ne hlo hhi hn (Nat.lt_of_lt_of_le n.isLt hpow)

/-- **`printk_write_int`** is `printk_write_uint` for what is not negative. -/
theorem printkWriteInt_of_msb {base : BitVec 32} (hbase : base.msb = false)
    (hn : n.msb = false) (depth : Nat) (width : BitVec 32) (pad : Char) :
    printkWriteInt depth n base width pad = printkWriteUint depth n base width pad := by
  induction depth generalizing n width pad with
  | zero => rfl
  | succ depth ih =>
    have hneg : (n.slt 0#32 && base == 10#32) = false := by
      rw [BitVec.slt_zero_eq_msb, hn, Bool.false_and]
    have hdiv : (n / base).msb = false := msb_udiv_of_msb hn base
    have hmore : ((0#32).slt (n / base) = true) = (0#32 < n / base) := by
      rw [zero_slt_of_msb hdiv, BitVec.lt_def, BitVec.toNat_zero]
    rw [printkWriteInt, printkWriteUint, hneg]
    simp only [Bool.false_eq_true, if_false, sdiv_of_msb hn hbase, srem_of_msb hn hbase, ih hdiv,
      hmore]
    rfl

theorem printkWriteInt_eq (hn : n.msb = false) (width : BitVec 32) (pad : Char) :
    printkWriteInt 32 n 10#32 width pad = some (uintText 10 width pad n) := by
  rw [printkWriteInt_of_msb (by decide) hn]
  exact printkWriteUint_eq 10#32 (by decide) (by decide) n width pad

/-- It negates once more, and prints one remainder. -/
theorem printkWriteInt_intMin (width : BitVec 32) (pad : Char) :
    printkWriteInt 32 intMin 10#32 width pad = some ['-', '('] := rfl

/-! ## 4. Counting -/

/-- The digits of what is not negative are counted; there are none of 0. -/
theorem countDigits_eq (hn : n.msb = false) {k : Nat} (hk : n.toNat < 10 ^ k)
    (count : BitVec 32) : countDigits (k + 1) n count
      = some (count + BitVec.ofNat 32 (lowDigits 10 n.toNat).length) := by
  induction k generalizing n count with
  | zero =>
    have hzero : n = 0#32 := BitVec.eq_of_toNat_eq (Nat.lt_one_iff.mp hk)
    rw [hzero]
    exact congrArg some (BitVec.add_zero count).symm
  | succ k ih =>
    rw [countDigits]
    rcases Nat.eq_zero_or_pos n.toNat with hzero | hpos
    · have hn : n = 0#32 := BitVec.eq_of_toNat_eq hzero
      rw [hn]
      exact congrArg some (BitVec.add_zero count).symm
    · have hdiv : (n / 10#32).toNat = n.toNat / 10 := BitVec.toNat_udiv
      rw [if_pos ((zero_slt_of_msb hn).mpr hpos), sdiv_of_msb hn (by decide),
        ih (msb_udiv_of_msb hn _) (by omega), hdiv, lowDigits_of_pos (by decide) hpos,
        List.length_cons, BitVec.add_assoc, Nat.add_comm, BitVec.ofNat_add]

/-- A width that is not positive asks for no padding. -/
theorem padding_eq_replicate (width : BitVec 32) (pad : Char) :
    padding width pad = List.replicate (width.toInt.toNat - 1) pad := by
  have hcond := BitVec.toInt_eq_toNat_cond width
  have hlt := width.isLt
  rw [padding]
  split
  next hslt =>
    have hpos := (zero_slt_iff width).mp hslt
    have hval : width.toInt.toNat = width.toNat := by
      split at hcond <;> omega
    rw [hval]
  next hslt =>
    have hle := Int.not_lt.mp fun hpos => hslt ((zero_slt_iff width).mpr hpos)
    rw [Int.toNat_of_nonpos hle]
    rfl

/-- A padded 0 has `width` characters, if that is a number of characters. -/
theorem length_padding (width : BitVec 32) (pad : Char) :
    ((padding width pad ++ ['0']).length : Int) = if 0 < width.toInt then width.toInt else 1 := by
  rw [padding_eq_replicate, List.length_append, List.length_replicate, List.length_singleton]
  split <;> omega

theorem ofInt_counted (width : BitVec 32) (z : Int) :
    BitVec.ofInt 32 (if 0 < width.toInt then width.toInt else z)
      = if (0#32).slt width then width else BitVec.ofInt 32 z := by
  rw [apply_ite (BitVec.ofInt 32), BitVec.ofInt_toInt]
  simp only [zero_slt_iff]

/-- What is counted for `%u`. -/
theorem uintText_counted (base : Nat) (width val : BitVec 32) (pad : Char) :
    ((uintText base width pad val).length : Int) + uintExtra base width val
      = if 0 < width.toInt then width.toInt else 1 := by
  rw [uintText, uintExtra]
  split
  · rw [Int.add_zero, length_padding]
  · omega

theorem vprintkUint_eq (s : PrintkState) (val base : BitVec 32)
    (hlo : 1 < base.toNat) (hhi : base.toNat ≤ 16) (width : BitVec 32) (pad : Char) :
    vprintkUint s val base width pad = some
      ⟨s.out ++ uintText base.toNat width pad val,
        s.count + BitVec.ofInt 32 ((uintText base.toNat width pad val).length
          + uintExtra base.toNat width val), s.ap⟩ := by
  rw [vprintkUint, printkWriteUint_eq base hlo hhi, uintText_counted, ofInt_counted]
  rfl

theorem vprintkPointer_eq (s : PrintkState) (val : BitVec 32) :
    vprintkPointer s val = some
      ⟨s.out ++ '0' :: 'x' :: uintText 16 8#32 '0' val,
        s.count + BitVec.ofInt 32 (('0' :: 'x' :: uintText 16 8#32 '0' val).length
          + uintExtra 16 8#32 val), s.ap⟩ := by
  have hcounted := uintText_counted 16 8#32 val '0'
  have hten : ((('0' :: 'x' :: uintText 16 8#32 '0' val).length : Nat) : Int)
      + uintExtra 16 8#32 val = 10 := by
    have height : (if 0 < (8#32).toInt then (8#32).toInt else 1) = 8 := by decide
    rw [List.length_cons, List.length_cons]
    omega
  have htext := printkWriteUint_eq 16#32 (by decide) (by decide) val 8#32 '0'
  rw [vprintkPointer, htext, hten, PrintkState.put]
  dsimp only [Option.map_some]
  rw [List.append_assoc, BitVec.add_assoc]
  rfl

/-- `%d` of what is not negative. -/
theorem vprintkInt_of_msb (s : PrintkState) {val : BitVec 32} (hval : val.msb = false)
    (width : BitVec 32) (pad : Char) :
    vprintkInt s val width pad = some
      ⟨s.out ++ uintText 10 width pad val,
        if width = 0#32 ∧ val = 0#32 then 1#32
        else s.count + BitVec.ofInt 32 ((uintText 10 width pad val).length + intExtra width val),
        s.ap⟩ := by
  have hmin : val ≠ intMin := fun h => by
    rw [h] at hval
    exact absurd hval (by decide)
  rw [vprintkInt, BitVec.slt_zero_eq_msb, hval]
  simp only [Bool.false_eq_true, if_false]
  rw [printkWriteInt_eq hval, Option.bind_some, uintText, intExtra]
  rcases eq_or_ne val 0#32 with rfl | hne
  · rcases eq_or_ne width 0#32 with rfl | hwidth
    · rfl
    · simp only [hwidth, if_true, if_false, false_and, Option.map_some, Int.add_zero]
      rw [length_padding, ofInt_counted]
      rfl
  · have hpos : val.toNat ≠ 0 := fun h => hne (BitVec.eq_of_toNat_eq h)
    simp only [hne, hmin, if_false, and_false]
    rcases eq_or_ne width 0#32 with rfl | hwidth
    · have hlt := val.isLt
      have hslt : (0#32).slt 0#32 = false := by decide
      have hdigits := countDigits_eq hval (k := 10) (by omega) s.count
      rw [lowDigits_of_ne hpos, List.length_reverse] at hdigits
      simp only [hslt, Bool.false_eq_true, if_false, if_true, BitVec.add_zero, hdigits,
        Option.map_some, Int.add_zero, BitVec.ofInt_natCast]
    · have hlen : ((Nat.toDigits 10 val.toNat).length : Int)
          + (max width.toInt 0 - (Nat.toDigits 10 val.toInt.natAbs).length)
            = if 0 < width.toInt then width.toInt else 0 := by
        rw [BitVec.toInt_eq_toNat_of_msb hval, Int.natAbs_natCast]
        split <;> omega
      rw [if_neg hwidth, if_neg hwidth, hlen, ofInt_counted]
      rfl

/-- `%d` of what is negative. -/
theorem vprintkInt_neg (s : PrintkState) {val : BitVec 32} (hval : val.msb = true)
    (hneg : (-val).msb = false) (width : BitVec 32) (pad : Char) :
    vprintkInt s val width pad = vprintkInt (s.put ['-']) (-val) width pad := by
  rw [vprintkInt, vprintkInt, BitVec.slt_zero_eq_msb, BitVec.slt_zero_eq_msb, hval, hneg]
  rfl

/-- `%d` of the least `int`. -/
theorem vprintkInt_intMin (s : PrintkState) (width : BitVec 32) (pad : Char) :
    vprintkInt s intMin width pad = some
      ⟨s.out ++ ['-', '-', '('], s.count + BitVec.ofInt 32 (3 + (max width.toInt 0 - 2)),
        s.ap⟩ := by
  have hlen : (3 : Int) + (max width.toInt 0 - 2)
      = 1 + if 0 < width.toInt then width.toInt else 0 := by
    split <;> omega
  have hout : s.out ++ ['-', '-', '('] = (s.put ['-']).out ++ ['-', '('] := by
    rw [PrintkState.put, List.append_assoc]
    rfl
  have hslt : intMin.slt 0#32 = true := by decide
  have hneg : -intMin = intMin := by decide
  rw [hlen, BitVec.ofInt_add, ofInt_counted, ← BitVec.add_assoc, hout, vprintkInt]
  simp only [hslt, if_true, hneg, printkWriteInt_intMin, Option.bind_some]
  -- there are no digits to count
  rcases eq_or_ne width 0#32 with rfl | hwidth
  · rfl
  · rw [if_neg hwidth]
    rfl

theorem intText_of_ne {val : BitVec 32} (hzero : val ≠ 0#32) (hmin : val ≠ intMin)
    (width : BitVec 32) (pad : Char) : intText width pad val = numeral 10 val.toInt := by
  rw [intText, if_neg hzero, if_neg hmin]

theorem intText_of_msb {val : BitVec 32} (hval : val.msb = false) (width : BitVec 32)
    (pad : Char) : intText width pad val = uintText 10 width pad val := by
  have hmin : val ≠ intMin := fun h => by
    rw [h] at hval
    exact absurd hval (by decide)
  rw [intText, uintText, if_neg hmin, numeral_of_msb_false hval]

theorem ne_zero_of_msb {val : BitVec 32} (hval : val.msb = true) : val ≠ 0#32 := fun h => by
  rw [h] at hval
  exact absurd hval (by decide)

/-- What is negative is written like what it is the negation of, behind a sign. -/
theorem intText_neg {val : BitVec 32} (hval : val.msb = true) (hmin : val ≠ intMin)
    (width : BitVec 32) (pad : Char) :
    intText width pad val = '-' :: uintText 10 width pad (-val) := by
  have hneg : -val ≠ 0#32 := fun h => ne_zero_of_msb hval (BitVec.neg_eq_zero_iff.mp h)
  rw [intText_of_ne (ne_zero_of_msb hval) hmin, numeral_of_msb_true hval, uintText, if_neg hneg]

theorem intExtra_neg {val : BitVec 32} (hval : val.msb = true) (hmin : val ≠ intMin)
    (width : BitVec 32) : intExtra width (-val) = intExtra width val := by
  have hzero := ne_zero_of_msb hval
  have hnegzero : -val ≠ 0#32 := fun h => hzero (BitVec.neg_eq_zero_iff.mp h)
  have hnegmin : -val ≠ intMin := fun h => hmin (BitVec.neg_eq_intMin.mp h)
  have habs : (-val).toInt.natAbs = val.toInt.natAbs := by
    rw [BitVec.toInt_eq_toNat_of_msb (msb_neg hval hmin), toNat_neg_of_msb hval,
      Int.natAbs_natCast]
  rw [intExtra, intExtra, habs, if_neg hzero, if_neg hnegzero, if_neg hmin, if_neg hnegmin]

/-- **`%d`** prints and counts what it is said to. -/
theorem vprintkInt_eq (s : PrintkState) (val width : BitVec 32) (pad : Char) :
    vprintkInt s val width pad = some
      ⟨s.out ++ intText width pad val,
        if width = 0#32 ∧ val = 0#32 then 1#32
        else s.count + BitVec.ofInt 32 ((intText width pad val).length + intExtra width val),
        s.ap⟩ := by
  cases hval : val.msb with
  | false => rw [vprintkInt_of_msb s hval, intText_of_msb hval]
  | true =>
    have hzero : ¬ (width = 0#32 ∧ val = 0#32) := fun h => ne_zero_of_msb hval h.2
    rcases eq_or_ne val intMin with rfl | hmin
    · have hextra : intExtra width intMin = max width.toInt 0 - 2 := rfl
      rw [vprintkInt_intMin, hextra, if_neg hzero]
      rfl
    · have hneg := msb_neg hval hmin
      have hnegzero : ¬ (width = 0#32 ∧ -val = 0#32) := fun h =>
        hzero ⟨h.1, BitVec.neg_eq_zero_iff.mp h.2⟩
      have hlen : (((uintText 10 width pad (-val)).length + 1 : Nat) : Int) + intExtra width val
          = 1 + ((uintText 10 width pad (-val)).length + intExtra width val) := by omega
      rw [vprintkInt_neg s hval hneg, vprintkInt_of_msb _ hneg, intExtra_neg hval hmin,
        if_neg hnegzero, if_neg hzero, intText_neg hval hmin, List.length_cons, hlen,
        BitVec.ofInt_add 1, ← BitVec.add_assoc, PrintkState.put]
      dsimp only
      rw [List.append_assoc]
      rfl

/-! ## 5. Directives -/

theorem put_eq (s : PrintkState) (cs : List Char) :
    s.put cs = ⟨s.out ++ cs, s.count + BitVec.ofInt 32 (cs.length + 0), s.ap⟩ := by
  rw [Int.add_zero, BitVec.ofInt_natCast]
  rfl

theorem resets_d (width arg : BitVec 32) :
    resets width arg 'd' = true ↔ width = 0#32 ∧ arg = 0#32 := by
  rw [resets, Bool.and_eq_true, beq_iff_eq, beq_iff_eq]

/-- **A directive** prints its text, counts it with what it counts too much, and takes its
argument. -/
theorem vprintkConversion_eq (a : Args) (s : PrintkState) (width : BitVec 32) (pad c : Char) :
    vprintkConversion a s width pad c = some (printConv a s width pad c) := by
  unfold vprintkConversion
  split
  case h_1 => rw [put_eq]; rfl
  case h_2 =>
    rw [vprintkInt_eq, printConv]
    simp only [resets_d]
    rfl
  case h_3 =>
    have hi : ∀ arg, (resets width arg 'i' = true) = (width = 0#32 ∧ arg = 0#32) := fun arg =>
      propext (resets_d width arg)
    rw [vprintkInt_eq, printConv]
    simp only [hi]
    rfl
  case h_4 => exact vprintkUint_eq s.next _ 10#32 (by decide) (by decide) width pad
  case h_5 => exact vprintkUint_eq s.next _ 16#32 (by decide) (by decide) width pad
  case h_6 => exact vprintkUint_eq s.next _ 16#32 (by decide) (by decide) width pad
  case h_7 => rw [put_eq]; rfl
  case h_8 => rw [put_eq]; rfl
  case h_9 => exact vprintkPointer_eq s.next _
  case h_10 hpercent hd hi hu hx hX hs hch hp =>
    have htext : convText a s.ap width pad c = ['%', c] := by
      rw [convText]
      all_goals assumption
    have hextra : convExtra width ((a.arg s.ap).setWidth 32) c = 0 := by
      rw [convExtra]
      all_goals assumption
    have htakes : takesArg c = false := by
      rw [takesArg]
      all_goals assumption
    have hresets : resets width ((a.arg s.ap).setWidth 32) c = false := by
      rw [resets]
      all_goals assumption
    rw [put_eq, printConv, htext, hextra, htakes, hresets]
    rfl

/-- A directive: digits, and a character that is none. -/
structure PrintkDirective where
  digits : List Char
  conv : Char
  isDigit : ∀ c ∈ digits, c.isDigit = true
  conv_isDigit : conv.isDigit = false

namespace PrintkDirective

/-- What is behind the `%`. -/
def text (d : PrintkDirective) : List Char := d.digits ++ [d.conv]

/-- `pad`. -/
def pad (d : PrintkDirective) : Char := if d.digits.head? = some '0' then '0' else ' '

/-- `width`. -/
def width (d : PrintkDirective) : BitVec 32 := BitVec.ofNat 32 (Nat.ofDigitChars 10 d.digits 0)

/-- What it does. -/
def print (a : Args) (s : PrintkState) (d : PrintkDirective) : PrintkState :=
  printConv a s d.width d.pad d.conv

end PrintkDirective

/-- Reading the width stops before what is no digit. -/
theorem readDigits_width {ds p : List Char} (hds : ∀ c ∈ ds, c.isDigit = true)
    (hp : ∀ c, p.head? = some c → c.isDigit = false) :
    readDigits 0#32 (ds ++ p) = (BitVec.ofNat 32 (Nat.ofDigitChars 10 ds 0), p) :=
  readDigits_eq hds hp 0

/-- A 0 in front of the width is not needed for its value. -/
theorem vprintkDirective_digits (a : Args) (s : PrintkState) {ds p : List Char}
    (hds : ∀ c ∈ ds, c.isDigit = true) (hp : ∀ c, p.head? = some c → c.isDigit = false)
    (hne : ds ++ p ≠ []) :
    vprintkDirective a s (ds ++ p)
      = vprintkSwitch a s (BitVec.ofNat 32 (Nat.ofDigitChars 10 ds 0))
          (if ds.head? = some '0' then '0' else ' ') p := by
  have hread := readDigits_width hds hp
  cases ds with
  | nil =>
    cases p with
    | nil => exact absurd rfl hne
    | cons c p =>
      have hc : c ≠ '0' := fun h => by
        have hdigit := hp c rfl
        rw [h] at hdigit
        exact absurd hdigit (by decide)
      rw [List.nil_append] at hread ⊢
      rw [vprintkDirective, if_neg hc, if_neg hc, hread]
      rfl
  | cons d ds =>
    rw [List.cons_append, vprintkDirective]
    rcases eq_or_ne d '0' with rfl | hd
    · have hrest := readDigits_width (fun c hc => hds c (List.mem_cons_of_mem _ hc)) hp
      rw [if_pos rfl, if_pos rfl, hrest, Nat.ofDigitChars_cons]
      rfl
    · have hhead : (d :: ds).head? ≠ some '0' := fun h => hd (Option.some.inj h)
      rw [if_neg hd, if_neg hd, if_neg hhead, ← List.cons_append, hread]

/-- `vprintk` reads its directives. -/
theorem vprintk_reads (a : Args) :
    Reads (vprintkDirective a) PrintkDirective.text (PrintkDirective.print a) true where
  stop _ _ := rfl
  at_end h := absurd h.symm Bool.false_ne_true
  reads s d p := by
    have hp : ∀ c, (d.conv :: p).head? = some c → c.isDigit = false := fun c hc => by
      rw [← Option.some.inj hc]
      exact d.conv_isDigit
    refine ⟨d.conv, ?_⟩
    rw [PrintkDirective.text, List.append_assoc, List.singleton_append,
      vprintkDirective_digits a s d.isDigit hp (by simp), vprintkSwitch, vprintkConversion_eq]
    rfl
  cuts s p hp := by
    have hsplit : p.takeWhile Char.isDigit ++ p.dropWhile Char.isDigit = p :=
      List.takeWhile_append_dropWhile
    have hdigits : ∀ c ∈ p.takeWhile Char.isDigit, c.isDigit = true :=
      List.all_eq_true.mp List.all_takeWhile
    cases hrest : p.dropWhile Char.isDigit with
    | nil =>
      rw [hrest, List.append_nil] at hsplit
      rw [hsplit] at hdigits
      have hover := vprintkDirective_digits a s (p := []) hdigits (fun c hc => by cases hc)
        (by rwa [List.append_nil])
      rw [List.append_nil, vprintkSwitch, vprintkConversion_eq] at hover
      exact .inr ⟨_, hover⟩
    | cons c rest =>
      have hc : c.isDigit = false := by
        have hhead := List.head?_dropWhile_not Char.isDigit p
        rw [hrest] at hhead
        exact hhead
      rw [hrest] at hsplit
      exact .inl ⟨⟨_, c, hdigits, hc⟩, rest, by
        rw [PrintkDirective.text, List.append_assoc]
        exact hsplit.symm⟩

end Lithium
