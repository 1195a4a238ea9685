/-
# Numerals

Writing and reading of numbers by C code: digit loops that store the low digit first and are read
backwards, and loops that read the high digit first.  The numeral of a natural number is
`Nat.toDigits`, that of an integer has a minus sign in front (`numeral`).

A digit loop (`DigitLoop`) is over any type.  That its type is a machine type, and its operations
those of the machine, is said once for each by a map to the natural numbers (`Follows`); then the
loop stores the digits, and a buffer that is long enough is never left (`fill_eq`, `doFill_eq`).
Signed loops are right for what is not negative, and negation gives that for all values but the
least one (`msb_neg`).
-/
import Mathlib.Data.BitVec
import Mathlib.Data.List.GetD
import Mathlib.Data.List.Induction
import Mathlib.Tactic.Common

namespace Lithium.Numeral

/-! ## 1. Numerals -/

/-- The numeral of `z` in base `b`, with a minus sign if it is negative. -/
def numeral (b : Nat) (z : Int) : List Char :=
  if z < 0 then '-' :: Nat.toDigits b z.natAbs else Nat.toDigits b z.natAbs

/-- A minus sign, or nothing. -/
def sign (neg : Bool) : List Char := if neg then ['-'] else []

/-- The digits of `n`, the low one first; none for 0. -/
def lowDigits (b n : Nat) : List Char := if n = 0 then [] else (Nat.toDigits b n).reverse

variable {b n : Nat}

theorem numeral_natCast (b n : Nat) : numeral b (n : Int) = Nat.toDigits b n :=
  if_neg (Int.not_lt.mpr (Int.natCast_nonneg n))

theorem numeral_of_neg {z : Int} (hz : z < 0) : numeral b z = '-' :: Nat.toDigits b z.natAbs :=
  if_pos hz

theorem mem_numeral {z : Int} {c : Char} (hc : c ∈ numeral 10 z) : c = '-' ∨ c.isDigit = true := by
  have hdigits : ∀ n, c ∈ Nat.toDigits 10 n → c.isDigit = true := fun n h =>
    Nat.isDigit_of_mem_toDigits (by decide) (by decide) h
  rw [numeral] at hc
  split at hc
  · rcases List.mem_cons.mp hc with rfl | h
    · exact .inl rfl
    · exact .inr (hdigits _ h)
  · exact .inr (hdigits _ hc)

theorem lowDigits_of_pos (hb : 1 < b) (hn : 0 < n) :
    lowDigits b n = (n % b).digitChar :: lowDigits b (n / b) := by
  rw [lowDigits, if_neg (Nat.pos_iff_ne_zero.mp hn), lowDigits, Nat.toDigits_eq_if hb]
  split
  next h => rw [Nat.div_eq_of_lt h, if_pos rfl, Nat.mod_eq_of_lt h, List.reverse_singleton]
  next h =>
    have hdiv : n / b ≠ 0 := (Nat.div_pos (Nat.le_of_not_lt h) (by omega)).ne'
    rw [if_neg hdiv, List.reverse_append, List.reverse_singleton, List.singleton_append]

theorem lowDigits_of_ne (hn : n ≠ 0) : lowDigits b n = (Nat.toDigits b n).reverse :=
  if_neg hn

/-- `do` loops write 0 as one digit. -/
theorem reverse_toDigits (hb : 1 < b) (n : Nat) :
    (Nat.toDigits b n).reverse = (n % b).digitChar :: lowDigits b (n / b) := by
  rcases Nat.eq_zero_or_pos n with rfl | hn
  · rw [Nat.toDigits_zero, Nat.zero_mod, Nat.zero_div]
    rfl
  · rw [← lowDigits_of_pos hb hn, lowDigits, if_neg (Nat.pos_iff_ne_zero.mp hn)]

/-! ## 2. Digit loops -/

variable {σ : Type*}

/-- A loop over the digits of a number: what it stores, how the number changes, and when it goes
on. -/
structure DigitLoop (σ : Type*) where
  digit : σ → Char
  next : σ → σ
  more : σ → Bool

/-- `while (more) { buffer[i++] = digit; next; }`: what is in the buffer, or `none` if there is a
store outside of it.  The argument is the room that is left. -/
def fill (L : DigitLoop σ) : Nat → σ → Option (List Char)
  | 0, s => if L.more s then none else some []
  | room + 1, s =>
    if L.more s then (fill L room (L.next s)).map (L.digit s :: ·) else some []

/-- `do { buffer[i++] = digit; next; } while (more)`. -/
def doFill (L : DigitLoop σ) : Nat → σ → Option (List Char)
  | 0, _ => none
  | room + 1, s => (fill L room (L.next s)).map (L.digit s :: ·)

/-- `buffer[i++] = c`. -/
def store (size : Nat) (buf : List Char) (c : Char) : Option (List Char) :=
  if buf.length < size then some (buf ++ [c]) else none

/-- `while (i > 0) putchar(buffer[--i])`. -/
def unwind (buf : List Char) : Nat → List Char
  | 0 => []
  | i + 1 => buf.getD i '\x00' :: unwind buf i

/-- The loop computes like numbers in base `b`. -/
structure Follows (L : DigitLoop σ) (b : Nat) (val : σ → Nat) (ok : σ → Prop) : Prop where
  digit : ∀ s, ok s → L.digit s = (val s % b).digitChar
  next : ∀ s, ok s → ok (L.next s) ∧ val (L.next s) = val s / b
  more : ∀ s, ok s → (L.more s = true ↔ 0 < val s)

variable {L : DigitLoop σ} {val : σ → Nat} {ok : σ → Prop} {s : σ} {room : Nat}

theorem Follows.stops (h : Follows L b val ok) (hs : ok s) (hzero : val s = 0) :
    ¬ L.more s = true := fun hmore => by
  have hpos := (h.more s hs).mp hmore
  omega

theorem Follows.next_lt (h : Follows L b val ok) (hb : 1 < b) (hs : ok s)
    (hroom : val s < b ^ (room + 1)) : val (L.next s) < b ^ room := by
  rw [(h.next s hs).2, Nat.div_lt_iff_lt_mul (by omega), ← Nat.pow_succ]
  exact hroom

/-- **A `while` loop** stores the digits, and none for 0. -/
theorem fill_eq (h : Follows L b val ok) (hb : 1 < b) (hs : ok s) (hroom : val s < b ^ room) :
    fill L room s = some (lowDigits b (val s)) := by
  induction room generalizing s with
  | zero =>
    have hzero : val s = 0 := Nat.lt_one_iff.mp hroom
    rw [fill, if_neg (h.stops hs hzero), lowDigits, if_pos hzero]
  | succ room ih =>
    rw [fill]
    rcases Nat.eq_zero_or_pos (val s) with hzero | hpos
    · rw [if_neg (h.stops hs hzero), lowDigits, if_pos hzero]
    · obtain ⟨hnext, hval⟩ := h.next s hs
      rw [if_pos ((h.more s hs).mpr hpos), ih hnext (h.next_lt hb hs hroom), hval,
        Option.map_some, h.digit s hs, lowDigits_of_pos hb hpos]

/-- **A `do` loop** stores the numeral backwards. -/
theorem doFill_eq (h : Follows L b val ok) (hb : 1 < b) (hs : ok s) (hpos : 0 < room)
    (hroom : val s < b ^ room) : doFill L room s = some (Nat.toDigits b (val s)).reverse := by
  obtain ⟨room, rfl⟩ := Nat.exists_eq_add_one_of_ne_zero hpos.ne'
  obtain ⟨hnext, hval⟩ := h.next s hs
  rw [doFill, fill_eq h hb hnext (h.next_lt hb hs hroom), hval, Option.map_some, h.digit s hs,
    reverse_toDigits hb]

theorem store_of_lt {size : Nat} {buf : List Char} (h : buf.length < size) (c : Char) :
    store size buf c = some (buf ++ [c]) := if_pos h

/-- What was stored is read backwards. -/
theorem unwind_eq {buf : List Char} {i : Nat} (h : i ≤ buf.length) :
    unwind buf i = (buf.take i).reverse := by
  induction i with
  | zero => rfl
  | succ i ih =>
    rw [unwind, ih (Nat.le_of_succ_le h), List.take_succ_eq_append_getElem h, List.reverse_append,
      List.reverse_singleton, List.singleton_append, List.getD_eq_getElem _ _ h]

theorem unwind_length (buf : List Char) : unwind buf buf.length = buf.reverse := by
  rw [unwind_eq (Nat.le_refl _), List.take_length]

/-- What was stored last comes first. -/
theorem unwind_store {size : Nat} {ds : List Char} (hlen : ds.length < size) (neg : Bool) :
    ((if neg then store size ds.reverse '-' else some ds.reverse).map fun buffer =>
      unwind buffer buffer.length) = some (if neg then '-' :: ds else ds) := by
  cases neg with
  | false => exact congrArg some ((unwind_length _).trans (List.reverse_reverse ds))
  | true =>
    have hrev : ds.reverse.length < size := by rwa [List.length_reverse]
    rw [if_pos rfl, store_of_lt hrev, Option.map_some, unwind_length, List.reverse_append,
      List.reverse_reverse]
    rfl

theorem length_toDigits_lt {v k size : Nat} (hb : 1 < b) (hk : 0 < k) (hv : v < b ^ k)
    (hsize : k < size) : (Nat.toDigits b v).length < size :=
  Nat.lt_of_le_of_lt ((Nat.length_toDigits_le_iff hb hk).mpr hv) hsize

/-! ## 3. Machine integers -/

variable {w : Nat}

/-- A number as a character. -/
def charOf (v : BitVec w) : Char := Char.ofNat (v.toNat % 256)

/-- `d < 10 ? '0' + d : 'a' + d - 10`. -/
def digitOf (d : BitVec 32) : Char :=
  if d.slt 10#32 then charOf (48#32 + d) else charOf (97#32 + d - 10#32)

/-- The loop that divides a signed number by 10, while it is positive. -/
def signedLoop (w : Nat) : DigitLoop (BitVec w) where
  digit v := charOf (48#w + v.srem 10#w)
  next v := v.sdiv 10#w
  more v := (0#w).slt v

/-- The loop that divides an unsigned number by 10. -/
def unsignedLoop (w : Nat) : DigitLoop (BitVec w) where
  digit v := charOf (48#w + v % 10#w)
  next v := v / 10#w
  more v := decide (0#w < v)

/-- The loop that shifts an unsigned number by 4 bits. -/
def hexLoop (digit : BitVec w → Char) : DigitLoop (BitVec w) where
  digit := digit
  next v := v >>> 4
  more v := decide (0#w < v)

theorem digitOf_eq {k : Nat} (hk : k < 16) : digitOf (BitVec.ofNat 32 k) = k.digitChar := by
  have hdigits : ∀ k, k < 16 → digitOf (BitVec.ofNat 32 k) = k.digitChar := by decide
  exact hdigits k hk

theorem le_two_pow (hw : 8 ≤ w) : 256 ≤ 2 ^ w := by
  have hpow : 2 ^ 8 ≤ 2 ^ w := Nat.pow_le_pow_right Nat.two_pos hw
  exact hpow

theorem charOf_decimal (hw : 8 ≤ w) {v : BitVec w} (hv : v.toNat < 10) :
    charOf (48#w + v) = v.toNat.digitChar := by
  have hbig := le_two_pow hw
  have hsum : (48#w + v).toNat % 256 = v.toNat.digitChar.toNat := by
    have hfits : 48 + v.toNat < 2 ^ w := by omega
    rw [Nat.toNat_digitChar_of_lt_ten hv, BitVec.toNat_add, BitVec.toNat_ofNat,
      Nat.mod_eq_of_lt (a := 48) (by omega), Nat.mod_eq_of_lt hfits, Nat.mod_eq_of_lt (by omega)]
  rw [charOf, hsum, Char.ofNat_toNat]

theorem toNat_ten (hw : 8 ≤ w) : (10#w).toNat = 10 := by
  have hbig := le_two_pow hw
  rw [BitVec.toNat_ofNat, Nat.mod_eq_of_lt (by omega)]

theorem msb_ten (hw : 8 ≤ w) : (10#w).msb = false := by
  have hbig := le_two_pow hw
  rw [BitVec.msb_eq_false_iff_two_mul_lt, toNat_ten hw]
  omega

/-- For what is not negative, signed division is unsigned division. -/
theorem sdiv_of_msb {x y : BitVec w} (hx : x.msb = false) (hy : y.msb = false) :
    x.sdiv y = x / y := by
  rw [BitVec.sdiv_eq, hx, hy]
  rfl

theorem srem_of_msb {x y : BitVec w} (hx : x.msb = false) (hy : y.msb = false) :
    x.srem y = x % y := by
  rw [BitVec.srem_eq, hx, hy]

theorem msb_udiv_of_msb {x : BitVec w} (hx : x.msb = false) (y : BitVec w) :
    (x / y).msb = false := by
  have hle : (x / y).toNat ≤ x.toNat := by
    rw [BitVec.toNat_udiv]
    exact Nat.div_le_self _ _
  rw [BitVec.msb_eq_false_iff_two_mul_lt] at hx ⊢
  omega

theorem zero_slt_iff (x : BitVec w) : (0#w).slt x = true ↔ 0 < x.toInt := by
  rw [BitVec.slt_iff_toInt_lt, BitVec.toInt_zero]

theorem zero_slt_of_msb {x : BitVec w} (hx : x.msb = false) :
    (0#w).slt x = true ↔ 0 < x.toNat := by
  rw [zero_slt_iff, BitVec.toInt_eq_toNat_of_msb hx, Int.natCast_pos]

/-- A signed loop is right for what is not negative. -/
theorem signedLoop_follows (hw : 8 ≤ w) :
    Follows (signedLoop w) 10 BitVec.toNat (fun v => v.msb = false) where
  digit v hv := by
    have hrem : (v % 10#w).toNat = v.toNat % 10 := by rw [BitVec.toNat_umod, toNat_ten hw]
    have hlt : (v % 10#w).toNat < 10 := hrem ▸ Nat.mod_lt _ (by decide)
    dsimp only [signedLoop]
    rw [srem_of_msb hv (msb_ten hw), charOf_decimal hw hlt, hrem]
  next v hv := by
    dsimp only [signedLoop]
    rw [sdiv_of_msb hv (msb_ten hw), BitVec.toNat_udiv, toNat_ten hw]
    exact ⟨msb_udiv_of_msb hv _, rfl⟩
  more v hv := zero_slt_of_msb hv

theorem unsignedLoop_follows (hw : 8 ≤ w) :
    Follows (unsignedLoop w) 10 BitVec.toNat (fun _ => True) where
  digit v _ := by
    have hrem : (v % 10#w).toNat = v.toNat % 10 := by rw [BitVec.toNat_umod, toNat_ten hw]
    have hlt : (v % 10#w).toNat < 10 := hrem ▸ Nat.mod_lt _ (by decide)
    dsimp only [unsignedLoop]
    rw [charOf_decimal hw hlt, hrem]
  next v _ := by
    dsimp only [unsignedLoop]
    rw [BitVec.toNat_udiv, toNat_ten hw]
    exact ⟨trivial, rfl⟩
  more v _ := by
    dsimp only [unsignedLoop]
    rw [decide_eq_true_iff, BitVec.lt_def, BitVec.toNat_zero]

theorem hexLoop_follows {digit : BitVec w → Char}
    (h : ∀ v, digit v = (v.toNat % 16).digitChar) :
    Follows (hexLoop digit) 16 BitVec.toNat (fun _ => True) where
  digit v _ := h v
  next v _ := ⟨trivial, Nat.shiftRight_eq_div_pow v.toNat 4⟩
  more v _ := by
    dsimp only [hexLoop]
    rw [decide_eq_true_iff, BitVec.lt_def, BitVec.toNat_zero]

/-- The negation of a negative number is its absolute value, as an unsigned number. -/
theorem toNat_neg_of_msb {v : BitVec w} (hv : v.msb = true) : (-v).toNat = v.toInt.natAbs := by
  have hlt := v.isLt
  have hhalf := BitVec.msb_eq_true_iff_two_mul_ge.mp hv
  have hpos := Nat.two_pow_pos w
  rw [BitVec.toNat_neg, Nat.mod_eq_of_lt (by omega), BitVec.toInt_eq_toNat_cond,
    if_neg (by omega)]
  omega

/-- As a signed number too, except for the least one. -/
theorem msb_neg {v : BitVec w} (hv : v.msb = true) (hmin : v ≠ BitVec.intMin w) :
    (-v).msb = false := by
  have hlt := v.isLt
  have hhalf := BitVec.msb_eq_true_iff_two_mul_ge.mp hv
  have hw : 0 < w := by
    rcases Nat.eq_zero_or_pos w with rfl | hw
    · exact absurd (Subsingleton.elim _ _) hmin
    · exact hw
  have hpow : 2 ^ w = 2 * 2 ^ (w - 1) := by
    rw [← Nat.pow_succ', Nat.succ_eq_add_one, Nat.sub_add_cancel hw]
  have hne : v.toNat ≠ 2 ^ (w - 1) := fun h => hmin (BitVec.eq_of_toNat_eq (by
    rw [h, BitVec.toNat_intMin_of_pos hw]))
  rw [BitVec.msb_eq_false_iff_two_mul_lt, BitVec.toNat_neg, Nat.mod_eq_of_lt (by omega)]
  omega

/-- The absolute value is not negative, but for the least number. -/
theorem msb_abs {v : BitVec w} (hmin : v ≠ BitVec.intMin w) :
    (if v.msb then -v else v).msb = false := by
  cases h : v.msb with
  | false => exact h
  | true => exact msb_neg h hmin

theorem numeral_of_msb_false {v : BitVec w} (hv : v.msb = false) (b : Nat) :
    numeral b v.toInt = Nat.toDigits b v.toNat := by
  rw [BitVec.toInt_eq_toNat_of_msb hv, numeral_natCast]

theorem numeral_of_msb_true {v : BitVec w} (hv : v.msb = true) (b : Nat) :
    numeral b v.toInt = '-' :: Nat.toDigits b (-v).toNat := by
  rw [numeral_of_neg (BitVec.toInt_neg_of_msb_true hv), toNat_neg_of_msb hv]

/-- Signs and digits make up the numeral. -/
theorem numeral_eq_ite (v : BitVec w) (b : Nat) :
    (if v.msb then '-' :: Nat.toDigits b (-v).toNat else Nat.toDigits b v.toNat)
      = numeral b v.toInt := by
  cases h : v.msb with
  | false => exact (numeral_of_msb_false h b).symm
  | true => exact (numeral_of_msb_true h b).symm

/-- The least `int`. -/
abbrev intMin : BitVec 32 := BitVec.intMin 32

/-! ## 4. Reading -/

/-- `while (*p >= '0' && *p <= '9') v = v * 10 + (*p++ - '0')`: the number, and where `p` is. -/
def readDigits (v : BitVec w) : List Char → BitVec w × List Char
  | [] => (v, [])
  | c :: p =>
    if c.isDigit then readDigits (v * 10#w + BitVec.ofNat w (c.toNat - '0'.toNat)) p
    else (v, c :: p)

/-- **Reading** takes all digits, and gives their value. -/
theorem readDigits_eq {ds p : List Char} (hds : ∀ c ∈ ds, c.isDigit = true)
    (hp : ∀ c, p.head? = some c → c.isDigit = false) (n : Nat) :
    readDigits (BitVec.ofNat w n) (ds ++ p) = (BitVec.ofNat w (Nat.ofDigitChars 10 ds n), p) := by
  induction ds generalizing n with
  | nil =>
    rw [Nat.ofDigitChars_nil, List.nil_append]
    cases p with
    | nil => rfl
    | cons c p => rw [readDigits, hp c rfl, if_neg Bool.false_ne_true]
  | cons c ds ih =>
    have hval : BitVec.ofNat w n * 10#w + BitVec.ofNat w (c.toNat - '0'.toNat)
        = BitVec.ofNat w (10 * n + (c.toNat - '0'.toNat)) := by
      rw [BitVec.ofNat_add, BitVec.ofNat_mul, BitVec.mul_comm]
    rw [List.cons_append, readDigits, if_pos (hds c List.mem_cons_self), hval,
      ih fun c hc => hds c (List.mem_cons_of_mem _ hc), Nat.ofDigitChars_cons]

/-! ## 5. Canonical numerals -/

/-- At least one digit, and no zero in front of others. -/
def Canonical (ds : List Char) : Prop :=
  ds ≠ [] ∧ (∀ c ∈ ds, c.isDigit = true) ∧ (ds.head? = some '0' → ds = ['0'])

theorem digitChar_of_isDigit {c : Char} (hc : c.isDigit = true) :
    (c.toNat - '0'.toNat).digitChar = c ∧ c.toNat - '0'.toNat < 10 := by
  obtain ⟨hlo, hhi⟩ := Char.isDigit_iff_toNat.mp hc
  have hzero : '0'.toNat = 48 := rfl
  have hnine : '9'.toNat = 57 := rfl
  have hlt : c.toNat - '0'.toNat < 10 := by omega
  refine ⟨Char.toNat_inj.mp ?_, hlt⟩
  rw [Nat.toNat_digitChar_of_lt_ten hlt]
  omega

/-- The numeral of a number is canonical. -/
theorem canonical_toDigits (n : Nat) : Canonical (Nat.toDigits 10 n) := by
  refine ⟨Nat.toDigits_ne_nil, fun c hc => Nat.isDigit_of_mem_toDigits (by decide) (by decide) hc,
    ?_⟩
  induction n using Nat.base_induction 10 (by decide) with
  | single m hm =>
    intro hhead
    rw [Nat.toDigits_of_lt_base hm] at hhead ⊢
    exact congrArg (fun c => [c]) (Option.some.inj hhead)
  | digit m k hk hm ih =>
    intro hhead
    rw [← Nat.toDigits_append_toDigits (by decide) hm hk,
      List.head?_append_of_ne_nil _ Nat.toDigits_ne_nil] at hhead
    -- what is before the last digit is not 0
    have hzero := congrArg (fun ds => Nat.ofDigitChars 10 ds 0) (ih hhead)
    rw [Nat.ofDigitChars_ten_toDigits] at hzero
    exact absurd hzero hm.ne'

/-- **A canonical numeral is the numeral of its value.** -/
theorem toDigits_of_canonical {ds : List Char} (h : Canonical ds) :
    Nat.toDigits 10 (Nat.ofDigitChars 10 ds 0) = ds := by
  obtain ⟨hne, hdigits, hlead⟩ := h
  induction ds using List.reverseRecOn with
  | nil => exact absurd rfl hne
  | append_singleton ds c ih =>
    obtain ⟨hc, hlt⟩ := digitChar_of_isDigit (hdigits c List.mem_concat_self)
    rw [Nat.ofDigitChars_append, Nat.ofDigitChars_cons, Nat.ofDigitChars_nil]
    rcases eq_or_ne ds [] with rfl | hds
    · rw [Nat.ofDigitChars_nil, Nat.mul_zero, Nat.zero_add, Nat.toDigits_of_lt_base hlt, hc]
      rfl
    · -- the first digit is not 0
      have hhead : ds.head? ≠ some '0' := fun hzero => by
        have hall := hlead (by rw [List.head?_append_of_ne_nil _ hds, hzero])
        have hlen := congrArg List.length hall
        rw [List.length_append, List.length_singleton, List.length_singleton] at hlen
        exact hds (List.length_eq_zero_iff.mp (by omega))
      have hrest := ih hds (fun d hd => hdigits d (List.mem_append_left _ hd))
        fun hzero => absurd hzero hhead
      have hpos : 0 < Nat.ofDigitChars 10 ds 0 := by
        refine Nat.pos_of_ne_zero fun hzero => hhead ?_
        rw [hzero, Nat.toDigits_zero] at hrest
        rw [← hrest]
        rfl
      rw [← Nat.toDigits_append_toDigits (by decide) hpos hlt, hrest,
        Nat.toDigits_of_lt_base hlt, hc]

end Lithium.Numeral
