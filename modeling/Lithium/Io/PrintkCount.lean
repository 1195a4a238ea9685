/-
# What `vprintk` returns

`vprintk` counts next to what it prints.  Some directives count too much or too little
(`convExtra`): a width is counted although a number other than 0 is not padded, `%u` and `%x`
without a width count 1 for any number of digits, `%p` counts 8, and `%d` of 0 sets the count to 1.

The tally of a format adds these up.  The result is the number of characters printed exactly if they
cancel (`vprintk_counts_iff`).
-/
import Lithium.Io.Printk

namespace Lithium

open Numeral Scan

/-! ## 1. The tally of a format -/

/-- How many arguments are taken, how many characters are printed, and how many too many are
counted. -/
structure Tally where
  ap : Nat
  emitted : Nat
  excess : Int

namespace Tally

/-- Nothing yet. -/
def start : Tally := ⟨0, 0, 0⟩

/-- A directive without a width that prints the 0 of an `int` makes the count 1, whatever was
printed before. -/
def directive (a : Args) (t : Tally) (d : PrintkDirective) : Tally where
  ap := t.ap + if takesArg d.conv then 1 else 0
  emitted := t.emitted + (convText a t.ap d.width d.pad d.conv).length
  excess :=
    if resets d.width ((a.arg t.ap).setWidth 32) d.conv then -t.emitted
    else t.excess + convExtra d.width ((a.arg t.ap).setWidth 32) d.conv

/-- A plain character is counted. -/
def plain (t : Tally) (_ : Char) : Tally := { t with emitted := t.emitted + 1 }

/-- All pieces of a format. -/
def run (a : Args) (ts : List (Piece PrintkDirective)) : Tally :=
  ts.foldl (act1 plain (directive a)) start

/-- The state of `vprintk` agrees with the tally. -/
structure Agrees (s : PrintkState) (t : Tally) : Prop where
  ap : s.ap = t.ap
  emitted : s.out.length = t.emitted
  count : s.count = BitVec.ofInt 32 (t.emitted + t.excess)

variable {a : Args} {s : PrintkState} {t : Tally}

/-! ## 2. Runs -/

theorem Agrees.plain (h : Agrees s t) (c : Char) : Agrees (s.put [c]) (t.plain c) where
  ap := h.ap
  emitted := by
    rw [PrintkState.put, Tally.plain, List.length_append, h.emitted]
    rfl
  count := by
    have hsum : ((t.emitted + 1 : Nat) : Int) + t.excess = t.emitted + t.excess + 1 := by omega
    dsimp only [PrintkState.put, Tally.plain]
    rw [h.count, hsum, BitVec.ofInt_add _ 1]
    rfl

/-- A directive that resets the count prints one character. -/
theorem length_of_resets {width : BitVec 32} {pad c : Char} {ap : Nat}
    (h : resets width ((a.arg ap).setWidth 32) c = true) :
    (convText a ap width pad c).length = 1 := by
  have hzero : width = 0#32 ∧ (a.arg ap).setWidth 32 = 0#32 →
      (intText width pad ((a.arg ap).setWidth 32)).length = 1 := fun ⟨hwidth, harg⟩ => by
    rw [hwidth, harg]
    rfl
  unfold resets at h
  split at h
  case h_1 => exact hzero ((resets_d _ _).mp h)
  case h_2 => exact hzero ((resets_d _ _).mp h)
  case h_3 => exact absurd h Bool.false_ne_true

theorem Agrees.directive (h : Agrees s t) (d : PrintkDirective) :
    Agrees (d.print a s) (t.directive a d) where
  ap := congrArg (· + if takesArg d.conv then 1 else 0) h.ap
  emitted := by
    dsimp only [PrintkDirective.print, printConv, Tally.directive]
    rw [List.length_append, h.emitted, h.ap]
  count := by
    dsimp only [PrintkDirective.print, printConv, Tally.directive]
    rw [h.ap]
    split
    next hreset =>
      have hone : ((t.emitted + 1 : Nat) : Int) + -t.emitted = 1 := by omega
      rw [length_of_resets hreset, hone]
      rfl
    next =>
      rw [h.count, ← BitVec.ofInt_add]
      congr 1
      omega

/-- **Every piece** keeps the agreement. -/
theorem Agrees.piece (h : Agrees s t) (p : Piece PrintkDirective) :
    Agrees (act1 (fun s c => s.put [c]) (PrintkDirective.print a) s p)
      (act1 Tally.plain (Tally.directive a) t p) := by
  cases p with
  | plain c hc => exact h.plain c
  | directive d => exact h.directive d

theorem Agrees.pieces (h : Agrees s t) (ts : List (Piece PrintkDirective)) :
    Agrees (ts.foldl (act1 (fun s c => s.put [c]) (PrintkDirective.print a)) s)
      (ts.foldl (act1 Tally.plain (Tally.directive a)) t) := by
  induction ts generalizing s t with
  | nil => exact h
  | cons p ts ih => exact ih (h.piece p)

/-- The count is right. -/
def Balanced (t : Tally) : Prop := t.emitted < 2 ^ 31 ∧ (2 ^ 32 : Int) ∣ t.excess

theorem Agrees.count_iff (h : Agrees s t) : s.count.toInt = s.out.length ↔ t.Balanced := by
  rw [h.count, h.emitted, BitVec.toInt_ofInt, Int.bmod_def, Balanced]
  split <;> constructor <;> omega

end Tally

/-! ## 3. The result -/

/-- `vprintk` returns the number of characters it has printed. -/
def CountsRight (a : Args) (fmt : List Char) : Prop :=
  ∃ s, vprintk a fmt = .ok s ∧ s.count.toInt = s.out.length

/-- The format is whole, fewer than `2 ^ 31` characters are printed, and what its directives count
too much cancels. -/
def Cancels (a : Args) (fmt : List Char) : Prop :=
  ∃ ts, Written PrintkDirective.text true fmt ts ∧ (Tally.run a ts).Balanced

theorem vprintk_written (a : Args) {fmt : List Char} {ts : List (Piece PrintkDirective)}
    (h : Written PrintkDirective.text true fmt ts) :
    vprintk a fmt = .ok
      (ts.foldl (act1 (fun s c => s.put [c]) (PrintkDirective.print a)) ⟨[], 0#32, 0⟩) :=
  scan_written (vprintk_reads a) h (Nat.le_refl _) _

/-- **The result of `vprintk`** is the number of characters printed exactly if the miscounts
cancel. -/
theorem vprintk_counts_iff (a : Args) (fmt : List Char) : CountsRight a fmt ↔ Cancels a fmt := by
  have hstart : Tally.Agrees ⟨[], 0#32, 0⟩ Tally.start := ⟨rfl, rfl, rfl⟩
  constructor
  · rintro ⟨s, hs, hcount⟩
    obtain ⟨ts, hts⟩ := (scan_ok_iff (vprintk_reads a) (Nat.le_refl _) _).mp ⟨s, hs⟩
    rw [vprintk_written a hts] at hs
    obtain rfl := Except.ok.inj hs
    exact ⟨ts, hts, (hstart.pieces ts).count_iff.mp hcount⟩
  · rintro ⟨ts, hts, hbalanced⟩
    exact ⟨_, vprintk_written a hts, (hstart.pieces ts).count_iff.mpr hbalanced⟩

/-- 10 as the only argument. -/
def ten : Args where
  arg _ := 10#64
  str _ := []

/-- `%u` of 10 prints two characters and returns 1. -/
theorem vprintk_miscounts : ¬ CountsRight ten "%u".toList := by
  have hrun : vprintk ten "%u".toList = .ok ⟨['1', '0'], 1#32, 1⟩ := by decide
  rintro ⟨s, hs, hcount⟩
  rw [hrun] at hs
  obtain rfl := Except.ok.inj hs
  exact absurd hcount (by decide)

end Lithium
