/-
# Scanners for formats

A formatter goes through a C string: it copies what is not `%`, and a `%` begins a directive.  A
pointer into the string is the list of the characters from it on, with the terminator behind the
last one; what moves on from the terminator has overrun the string.

A format is whole (`Whole`) if it is plain characters and complete directives one after the other.
A formatter that reads complete directives (`Reads`) comes to the end of whole formats and of no
others (`scan_ok_iff`), and what it does on them is what it does on their pieces, in order
(`scan_written`).
-/
import Mathlib.Data.List.Basic
import Mathlib.Tactic.Common

namespace Lithium.Scan

/-! ## 1. The loop -/

/-- What a formatter can do wrong. -/
inductive Fault where
  /-- It reads the format behind its terminator. -/
  | overrun
  /-- A directive leaves a local buffer, or does not come to its end. -/
  | directive
  /-- It goes on for longer than the format. -/
  | running
  deriving DecidableEq

/-- How a directive ends. -/
inductive Ended (σ : Type*) where
  /-- With the pointer at its last character, or at the terminator. -/
  | more (s : σ) (p : List Char)
  /-- With the end of the loop. -/
  | stop (s : σ)

/-- `*p`. -/
def peek (p : List Char) : Char := p.headD '\x00'

@[simp] theorem peek_cons (c : Char) (p : List Char) : peek (c :: p) = c := rfl

variable {σ δ : Type*}

/-- `while (*p) { if (*p != '%') { plain; p++; continue; } p++; directive; p++; }`, for that many
rounds. -/
def scan (plain : σ → Char → σ) (directive : σ → List Char → Except Fault (Ended σ)) :
    Nat → List Char → σ → Except Fault σ
  | _, [], s => .ok s
  | 0, _ :: _, _ => .error .running
  | k + 1, c :: p, s =>
    if c = '%' then
      match directive s p with
      | .error e => .error e
      | .ok (.stop s) => .ok s
      | .ok (.more _ []) => .error .overrun
      | .ok (.more s (_ :: p)) => scan plain directive k p s
    else scan plain directive k p (plain s c)

/-- The arguments of a call, and the strings that pointers point to. -/
structure Args where
  arg : Nat → BitVec 64
  str : BitVec 64 → List Char

/-- What has been printed, and how many arguments have been taken. -/
structure Printed where
  out : List Char
  ap : Nat
  deriving DecidableEq

/-- Nothing yet. -/
def Printed.start : Printed := ⟨[], 0⟩

/-- Characters that take no argument. -/
def Printed.put (s : Printed) (cs : List Char) : Printed := { s with out := s.out ++ cs }

/-- Characters for an argument. -/
def Printed.show (s : Printed) (cs : List Char) : Printed := ⟨s.out ++ cs, s.ap + 1⟩

/-! ## 2. Whole formats -/

/-- A plain character or a directive. -/
inductive Piece (δ : Type*) where
  | plain (c : Char) (hc : c ≠ '%')
  | directive (d : δ)

/-- A piece as it is written. -/
def Piece.text (text : δ → List Char) : Piece δ → List Char
  | .plain c _ => [c]
  | .directive d => '%' :: text d

/-- Pieces one after the other. -/
def written (text : δ → List Char) (ts : List (Piece δ)) : List Char := ts.flatMap (Piece.text text)

/-- The format `p` has the pieces `ts`; if `stops`, there may be a `%` behind them. -/
def Written (text : δ → List Char) (stops : Bool) (p : List Char) (ts : List (Piece δ)) : Prop :=
  p = written text ts ∨ (stops = true ∧ p = written text ts ++ ['%'])

/-- The format ends in no directive. -/
def Whole (text : δ → List Char) (stops : Bool) (p : List Char) : Prop :=
  ∃ ts : List (Piece δ), Written text stops p ts

/-- The formatter reads the directives `δ`; with anything else it comes to the terminator. -/
structure Reads (directive : σ → List Char → Except Fault (Ended σ)) (text : δ → List Char)
    (act : σ → δ → σ) (stops : Bool) : Prop where
  stop : stops = true → ∀ s, directive s [] = .ok (.stop s)
  at_end : stops = false → ∀ s, ∃ s', directive s [] = .ok (.more s' [])
  reads : ∀ s d p, ∃ c, directive s (text d ++ p) = .ok (.more (act s d) (c :: p))
  cuts : ∀ s p, p ≠ [] →
    (∃ d rest, p = text d ++ rest) ∨ ∃ s', directive s p = .ok (.more s' [])

/-- What a piece does. -/
def act1 (plain : σ → Char → σ) (act : σ → δ → σ) (s : σ) : Piece δ → σ
  | .plain c _ => plain s c
  | .directive d => act s d

variable {plain : σ → Char → σ} {directive : σ → List Char → Except Fault (Ended σ)}
  {text : δ → List Char} {act : σ → δ → σ} {stops : Bool} {k : Nat} {p : List Char}
  {ts : List (Piece δ)}

theorem written_cons (t : Piece δ) (ts : List (Piece δ)) :
    written text (t :: ts) = t.text text ++ written text ts := List.flatMap_cons

theorem Written.cons (t : Piece δ) (h : Written text stops p ts) :
    Written text stops (t.text text ++ p) (t :: ts) := by
  rcases h with rfl | ⟨hstops, rfl⟩
  · exact .inl (written_cons t ts).symm
  · exact .inr ⟨hstops, by rw [written_cons, List.append_assoc]⟩

/-! ## 3. Scanning -/

theorem scan_plain {c : Char} (hc : c ≠ '%') (k : Nat) (p : List Char) (s : σ) :
    scan plain directive (k + 1) (c :: p) s = scan plain directive k p (plain s c) := by
  rw [scan, if_neg hc]

theorem scan_directive (h : Reads directive text act stops) (d : δ) (k : Nat) (p : List Char)
    (s : σ) : scan plain directive (k + 1) ('%' :: (text d ++ p)) s
      = scan plain directive k p (act s d) := by
  obtain ⟨c, hc⟩ := h.reads s d p
  rw [scan, if_pos rfl, hc]

/-- A piece takes one round. -/
theorem scan_piece (h : Reads directive text act stops) (t : Piece δ) (k : Nat) (p : List Char)
    (s : σ) : scan plain directive (k + 1) (t.text text ++ p) s
      = scan plain directive k p (act1 plain act s t) := by
  cases t with
  | plain c hc => exact scan_plain hc k p s
  | directive d => exact scan_directive h d k p s

theorem length_text_pos (text : δ → List Char) (t : Piece δ) : 0 < (t.text text).length := by
  cases t with
  | plain c hc => exact Nat.one_pos
  | directive d => exact Nat.succ_pos _

theorem scan_end (h : Reads directive text act stops) (hstops : stops = true) (k : Nat) (s : σ) :
    scan plain directive (k + 1) ['%'] s = .ok s := by
  rw [scan, if_pos rfl, h.stop hstops]

/-- The pointer moves on from the terminator. -/
theorem scan_overrun {s s' : σ} (h : directive s p = .ok (.more s' [])) (k : Nat) :
    scan plain directive (k + 1) ('%' :: p) s = .error .overrun := by
  rw [scan, if_pos rfl, h]

/-- **On a whole format** the formatter does what its pieces do. -/
theorem scan_written (h : Reads directive text act stops) (hp : Written text stops p ts)
    (hk : p.length ≤ k) (s : σ) :
    scan plain directive k p s = .ok (ts.foldl (act1 plain act) s) := by
  induction ts generalizing k p s with
  | nil =>
    rcases hp with rfl | ⟨hstops, rfl⟩
    · cases k <;> rfl
    · obtain ⟨k, rfl⟩ := Nat.exists_eq_add_one_of_ne_zero (Nat.ne_of_gt hk)
      exact scan_end h hstops k s
  | cons t ts ih =>
    obtain ⟨q, hq, hpq⟩ : ∃ q, Written text stops q ts ∧ p = t.text text ++ q := by
      rcases hp with rfl | ⟨hstops, rfl⟩
      · exact ⟨_, .inl rfl, written_cons t ts⟩
      · exact ⟨_, .inr ⟨hstops, rfl⟩, by rw [written_cons, List.append_assoc]⟩
    subst hpq
    have hpos := length_text_pos text t
    rw [List.length_append] at hk
    obtain ⟨k, rfl⟩ := Nat.exists_eq_add_one_of_ne_zero (n := k) (by omega)
    rw [scan_piece h, ih hq (by omega), List.foldl_cons]

/-- Any other format is overrun. -/
theorem whole_or_overrun (h : Reads directive text act stops) (hk : p.length ≤ k) (s : σ) :
    Whole text stops p ∨ scan plain directive k p s = .error .overrun := by
  induction k generalizing p s with
  | zero =>
    obtain rfl := List.length_eq_zero_iff.mp (Nat.le_zero.mp hk)
    exact .inl ⟨[], .inl rfl⟩
  | succ k ih =>
    -- what is behind a piece decides
    have hpiece : ∀ (t : Piece δ) (q : List Char), p = t.text text ++ q →
        Whole text stops p ∨ scan plain directive (k + 1) p s = .error .overrun := by
      rintro t q rfl
      have hpos := length_text_pos text t
      rw [List.length_append] at hk
      rw [scan_piece h]
      exact (ih (by omega) _).imp_left fun ⟨ts, hts⟩ => ⟨t :: ts, hts.cons t⟩
    cases p with
    | nil => exact .inl ⟨[], .inl rfl⟩
    | cons c p =>
      rcases ne_or_eq c '%' with hc | rfl
      · exact hpiece (.plain c hc) p rfl
      · rcases eq_or_ne p [] with rfl | hp
        · cases stops with
          | true => exact .inl ⟨[], .inr ⟨rfl, rfl⟩⟩
          | false =>
            obtain ⟨s', hs'⟩ := h.at_end rfl s
            exact .inr (scan_overrun hs' k)
        · rcases h.cuts s p hp with ⟨d, rest, rfl⟩ | ⟨s', hs'⟩
          · exact hpiece (.directive d) rest rfl
          · exact .inr (scan_overrun hs' k)

/-- **Whole formats are those that are not overrun.** -/
theorem scan_ok_iff (h : Reads directive text act stops) (hk : p.length ≤ k) (s : σ) :
    (∃ s', scan plain directive k p s = .ok s') ↔ Whole text stops p := by
  constructor
  · rintro ⟨s', hok⟩
    have hor : Whole text stops p ∨ scan plain directive k p s = .error .overrun :=
      whole_or_overrun h hk s
    refine hor.resolve_right fun herr => ?_
    rw [hok] at herr
    cases herr
  · rintro ⟨ts, hts⟩
    exact ⟨_, scan_written h hts hk s⟩

end Lithium.Scan
