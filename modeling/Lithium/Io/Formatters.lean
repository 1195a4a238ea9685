/-
# Reading formats

`printf`, `vprintk` and `u_printf` move on at the end of each directive, also where the directive
was cut off by the end of the format.  They come to an end exactly on whole formats, each with its
own directives (`formatters_end_iff`), and overrun all others (`formatters_overrun_iff`).

`vprintk` looks for the terminator behind a `%`, so that a `%` at the end does no harm there; behind
a width it does not.
-/
import Lithium.Io.Console
import Lithium.Io.Printk
import Lithium.User.Ulibc

namespace Lithium

open Scan

/-- The format is read up to its terminator, and the call returns. -/
def ReadToEnd {σ : Type} (r : Except Fault σ) : Prop := ∃ s, r = .ok s

/-- The formats that `printf` reads to their ends. -/
def ConsoleWhole (fmt : List Char) : Prop := Whole ConsoleDirective.text false fmt

/-- Those of `vprintk`. -/
def PrintkWhole (fmt : List Char) : Prop := Whole PrintkDirective.text true fmt

/-- Those of `u_printf`, whose directives are any characters. -/
def UserWhole (fmt : List Char) : Prop := Whole (fun c : Char => [c]) false fmt

variable (a : Args) (fmt : List Char)

theorem printf_ends_iff : ReadToEnd (printf a fmt) ↔ ConsoleWhole fmt :=
  scan_ok_iff (printf_reads a) (Nat.le_refl _) _

theorem vprintk_ends_iff : ReadToEnd (vprintk a fmt) ↔ PrintkWhole fmt :=
  scan_ok_iff (vprintk_reads a) (Nat.le_refl _) _

theorem uPrintf_ends_iff : ReadToEnd (uPrintf a fmt) ↔ UserWhole fmt :=
  scan_ok_iff (uPrintf_reads a) (Nat.le_refl _) _

/-- **Formats are read to their ends** exactly if they are whole: plain characters and complete
directives, one after the other.  `fmt` is the string up to its terminator: none of its characters
is NUL. -/
theorem formatters_end_iff :
    (ReadToEnd (printf a fmt) ↔ ConsoleWhole fmt) ∧ (ReadToEnd (vprintk a fmt) ↔ PrintkWhole fmt) ∧
      (ReadToEnd (uPrintf a fmt) ↔ UserWhole fmt) :=
  ⟨printf_ends_iff a fmt, vprintk_ends_iff a fmt, uPrintf_ends_iff a fmt⟩

/-- A `%` at the end. -/
theorem formatters_overrun :
    ¬ ReadToEnd (printf ⟨fun _ => 0#64, fun _ => []⟩ ['%']) ∧
    ¬ ReadToEnd (vprintk ⟨fun _ => 0#64, fun _ => []⟩ ['%', '0']) ∧
    ¬ ReadToEnd (uPrintf ⟨fun _ => 0#64, fun _ => []⟩ ['%']) := by
  refine ⟨?_, ?_, ?_⟩
  · rintro ⟨s, h⟩
    cases h
  · rintro ⟨s, h⟩
    cases h
  · rintro ⟨s, h⟩
    cases h

/-- What is not whole is overrun: nothing else goes wrong. -/
theorem formatters_overrun_iff :
    (printf a fmt = .error .overrun ↔ ¬ ConsoleWhole fmt) ∧
    (vprintk a fmt = .error .overrun ↔ ¬ PrintkWhole fmt) ∧
    (uPrintf a fmt = .error .overrun ↔ ¬ UserWhole fmt) := by
  have hoverrun : ∀ {σ : Type} {r : Except Fault σ} {W : Prop}, (ReadToEnd r ↔ W) →
      (W ∨ r = .error .overrun) → (r = .error .overrun ↔ ¬ W) := by
    intro σ r W hends hor
    refine ⟨fun hr hW => ?_, hor.resolve_left⟩
    obtain ⟨s, hs⟩ := hends.mpr hW
    rw [hr] at hs
    cases hs
  exact ⟨hoverrun (printf_ends_iff a fmt) (whole_or_overrun (printf_reads a) (Nat.le_refl _) _),
    hoverrun (vprintk_ends_iff a fmt) (whole_or_overrun (vprintk_reads a) (Nat.le_refl _) _),
    hoverrun (uPrintf_ends_iff a fmt) (whole_or_overrun (uPrintf_reads a) (Nat.le_refl _) _)⟩

end Lithium
