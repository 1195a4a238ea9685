/-
# Windows of a sequence

A reader takes a sequence in windows: entry `w` of a list stands for the `len w` positions from
`off w` on.  `Consecutive start ws` says that each window starts where the one before it ends.  Such
windows are disjoint, and show the positions from `start` on in their order, each of them once.
-/
import Mathlib.Algebra.GroupWithZero.Nat
import Mathlib.Data.List.Basic

namespace Lithium.Windows

variable {α : Type*} {off len : α → Nat} {start : Nat} {w : α} {ws vs : List α}

/-- The positions of a window. -/
def positions (off len : α → Nat) (w : α) : List Nat := List.range' (off w) (len w)

/-- How many positions the windows have. -/
def total (len : α → Nat) (ws : List α) : Nat := (ws.map len).sum

/-- Each window starts where the one before it ends, and the first one at `start`. -/
def Consecutive (off len : α → Nat) : Nat → List α → Prop
  | _, [] => True
  | start, w :: ws => off w = start ∧ Consecutive off len (start + len w) ws

@[simp] theorem total_nil : total len ([] : List α) = 0 := rfl

theorem total_cons : total len (w :: ws) = len w + total len ws := by
  rw [total, total, List.map_cons, List.sum_cons]

theorem total_append : total len (ws ++ vs) = total len ws + total len vs := by
  rw [total, total, total, List.map_append, List.sum_append_nat]

theorem total_concat : total len (ws ++ [w]) = total len ws + len w := by
  rw [total_append, total_cons, total_nil, Nat.add_zero]

/-- Windows, and more of them from where they end. -/
theorem consecutive_append : ∀ {ws : List α} {start : Nat},
    Consecutive off len start (ws ++ vs) ↔
      Consecutive off len start ws ∧ Consecutive off len (start + total len ws) vs
  | [], _ => (and_iff_right trivial).symm
  | w :: ws, start => by
    rw [List.cons_append, Consecutive, Consecutive, consecutive_append, total_cons, and_assoc,
      Nat.add_assoc]

/-- **One window more.** -/
theorem Consecutive.concat (h : Consecutive off len start ws)
    (hw : off w = start + total len ws) : Consecutive off len start (ws ++ [w]) :=
  consecutive_append.mpr ⟨h, hw, trivial⟩

/-- Where a window starts. -/
theorem Consecutive.off_eq (h : Consecutive off len start (ws ++ w :: vs)) :
    off w = start + total len ws :=
  (consecutive_append.mp h).2.1

/-- No window starts before the first one. -/
theorem Consecutive.start_le (h : Consecutive off len start ws) (hw : w ∈ ws) : start ≤ off w := by
  obtain ⟨us, vs, rfl⟩ := List.append_of_mem hw
  have hoff := h.off_eq
  omega

/-- **The windows are disjoint**: each one ends before the later ones start. -/
theorem Consecutive.pairwise (h : Consecutive off len start ws) :
    ws.Pairwise fun v w => off v + len v ≤ off w := by
  induction ws generalizing start with
  | nil => exact List.Pairwise.nil
  | cons v ws ih =>
    obtain ⟨hoff, hrest⟩ := h
    refine List.pairwise_cons.mpr ⟨fun w hw => ?_, ih hrest⟩
    have hle := hrest.start_le hw
    omega

/-- **The windows show every position once, in order.** -/
theorem Consecutive.flatMap_positions (h : Consecutive off len start ws) :
    ws.flatMap (positions off len) = List.range' start (total len ws) := by
  induction ws generalizing start with
  | nil => rfl
  | cons w ws ih =>
    obtain ⟨hoff, hrest⟩ := h
    rw [List.flatMap_cons, ih hrest, positions, hoff, total_cons, List.range'_append_1]

end Lithium.Windows
