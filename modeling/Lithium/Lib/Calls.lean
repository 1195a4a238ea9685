/-
# Calls that may not return

A call changes a state and returns, or ends for some reason.  What the first of two calls does says
where the second starts.

`Ends m w Q E` says what holds when the call `m`, made in the state `w`, is over: `Q` of its result
and the state it leaves when it returns, `E` of the reason and the state otherwise.  The rules take
a call apart (`bind`, `forM`), so that a loop is proved by what one pass keeps.
-/

namespace Lithium

variable {ε σ : Type} {α β : Type}

/-! ## 1. One call after another -/

/-- A call that returns hands its result on. -/
theorem bind_ok {m : EStateM ε σ α} {f : α → EStateM ε σ β} {w w' : σ} {a : α}
    (h : m.run w = .ok a w') : (m >>= f).run w = (f a).run w' := by
  rw [EStateM.run] at h
  change EStateM.bind m f w = f a w'
  rw [EStateM.bind, h]

/-- A call that does not return ends the whole. -/
theorem bind_error {m : EStateM ε σ α} {f : α → EStateM ε σ β} {w w' : σ} {e : ε}
    (h : m.run w = .error e w') : (m >>= f).run w = .error e w' := by
  rw [EStateM.run] at h
  change EStateM.bind m f w = _
  rw [EStateM.bind, h]

/-- What returns has returned from both calls. -/
theorem bind_eq_ok {m : EStateM ε σ α} {f : α → EStateM ε σ β} {w w' : σ} {b : β}
    (h : (m >>= f).run w = .ok b w') :
    ∃ a w₁, m.run w = .ok a w₁ ∧ (f a).run w₁ = .ok b w' := by
  cases hm : m.run w with
  | ok a w₁ => exact ⟨a, w₁, rfl, by rwa [bind_ok hm] at h⟩
  | error e w₁ => rw [bind_error hm] at h; exact absurd h (by simp)

/-! ## 2. What holds when a call is over -/

/-- The call returns, and then `Q` holds, or ends otherwise, and then `E` does. -/
def Ends (m : EStateM ε σ α) (w : σ) (Q : α → σ → Prop) (E : ε → σ → Prop) : Prop :=
  match m.run w with
  | .ok a w' => Q a w'
  | .error e w' => E e w'

namespace Ends

variable {m : EStateM ε σ α} {f : α → EStateM ε σ β} {w w' : σ} {a : α} {e : ε}
  {Q Q' : α → σ → Prop} {R : β → σ → Prop} {E E' : ε → σ → Prop}

theorem iff_of_ok (h : m.run w = .ok a w') : Ends m w Q E ↔ Q a w' := by
  rw [Ends, h]

theorem iff_of_error (h : m.run w = .error e w') : Ends m w Q E ↔ E e w' := by
  rw [Ends, h]

theorem of_ok (h : m.run w = .ok a w') (hQ : Q a w') : Ends m w Q E := (iff_of_ok h).mpr hQ

theorem of_error (h : m.run w = .error e w') (hE : E e w') : Ends m w Q E :=
  (iff_of_error h).mpr hE

/-- Two calls that come to the same. -/
theorem congr {m' : EStateM ε σ α} (h : m.run w = m'.run w') : Ends m w Q E ↔ Ends m' w' Q E := by
  rw [Ends, Ends, h]

theorem pure (h : Q a w) : Ends (pure a : EStateM ε σ α) w Q E := h

theorem mono (h : Ends m w Q E) (hQ : ∀ a w', Q a w' → Q' a w') (hE : ∀ e w', E e w' → E' e w') :
    Ends m w Q' E' := by
  unfold Ends at h ⊢
  split
  case h_1 a w' hm =>
    rw [hm] at h
    exact hQ a w' h
  case h_2 e w' hm =>
    rw [hm] at h
    exact hE e w' h

/-- A call that can only return does. -/
theorem returns (h : Ends m w Q fun _ _ => False) : ∃ a w', m.run w = .ok a w' ∧ Q a w' := by
  cases hm : m.run w with
  | ok a w' => exact ⟨a, w', rfl, (iff_of_ok hm).mp h⟩
  | error e w' => exact ((iff_of_error hm).mp h).elim

/-- Two things that hold when the call is over hold together. -/
theorem and (h : Ends m w Q E) (h' : Ends m w Q' E') :
    Ends m w (fun a w' => Q a w' ∧ Q' a w') fun e w' => E e w' ∧ E' e w' := by
  cases hm : m.run w with
  | ok a w' => exact of_ok hm ⟨(iff_of_ok hm).mp h, (iff_of_ok hm).mp h'⟩
  | error e w' => exact of_error hm ⟨(iff_of_error hm).mp h, (iff_of_error hm).mp h'⟩

/-- A call that was seen to return. -/
theorem of_run (h : Ends m w Q E) (hrun : m.run w = .ok a w') : Q a w' := (iff_of_ok hrun).mp h

/-- **Two calls**: where the first returns, the second goes on. -/
theorem bind (h : Ends m w Q E) (hf : ∀ a w', Q a w' → Ends (f a) w' R E) :
    Ends (m >>= f) w R E := by
  cases hm : m.run w with
  | ok a w' =>
    have hnext := hf a w' ((iff_of_ok hm).mp h)
    rwa [Ends, ← bind_ok hm] at hnext
  | error e w' => exact of_error (bind_error hm) ((iff_of_error hm).mp h)

/-- **A loop over a list**: what every pass keeps holds at the end. -/
theorem forM {γ : Type} {body : γ → EStateM ε σ PUnit} {I : List γ → σ → Prop}
    (hbody : ∀ x xs w, I (x :: xs) w → Ends (body x) w (fun _ w' => I xs w') E) :
    ∀ (xs : List γ) (w : σ), I xs w → Ends (forM xs body) w (fun _ w' => I [] w') E := by
  intro xs
  induction xs with
  | nil => exact fun w h => h
  | cons x xs ih =>
    intro w h
    rw [List.forM_cons]
    exact (hbody x xs w h).bind fun _ w' h' => ih w' h'

end Ends

end Lithium
