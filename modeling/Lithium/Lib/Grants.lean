/-
# Items granted and revoked

The history of a set of items that are granted to askers one at a time, and revoked, newest event
first.  As long as no item is granted that is granted already, two grants of one item have a
revocation between them.
-/
import Mathlib.Data.List.Basic

namespace Lithium.Grants

variable {κ ι : Type*}

/-- What happens to an item. -/
inductive Event (κ ι : Type*) where
  | grant (k : κ) (x : ι)
  | revoke (x : ι)

/-- The item has been granted, and not been revoked since. -/
def Granted : List (Event κ ι) → ι → Prop
  | [], _ => False
  | .grant _ y :: es, x => x = y ∨ Granted es x
  | .revoke y :: es, x => x ≠ y ∧ Granted es x

/-- Nothing was granted that was granted already. -/
def Exclusive : List (Event κ ι) → Prop
  | [] => True
  | .grant _ x :: es => ¬ Granted es x ∧ Exclusive es
  | .revoke _ :: es => Exclusive es

/-- `x` was granted to `k`, then revoked, then granted to `k'`. -/
def RevokedBetween (es : List (Event κ ι)) (k k' : κ) (x : ι) : Prop :=
  ∃ l₁ l₂ l₃, es = l₁ ++ .grant k' x :: (l₂ ++ .grant k x :: l₃) ∧ .revoke x ∈ l₂

theorem RevokedBetween.cons {es : List (Event κ ι)} {k k' : κ} {x : ι}
    (h : RevokedBetween es k k' x) (e : Event κ ι) : RevokedBetween (e :: es) k k' x := by
  obtain ⟨l₁, l₂, l₃, rfl, hmem⟩ := h
  exact ⟨e :: l₁, l₂, l₃, rfl, hmem⟩

/-- What was granted and is not granted any more has been revoked since. -/
theorem revoked_of_not_granted {k : κ} {x : ι} : ∀ {es : List (Event κ ι)},
    .grant k x ∈ es → ¬ Granted es x → ∃ l₂ l₃, es = l₂ ++ .grant k x :: l₃ ∧ .revoke x ∈ l₂
  | .grant k' y :: es, hk, hx => by
    rw [Granted, not_or] at hx
    obtain ⟨hne, hx⟩ := hx
    have hkes : .grant k x ∈ es :=
      (List.mem_cons.mp hk).resolve_left fun he => hne (Event.grant.inj he).2
    obtain ⟨l₂, l₃, rfl, hmem⟩ := revoked_of_not_granted hkes hx
    exact ⟨.grant k' y :: l₂, l₃, rfl, List.mem_cons_of_mem _ hmem⟩
  | .revoke y :: es, hk, hx => by
    have hkes : .grant k x ∈ es := (List.mem_cons.mp hk).resolve_left (by simp)
    by_cases hxy : x = y
    · subst hxy
      obtain ⟨l₂, l₃, rfl⟩ := List.append_of_mem hkes
      exact ⟨.revoke x :: l₂, l₃, rfl, List.mem_cons_self⟩
    · obtain ⟨l₂, l₃, rfl, hmem⟩ := revoked_of_not_granted hkes fun hg => hx ⟨hxy, hg⟩
      exact ⟨.revoke y :: l₂, l₃, rfl, List.mem_cons_of_mem _ hmem⟩

/-- **Two grants of one item have a revocation between them.** -/
theorem Exclusive.revokedBetween {k k' : κ} {x : ι} (hne : k ≠ k') :
    ∀ {es : List (Event κ ι)}, Exclusive es → .grant k x ∈ es → .grant k' x ∈ es →
      RevokedBetween es k k' x ∨ RevokedBetween es k' k x
  | .grant j y :: es, ⟨hfree, hes⟩, hk, hk' => by
    rcases List.mem_cons.mp hk with he | hkes
    · -- `k` has the newest grant, so `k'` has an older one
      obtain ⟨rfl, rfl⟩ := Event.grant.inj he
      have hkes' : .grant k' x ∈ es :=
        (List.mem_cons.mp hk').resolve_left fun he' => hne (Event.grant.inj he').1.symm
      obtain ⟨l₂, l₃, rfl, hmem⟩ := revoked_of_not_granted hkes' hfree
      exact .inr ⟨[], l₂, l₃, rfl, hmem⟩
    · rcases List.mem_cons.mp hk' with he | hkes'
      · obtain ⟨rfl, rfl⟩ := Event.grant.inj he
        obtain ⟨l₂, l₃, rfl, hmem⟩ := revoked_of_not_granted hkes hfree
        exact .inl ⟨[], l₂, l₃, rfl, hmem⟩
      · exact (Exclusive.revokedBetween hne hes hkes hkes').imp (fun h => h.cons _)
          fun h => h.cons _
  | .revoke y :: es, hes, hk, hk' => by
    have hkes : .grant k x ∈ es := (List.mem_cons.mp hk).resolve_left (by simp)
    have hkes' : .grant k' x ∈ es := (List.mem_cons.mp hk').resolve_left (by simp)
    have hexcl : Exclusive es := hes
    exact (hexcl.revokedBetween hne hkes hkes').imp (fun h => h.cons _) fun h => h.cons _

end Lithium.Grants
