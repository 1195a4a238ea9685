/-
# Recency

Items that are used from time to time, and a list of all of them in which the item used last comes
first.  `Stamps` keep for each item the time of its last use, if there was one; items never used
are older than all others and stay in the order `r` they were in at first.

Using an item and moving it to the front of the list go together (`Sorted.touch`), and a search
from the back of the list finds the oldest item that passes (`Sorted.oldest`).
-/
import Mathlib.Data.List.Pairwise
import Mathlib.Data.List.Nodup
import Mathlib.Logic.Function.Basic
import Mathlib.Tactic.Common

namespace Lithium.Recency

variable {ι : Type*}

/-- The time, and when each item was used last. -/
structure Stamps (ι : Type*) where
  clock : Nat
  last : ι → Option Nat

namespace Stamps

/-- No item has been used. -/
def start : Stamps ι := ⟨0, fun _ => none⟩

/-- Item `i` is used. -/
def touch [DecidableEq ι] (t : Stamps ι) (i : ι) : Stamps ι where
  clock := t.clock + 1
  last := Function.update t.last i (some t.clock)

/-- Item `i` was used after `j`; of two items never used, the one that comes first in `r`. -/
def Newer (t : Stamps ι) (r : ι → ι → Prop) (i j : ι) : Prop :=
  match t.last i, t.last j with
  | some a, some b => b < a
  | some _, none => True
  | none, some _ => False
  | none, none => r i j

/-- The list has the items in the order of their last use. -/
structure Sorted (t : Stamps ι) (r : ι → ι → Prop) (xs : List ι) : Prop where
  past : ∀ i a, t.last i = some a → a < t.clock
  newer : xs.Pairwise (t.Newer r)

variable {t : Stamps ι} {r : ι → ι → Prop} {xs us vs : List ι} {i j k : ι}

theorem sorted_start (h : xs.Pairwise r) : Sorted start r xs :=
  ⟨fun _ _ ha => (by cases ha), h⟩

variable [DecidableEq ι]

@[simp] theorem touch_last_self (t : Stamps ι) (i : ι) : (t.touch i).last i = some t.clock :=
  Function.update_self _ _ _

theorem touch_last_of_ne (t : Stamps ι) (h : j ≠ i) : (t.touch i).last j = t.last j :=
  Function.update_of_ne h _ _

/-- The item used now is newer than all others. -/
theorem newer_touch (hpast : ∀ i a, t.last i = some a → a < t.clock) (h : j ≠ i) :
    (t.touch i).Newer r i j := by
  rw [Newer, touch_last_self, touch_last_of_ne t h]
  cases hj : t.last j with
  | none => trivial
  | some b => exact hpast j b hj

/-- The others are as new as they were. -/
theorem newer_touch_of_ne (hj : j ≠ i) (hk : k ≠ i) :
    (t.touch i).Newer r j k ↔ t.Newer r j k := by
  rw [Newer, touch_last_of_ne t hj, touch_last_of_ne t hk, Newer]

/-- **Using an item and moving it to the front** keeps the order. -/
theorem Sorted.touch (h : Sorted t r (us ++ i :: vs)) (hnd : (us ++ i :: vs).Nodup) :
    Sorted (t.touch i) r (i :: (us ++ vs)) := by
  rw [List.nodup_middle, List.nodup_cons] at hnd
  have hne : ∀ j ∈ us ++ vs, j ≠ i := fun j hj e => hnd.1 (e ▸ hj)
  constructor
  · intro j a ha
    change a < t.clock + 1
    by_cases hj : j = i
    · rw [hj, touch_last_self, Option.some.injEq] at ha
      omega
    · rw [touch_last_of_ne t hj] at ha
      exact Nat.lt_succ_of_lt (h.past j a ha)
  · refine List.pairwise_cons.mpr ⟨fun j hj => newer_touch h.past (hne j hj), ?_⟩
    have hsub : (us ++ vs).Sublist (us ++ i :: vs) :=
      List.Sublist.append_left (List.sublist_cons_self i vs) us
    refine (h.newer.sublist hsub).imp_of_mem fun hj hk hjk => ?_
    exact (newer_touch_of_ne (hne _ hj) (hne _ hk)).mpr hjk

omit [DecidableEq ι] in
/-- **The first item from the back that passes** is older than all others that pass. -/
theorem Sorted.oldest (h : Sorted t r xs) {p : ι → Bool} (hfind : xs.reverse.find? p = some i)
    (hj : j ∈ xs) (hpj : p j = true) (hne : j ≠ i) : t.Newer r j i := by
  obtain ⟨-, as, bs, hsplit, has⟩ := List.find?_eq_some_iff_append.mp hfind
  have hxs : xs = bs.reverse ++ i :: as.reverse := by
    rw [← List.reverse_reverse xs, hsplit, List.reverse_append, List.reverse_cons,
      List.append_assoc, List.singleton_append]
  rw [hxs, List.mem_append, List.mem_cons] at hj
  rcases hj with hj | hj | hj
  · exact (List.pairwise_append.mp (hxs ▸ h.newer)).2.2 j hj i List.mem_cons_self
  · exact absurd hj hne
  · have hno := has j (List.mem_reverse.mp hj)
    rw [hpj] at hno
    cases hno

end Stamps

end Lithium.Recency
