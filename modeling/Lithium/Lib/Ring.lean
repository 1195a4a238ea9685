/-
# Circular doubly linked lists with a sentinel

Nodes of a type `N` carry a `next` and a `prev` pointer, and one node, the sentinel, stands for
the list itself: an empty list is the sentinel pointing to itself both ways.  `IsRing l head xs`
says that from `head` the `next` pointers run through exactly the nodes `xs`, in this order and
back to `head`, and that the `prev` pointers run through them backwards.

The operations are the three every such list has, written as the pointer assignments one would
write in C: `unlink` takes a node out, `pushFront` puts one right behind the sentinel, and `scan`
is the loop `for (b = f(head); b != head; b = f(b)) if (test(b)) return b;`.  Their rules
(`IsRing.unlink`, `IsRing.pushFront`, `scan_next`, `scan_prev`) speak of the list `xs` alone.
-/
import Mathlib.Data.List.Nodup
import Mathlib.Logic.Function.Basic
import Mathlib.Tactic.Common

namespace Lithium.Ring

variable {N : Type*}

/-! ## 1. Links and segments -/

/-- The two pointers of every node. -/
structure Links (N : Type*) where
  next : N → N
  prev : N → N

/-- `Seg l u xs v`: from `u` the pointers run through `xs` and then to `v`, both ways. -/
def Seg (l : Links N) : N → List N → N → Prop
  | u, [], v => l.next u = v ∧ l.prev v = u
  | u, x :: xs, v => (l.next u = x ∧ l.prev x = u) ∧ Seg l x xs v

/-- The circular list through `head` holds the nodes `xs`, in this order. -/
structure IsRing (l : Links N) (head : N) (xs : List N) : Prop where
  nodup : (head :: xs).Nodup
  seg : Seg l head xs head

theorem seg_append {l : Links N} : ∀ {xs ys : List N} {u x v : N},
    Seg l u (xs ++ x :: ys) v ↔ Seg l u xs x ∧ Seg l x ys v
  | [], _, _, _, _ => Iff.rfl
  | y :: xs, ys, u, x, v => by
    simp only [List.cons_append, Seg, seg_append, and_assoc]

/-- A segment only depends on the `next` pointers of its nodes but the last, and on the `prev`
pointers of its nodes but the first. -/
theorem Seg.congr {l l' : Links N} : ∀ {xs : List N} {u v : N}, Seg l u xs v →
    (∀ x ∈ u :: xs, l'.next x = l.next x) → (∀ x ∈ xs ++ [v], l'.prev x = l.prev x) →
    Seg l' u xs v
  | [], u, v, h, hn, hp =>
    ⟨(hn u List.mem_cons_self).trans h.1, (hp v List.mem_cons_self).trans h.2⟩
  | x :: _, u, _, h, hn, hp =>
    ⟨⟨(hn u List.mem_cons_self).trans h.1.1, (hp x List.mem_cons_self).trans h.1.2⟩,
      Seg.congr h.2 (fun y hy => hn y (List.mem_cons_of_mem _ hy))
        (fun y hy => hp y (List.mem_cons_of_mem _ hy))⟩

/-- The first pointer of a segment. -/
theorem Seg.next_eq {l : Links N} {xs : List N} {u v : N} (h : Seg l u xs v) :
    l.next u = xs.head?.getD v := by
  cases xs with
  | nil => exact h.1
  | cons x xs => exact h.1.1

/-- The last pointer of a segment. -/
theorem Seg.prev_eq {l : Links N} {xs : List N} {u v : N} (h : Seg l u xs v) :
    l.prev v = xs.getLast?.getD u := by
  rcases List.eq_nil_or_concat xs with rfl | ⟨ys, y, rfl⟩
  · exact h.2
  · rw [List.concat_eq_append] at h ⊢
    rw [(seg_append.mp h).2.2]
    simp

theorem Seg.prev_next {l : Links N} : ∀ {xs : List N} {u v : N}, Seg l u xs v →
    ∀ n ∈ u :: xs, l.prev (l.next n) = n
  | [], u, v, h, n, hn => by
    rw [List.mem_singleton.mp hn, h.1, h.2]
  | x :: xs, u, v, h, n, hn => by
    rcases List.mem_cons.mp hn with rfl | hn
    · rw [h.1.1, h.1.2]
    · exact h.2.prev_next n hn

/-- The same pointers, read backwards. -/
def Links.flip (l : Links N) : Links N := ⟨l.prev, l.next⟩

theorem Seg.flip {l : Links N} : ∀ {xs : List N} {u v : N}, Seg l u xs v →
    Seg l.flip v xs.reverse u
  | [], _, _, h => ⟨h.2, h.1⟩
  | x :: xs, u, v, h => by
    rw [List.reverse_cons, seg_append]
    exact ⟨h.2.flip, h.1.2, h.1.1⟩

/-- **The pointers of the nodes in the list are inverse to each other.** -/
theorem IsRing.inverse {l : Links N} {head : N} {xs : List N} (h : IsRing l head xs) {n : N}
    (hn : n ∈ head :: xs) : l.prev (l.next n) = n ∧ l.next (l.prev n) = n := by
  have hback : n ∈ head :: xs.reverse := by simpa using hn
  exact ⟨h.seg.prev_next n hn, h.seg.flip.prev_next n hback⟩

/-! ## 2. Taking a node out, putting one in front -/

variable [DecidableEq N]

/-- `b->next = n`. -/
def Links.setNext (l : Links N) (b n : N) : Links N :=
  { l with next := Function.update l.next b n }

/-- `b->prev = n`. -/
def Links.setPrev (l : Links N) (b n : N) : Links N :=
  { l with prev := Function.update l.prev b n }

/-- `b->next->prev = b->prev; b->prev->next = b->next;` -/
def unlink (l : Links N) (b : N) : Links N :=
  let l := l.setPrev (l.next b) (l.prev b)
  l.setNext (l.prev b) (l.next b)

/-- `b->next = head->next; b->prev = head; head->next->prev = b; head->next = b;` -/
def pushFront (l : Links N) (head b : N) : Links N :=
  let l := l.setNext b (l.next head)
  let l := l.setPrev b head
  let l := l.setPrev (l.next head) b
  l.setNext head b

/-- Joining the neighbours `p` and `n` of a node leaves a segment without it. -/
theorem Seg.join {l : Links N} {xs ys : List N} {u b v p n : N}
    (h₁ : Seg l u xs b) (h₂ : Seg l b ys v) (hnd : (u :: (xs ++ b :: ys)).Nodup)
    (hv : v ∉ xs ++ b :: ys) (hp : p = xs.getLast?.getD u) (hn : n = ys.head?.getD v) :
    Seg ((l.setPrev n p).setNext p n) u (xs ++ ys) v := by
  rw [List.nodup_cons, List.mem_append, not_or, List.nodup_append] at hnd
  obtain ⟨⟨hux, huy⟩, hxs, hys, hdis⟩ := hnd
  rw [List.mem_append, not_or] at hv
  -- the tail of the list, seen from the new left neighbour `p`
  have htail : Seg ((l.setPrev n p).setNext p n) p ys v := by
    have hpys : p ∉ ys := by
      rcases List.eq_nil_or_concat xs with rfl | ⟨xs', x, rfl⟩
      · subst hp; exact fun hm => huy (List.mem_cons_of_mem _ hm)
      · rw [List.concat_eq_append] at hp hdis
        simp only [List.getLast?_append, List.getLast?_singleton, Option.some_or,
          Option.getD_some] at hp
        subst hp
        exact fun hm => hdis p (by simp) p (List.mem_cons_of_mem _ hm) rfl
    cases ys with
    | nil =>
      simp only [List.head?_nil, Option.getD_none] at hn
      subst hn
      exact ⟨by simp [Links.setNext, Links.setPrev], by simp [Links.setNext, Links.setPrev]⟩
    | cons y ys =>
      simp only [List.head?_cons, Option.getD_some] at hn
      subst hn
      refine ⟨⟨by simp [Links.setNext, Links.setPrev], by simp [Links.setNext, Links.setPrev]⟩,
        Seg.congr h₂.2 (fun z hz => ?_) (fun z hz => ?_)⟩
      · have : z ≠ p := fun e => hpys (e ▸ hz)
        simp [Links.setNext, Links.setPrev, Function.update_of_ne this]
      · have : z ≠ n := by
          rintro rfl
          rcases List.mem_append.mp hz with hz | hz
          · simp only [List.nodup_cons] at hys
            exact hys.2.1 hz
          · rw [List.mem_singleton.mp hz] at hv
            exact hv.2 (List.mem_cons_of_mem _ List.mem_cons_self)
        simp [Links.setNext, Links.setPrev, Function.update_of_ne this]
  rcases List.eq_nil_or_concat xs with rfl | ⟨xs', x, rfl⟩
  · subst hp
    exact htail
  · rw [List.concat_eq_append] at h₁ hp hux hxs hdis hv ⊢
    simp only [List.getLast?_append, List.getLast?_singleton, Option.some_or,
      Option.getD_some] at hp
    subst hp
    rw [List.append_assoc, List.singleton_append, seg_append]
    refine ⟨Seg.congr (seg_append.mp h₁).1 (fun z hz => ?_) (fun z hz => ?_), htail⟩
    · have : z ≠ p := by
        rintro rfl
        rcases List.mem_cons.mp hz with rfl | hz
        · exact hux (by simp)
        · exact (List.nodup_append.mp hxs).2.2 z hz z (by simp) rfl
      simp [Links.setNext, Links.setPrev, Function.update_of_ne this]
    · -- `n` is a node of `ys` or the end `v`, and neither is a node of `xs`
      have : z ≠ n := by
        rintro rfl
        cases ys with
        | nil =>
          simp only [List.head?_nil, Option.getD_none] at hn
          subst hn
          exact hv.1 hz
        | cons y ys =>
          simp only [List.head?_cons, Option.getD_some] at hn
          subst hn
          exact hdis z hz z (by simp) rfl
      simp [Links.setNext, Links.setPrev, Function.update_of_ne this]

/-- **Unlinking a node takes it out of the list** and keeps the order of the others. -/
theorem IsRing.unlink {l : Links N} {head b : N} {xs ys : List N}
    (h : IsRing l head (xs ++ b :: ys)) : IsRing (unlink l b) head (xs ++ ys) := by
  have hnd := h.nodup
  obtain ⟨h₁, h₂⟩ := seg_append.mp h.seg
  have hhead : head ∉ xs ++ b :: ys := (List.nodup_cons.mp hnd).1
  have hb : b ≠ l.next b := by
    rw [h₂.next_eq]
    have hbys : b ∉ ys :=
      (List.nodup_cons.mp (List.nodup_append.mp (List.nodup_cons.mp hnd).2).2.1).1
    cases ys with
    | nil => rintro rfl; exact hhead (by simp)
    | cons y ys => rintro rfl; exact hbys (by simp)
  refine ⟨hnd.sublist ?_, ?_⟩
  · exact (List.Sublist.append_left (List.sublist_cons_self b ys) xs).cons_cons head
  · have := Seg.join h₁ h₂ hnd hhead rfl rfl
    rw [← h₁.prev_eq, ← h₂.next_eq] at this
    have hprev : (l.setPrev (l.next b) (l.prev b)).prev b = l.prev b := by
      simp [Links.setPrev, Function.update_of_ne hb]
    rw [Ring.unlink, hprev]
    exact this

/-- **Pushing a new node puts it first.** -/
theorem IsRing.pushFront {l : Links N} {head b : N} {xs : List N} (h : IsRing l head xs)
    (hb : b ≠ head) (hbxs : b ∉ xs) : IsRing (pushFront l head b) head (b :: xs) := by
  obtain ⟨hhead, hxs⟩ := List.nodup_cons.mp h.nodup
  refine ⟨by simp [hb.symm, hhead, hbxs, hxs], ?_⟩
  have hnext := h.seg.next_eq
  cases xs with
  | nil =>
    simp only [List.head?_nil, Option.getD_none] at hnext
    simp [Seg, Ring.pushFront, Links.setNext, Links.setPrev, Function.update_of_ne hb,
      Function.update_of_ne hb.symm, hnext]
  | cons x xs =>
    simp only [List.head?_cons, Option.getD_some] at hnext
    have hxb : x ≠ b := fun e => hbxs (e ▸ List.mem_cons_self)
    have hxh : x ≠ head := fun e => hhead (e ▸ List.mem_cons_self)
    refine ⟨?_, ⟨?_, ?_⟩, Seg.congr h.seg.2 (fun z hz => ?_) (fun z hz => ?_)⟩
    · simp [Ring.pushFront, Links.setNext, Links.setPrev, Function.update_of_ne hb.symm, hnext,
        Function.update_of_ne hxb.symm]
    · simp [Ring.pushFront, Links.setNext, Links.setPrev, Function.update_of_ne hb, hnext]
    · simp [Ring.pushFront, Links.setNext, Links.setPrev, Function.update_of_ne hb.symm, hnext]
    · have h1 : z ≠ b := fun e => hbxs (e ▸ hz)
      have h2 : z ≠ head := fun e => hhead (e ▸ hz)
      simp [Ring.pushFront, Links.setNext, Links.setPrev, Function.update_of_ne h1,
        Function.update_of_ne h2]
    · have h1 : z ≠ x := by
        rintro rfl
        rcases List.mem_append.mp hz with hz | hz
        · exact (List.nodup_cons.mp hxs).1 hz
        · exact hxh (List.mem_singleton.mp hz)
      have h2 : z ≠ b := by
        rintro rfl
        rcases List.mem_append.mp hz with hz | hz
        · exact hbxs (List.mem_cons_of_mem _ hz)
        · exact hb (List.mem_singleton.mp hz)
      simp [Ring.pushFront, Links.setNext, Links.setPrev, Function.update_of_ne h1,
        Function.update_of_ne h2, hnext, Function.update_of_ne hb.symm]

/-! ## 3. Searching the list -/

/-- `for (; n != head; n = f(n)) if (test(n)) return n;` with fuel: `none` when the fuel runs
out, `some none` when the loop reaches the sentinel without a hit. -/
def scan (f : N → N) (head : N) (test : N → Bool) : ℕ → N → Option (Option N)
  | fuel, n =>
    if n = head then some none
    else if test n then some (some n)
    else match fuel with
      | 0 => none
      | fuel + 1 => scan f head test fuel (f n)

theorem scan_seg {l : Links N} {head : N} (test : N → Bool) : ∀ {xs : List N} {u : N} {fuel : ℕ},
    Seg l u xs head → head ∉ xs → xs.length ≤ fuel →
    scan l.next head test fuel (l.next u) = some (xs.find? test)
  | [], u, fuel, h, _, _ => by
    rw [h.1, scan.eq_def]
    simp
  | x :: xs, u, fuel, h, hh, hf => by
    have hxh : x ≠ head := fun e => hh (e ▸ List.mem_cons_self)
    obtain ⟨k, rfl⟩ : ∃ k, fuel = k + 1 := ⟨fuel - 1, by simp at hf; omega⟩
    rw [h.1.1, scan.eq_def, List.find?_cons]
    by_cases ht : test x = true
    · simp [hxh, ht]
    · simp only [hxh, if_false, ht]
      exact scan_seg test h.2 (fun hm => hh (List.mem_cons_of_mem _ hm)) (by simpa using hf)

/-- **Searching forwards** finds the first node of the list passing the test. -/
theorem scan_next {l : Links N} {head : N} {xs : List N} (h : IsRing l head xs)
    (test : N → Bool) {fuel : ℕ} (hf : xs.length ≤ fuel) :
    scan l.next head test fuel (l.next head) = some (xs.find? test) :=
  scan_seg test h.seg (List.nodup_cons.mp h.nodup).1 hf

/-- **Searching backwards** finds the last node of the list passing the test. -/
theorem scan_prev {l : Links N} {head : N} {xs : List N} (h : IsRing l head xs)
    (test : N → Bool) {fuel : ℕ} (hf : xs.length ≤ fuel) :
    scan l.prev head test fuel (l.prev head) = some (xs.reverse.find? test) := by
  have hh : head ∉ xs.reverse := by simpa using (List.nodup_cons.mp h.nodup).1
  exact scan_seg (l := l.flip) test h.seg.flip hh (by simpa using hf)

end Lithium.Ring
