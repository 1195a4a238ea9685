/-
# Redo logs

A store `α → β` written one address at a time, with an area set apart for a redo log: a header
that announces a list of home addresses, and one slot for the new contents of each of them.
A crash keeps some first writes of a list of writes and loses the rest.

What such a store is worth is what a recovery would make of it: `Layout.Leads d s` says that
replaying the log found in `d` gives the contents `s` at every home address.  Section 3 follows
this value through each kind of write; section 4 through a whole commit and a whole replay, with
the crash allowed at every point.
-/
import Mathlib.Data.List.Nodup
import Mathlib.Data.List.Basic
import Mathlib.Logic.Function.Basic

namespace Lithium.RedoLog

variable {α β : Type*} [DecidableEq α]

/-! ## 1. Lists of writes -/

/-- The store after a list of writes, performed in order. -/
def applyWrites (d : α → β) (ws : List (α × β)) : α → β :=
  ws.foldl (fun d w => Function.update d w.1 w.2) d

@[simp] theorem applyWrites_nil (d : α → β) : applyWrites d [] = d := rfl

@[simp] theorem applyWrites_cons (d : α → β) (w : α × β) (ws : List (α × β)) :
    applyWrites d (w :: ws) = applyWrites (Function.update d w.1 w.2) ws := rfl

theorem applyWrites_append (d : α → β) (us vs : List (α × β)) :
    applyWrites d (us ++ vs) = applyWrites (applyWrites d us) vs := by
  rw [applyWrites, List.foldl_append]
  rfl

/-- An address no write is about keeps its contents. -/
theorem applyWrites_of_ne {a : α} : ∀ (ws : List (α × β)) (d : α → β),
    (∀ w ∈ ws, w.1 ≠ a) → applyWrites d ws a = d a := by
  intro ws
  induction ws with
  | nil => intro d _; rfl
  | cons w ws ih =>
    intro d h
    rw [applyWrites_cons, ih _ (fun w' hw' => h w' (List.mem_cons_of_mem _ hw'))]
    exact Function.update_of_ne (Ne.symm (h w List.mem_cons_self)) _ _

/-- An address written once holds what was written there. -/
theorem applyWrites_of_mem {a : α} {v : β} : ∀ (ws : List (α × β)) (d : α → β),
    (ws.map Prod.fst).Nodup → (a, v) ∈ ws → applyWrites d ws a = v := by
  intro ws
  induction ws with
  | nil => intro d _ h; exact absurd h (by simp)
  | cons w ws ih =>
    intro d hnd h
    rw [List.map_cons, List.nodup_cons] at hnd
    rw [applyWrites_cons]
    rcases List.mem_cons.mp h with rfl | h
    · rw [applyWrites_of_ne ws, Function.update_self]
      intro w' hw' heq
      exact hnd.1 (List.mem_map.mpr ⟨w', hw', heq⟩)
    · exact ih _ hnd.2 h

/-! ## 2. Crashes -/

/-- `P` holds of the store a crash leaves, whenever during the writes it comes. -/
def Throughout (P : (α → β) → Prop) (d : α → β) (ws : List (α × β)) : Prop :=
  ∀ k, P (applyWrites d (ws.take k))

theorem throughout_nil {P : (α → β) → Prop} {d : α → β} (h : P d) : Throughout P d [] := by
  intro k
  rw [List.take_nil]
  exact h

theorem Throughout.final {P : (α → β) → Prop} {d : α → β} {ws : List (α × β)}
    (h : Throughout P d ws) : P (applyWrites d ws) := by
  have := h ws.length
  rwa [List.take_length] at this

theorem Throughout.mono {P Q : (α → β) → Prop} {d : α → β} {ws : List (α × β)}
    (h : Throughout P d ws) (hPQ : ∀ d, P d → Q d) : Throughout Q d ws :=
  fun k => hPQ _ (h k)

theorem throughout_append {P : (α → β) → Prop} {d : α → β} {us vs : List (α × β)}
    (hus : Throughout P d us) (hvs : Throughout P (applyWrites d us) vs) :
    Throughout P d (us ++ vs) := by
  intro k
  rw [List.take_append]
  rcases Nat.lt_or_ge k us.length with hk | hk
  · rw [Nat.sub_eq_zero_of_le (Nat.le_of_lt hk), List.take_zero, List.append_nil]
    exact hus k
  · rw [List.take_of_length_le hk, applyWrites_append]
    exact hvs _

theorem throughout_cons {P : (α → β) → Prop} {d : α → β} {w : α × β} {ws : List (α × β)}
    (h : P d) (hws : Throughout P (Function.update d w.1 w.2) ws) :
    Throughout P d (w :: ws) := by
  intro k
  cases k with
  | zero => exact h
  | succ k => exact hws k

/-- What each of the writes keeps, whatever the store, holds throughout. -/
theorem throughout_of_each {P : (α → β) → Prop} {ws : List (α × β)}
    (hstep : ∀ d, P d → ∀ w ∈ ws, P (Function.update d w.1 w.2)) :
    ∀ {d : α → β}, P d → Throughout P d ws := by
  induction ws with
  | nil => intro d h; exact throughout_nil h
  | cons w ws ih =>
    intro d h
    refine throughout_cons h (ih ?_ (hstep d h w List.mem_cons_self))
    intro d hd w' hw'
    exact hstep d hd w' (List.mem_cons_of_mem _ hw')

/-! ## 3. What a store leads to -/

/-- Where the log is, and how a header announces its home addresses. -/
structure Layout (α β : Type*) where
  header : α
  slot : Nat → α
  capacity : Nat
  home : α → Prop
  decode : β → Option (List α)
  slot_inj : ∀ i j, i < capacity → j < capacity → slot i = slot j → i = j
  slot_ne_header : ∀ i, i < capacity → slot i ≠ header
  header_not_home : ¬ home header
  slot_not_home : ∀ i, i < capacity → ¬ home (slot i)

variable {L : Layout α β} {d s : α → β} {as : List α}

omit [DecidableEq α] in
theorem Layout.home_ne_header {a : α} (ha : L.home a) : a ≠ L.header := by
  rintro rfl
  exact L.header_not_home ha

omit [DecidableEq α] in
theorem Layout.home_ne_slot {a : α} (ha : L.home a) {t : Nat} (ht : t < L.capacity) :
    a ≠ L.slot t := by
  rintro rfl
  exact L.slot_not_home t ht ha

/-- The header of `d` announces `as`: distinct home addresses, a slot for each. -/
structure Layout.Announces (L : Layout α β) (d : α → β) (as : List α) : Prop where
  decode : L.decode (d L.header) = some as
  nodup : as.Nodup
  length_le : as.length ≤ L.capacity
  homes : ∀ a ∈ as, L.home a

/-- `d` with the slots of `as` copied home. -/
def Layout.replayed (L : Layout α β) (d : α → β) (as : List α) (a : α) : β :=
  if a ∈ as then d (L.slot (as.idxOf a)) else d a

/-- Replaying the log of `d` gives the contents `s` at every home address. -/
def Layout.Leads (L : Layout α β) (d s : α → β) : Prop :=
  ∃ as, L.Announces d as ∧ ∀ a, L.home a → L.replayed d as a = s a

omit [DecidableEq α] in
theorem Layout.Announces.unique {bs : List α} (h : L.Announces d as) (h' : L.Announces d bs) :
    as = bs :=
  Option.some.inj (h.decode.symm.trans h'.decode)

omit [DecidableEq α] in
theorem Layout.Announces.slot_lt (h : L.Announces d as) {t : Nat} {a : α}
    (ht : as[t]? = some a) : t < L.capacity := by
  have := (List.getElem?_eq_some_iff.mp ht).1
  have := h.length_le
  omega

/-- The entry `t` of the log is copied from slot `t`. -/
theorem Layout.Announces.replayed_entry (h : L.Announces d as) {t : Nat} {a : α}
    (ht : as[t]? = some a) : L.replayed d as a = d (L.slot t) := by
  obtain ⟨hlt, rfl⟩ := List.getElem?_eq_some_iff.mp ht
  rw [Layout.replayed, if_pos (List.getElem_mem hlt), h.nodup.idxOf_getElem t hlt]

theorem Layout.replayed_of_notMem {a : α} (ha : a ∉ as) : L.replayed d as a = d a := if_neg ha

omit [DecidableEq α] in
theorem Layout.Announces.congr {d' : α → β} (h : L.Announces d as)
    (hd : d' L.header = d L.header) : L.Announces d' as := by
  refine ⟨?_, h.nodup, h.length_le, h.homes⟩
  rw [hd]
  exact h.decode

/-- A store with an empty log leads to itself. -/
theorem Layout.leads_of_empty (h : L.Announces d []) (hs : ∀ a, L.home a → d a = s a) :
    L.Leads d s := by
  refine ⟨[], h, ?_⟩
  intro a ha
  rw [Layout.replayed_of_notMem (by simp)]
  exact hs a ha

theorem Layout.Leads.of_empty (h : L.Leads d s) (he : L.Announces d []) {a : α}
    (ha : L.home a) : d a = s a := by
  obtain ⟨as, has, hs⟩ := h
  rw [has.unique he] at hs
  rw [← hs a ha, Layout.replayed_of_notMem (by simp)]

/-- The contents `s` with those of `as` replaced by `new`. -/
def override (s new : α → β) (as : List α) (a : α) : β := if a ∈ as then new a else s a

/-- **The commit point.**  Once the slots hold the new contents, writing a header that announces
them makes the store lead to the new contents. -/
theorem Layout.leads_commit {new : α → β} {v : β} (hnd : as.Nodup)
    (hlen : as.length ≤ L.capacity) (hhomes : ∀ a ∈ as, L.home a)
    (hs : ∀ a, L.home a → d a = s a)
    (hslots : ∀ t a, as[t]? = some a → d (L.slot t) = new a) (hv : L.decode v = some as) :
    L.Leads (Function.update d L.header v) (override s new as) := by
  have hann : L.Announces (Function.update d L.header v) as := by
    refine ⟨?_, hnd, hlen, hhomes⟩
    rw [Function.update_self]
    exact hv
  refine ⟨as, hann, ?_⟩
  intro a ha
  rw [override]
  split
  case isTrue hmem =>
    obtain ⟨t, ht⟩ := List.mem_iff_getElem?.mp hmem
    rw [hann.replayed_entry ht, Function.update_of_ne (L.slot_ne_header t (hann.slot_lt ht))]
    exact hslots t a ht
  case isFalse hmem =>
    rw [Layout.replayed_of_notMem hmem, Function.update_of_ne (L.home_ne_header ha)]
    exact hs a ha

/-- Copying an announced slot home leaves what the store leads to unchanged. -/
theorem Layout.replayed_copy (h : L.Announces d as) {t : Nat} {a : α} (ht : as[t]? = some a)
    (b : α) : L.replayed (Function.update d a (d (L.slot t))) as b = L.replayed d as b := by
  have ha : L.home a := h.homes a (List.mem_of_getElem? ht)
  by_cases hmem : b ∈ as
  · obtain ⟨u, hu⟩ := List.mem_iff_getElem?.mp hmem
    have hh : L.Announces (Function.update d a (d (L.slot t))) as :=
      h.congr (Function.update_of_ne (L.home_ne_header ha).symm _ _)
    rw [hh.replayed_entry hu, h.replayed_entry hu,
      Function.update_of_ne (L.home_ne_slot ha (h.slot_lt hu)).symm]
  · rw [Layout.replayed_of_notMem hmem, Layout.replayed_of_notMem hmem, Function.update_of_ne]
    rintro rfl
    exact hmem (List.mem_of_getElem? ht)

/-! ## 4. Whole commits and whole replays -/

/-- The writes that fill the slots with the new contents. -/
def Layout.slotWrites (L : Layout α β) (new : α → β) (as : List α) : List (α × β) :=
  as.zipIdx.map fun p => (L.slot p.2, new p.1)

/-- The writes of a replay of `d`: every slot copied home, then the header `v₀` that announces
nothing. -/
def Layout.replayWrites (L : Layout α β) (d : α → β) (as : List α) (v₀ : β) : List (α × β) :=
  (as.zipIdx.map fun p => (p.1, d (L.slot p.2))) ++ [(L.header, v₀)]

/-- The writes of a commit to `d`: the slots filled, a header `v` that announces them, a replay. -/
def Layout.commitWrites (L : Layout α β) (d new : α → β) (as : List α) (v v₀ : β) :
    List (α × β) :=
  L.slotWrites new as ++ (L.header, v) ::
    L.replayWrites (Function.update (applyWrites d (L.slotWrites new as)) L.header v) as v₀

/-- The store after the slots are filled. -/
theorem Layout.slotWrites_entry (new : α → β) (hlen : as.length ≤ L.capacity) {t : Nat} {a : α}
    (ht : as[t]? = some a) : applyWrites d (L.slotWrites new as) (L.slot t) = new a := by
  refine applyWrites_of_mem _ _ ?_ ?_
  · have hfst : (L.slotWrites new as).map Prod.fst = (List.range as.length).map L.slot := by
      rw [Layout.slotWrites, List.map_map]
      change as.zipIdx.map (L.slot ∘ Prod.snd) = _
      rw [← List.map_map, List.zipIdx_map_snd, List.range_eq_range']
    rw [hfst]
    refine List.Nodup.map_on ?_ List.nodup_range
    intro i hi j hj hij
    rw [List.mem_range] at hi hj
    exact L.slot_inj i j (by omega) (by omega) hij
  · rw [Layout.slotWrites, List.mem_map]
    exact ⟨(a, t), List.mem_zipIdx_iff_getElem?.mpr ht, rfl⟩

/-- While the slots fill, the header still announces nothing: the store leads to the old
contents. -/
theorem Layout.slotWrites_throughout (new : α → β) (hlen : as.length ≤ L.capacity)
    (h : L.Announces d []) (hs : ∀ a, L.home a → d a = s a) :
    Throughout (fun d => L.Announces d [] ∧ L.Leads d s) d (L.slotWrites new as) := by
  refine throughout_of_each ?_ ⟨h, L.leads_of_empty h hs⟩
  rintro d ⟨hd, hl⟩ w hw
  obtain ⟨p, hp, rfl⟩ := List.mem_map.mp hw
  have hlt : p.2 < L.capacity := by
    have := (List.getElem?_eq_some_iff.mp (List.mem_zipIdx_iff_getElem?.mp hp)).1
    omega
  have hd' : L.Announces (Function.update d (L.slot p.2) (new p.1)) [] :=
    hd.congr (Function.update_of_ne (L.slot_ne_header p.2 hlt).symm _ _)
  refine ⟨hd', L.leads_of_empty hd' ?_⟩
  intro a ha
  rw [Function.update_of_ne (L.home_ne_slot ha hlt)]
  exact hl.of_empty hd ha

/-- The copies of a replay, without the header at its end. -/
theorem Layout.copies_throughout (h : L.Announces d as)
    (hs : ∀ a, L.home a → L.replayed d as a = s a) :
    Throughout (fun d' => L.Announces d' as ∧ ∀ a, L.home a → L.replayed d' as a = s a) d
      (as.zipIdx.map fun p => (p.1, d (L.slot p.2))) := by
  -- the slots themselves are not written
  have key : Throughout (fun d' => (L.Announces d' as ∧ ∀ a, L.home a → L.replayed d' as a = s a)
      ∧ ∀ t, t < L.capacity → d' (L.slot t) = d (L.slot t)) d
      (as.zipIdx.map fun p => (p.1, d (L.slot p.2))) := by
    refine throughout_of_each ?_ ⟨⟨h, hs⟩, fun _ _ => rfl⟩
    rintro d' ⟨⟨hd, hl⟩, hslots⟩ w hw
    obtain ⟨p, hp, rfl⟩ := List.mem_map.mp hw
    have ht : as[p.2]? = some p.1 := List.mem_zipIdx_iff_getElem?.mp hp
    have hhome : L.home p.1 := h.homes p.1 (List.mem_of_getElem? ht)
    rw [← hslots p.2 (h.slot_lt ht)]
    refine ⟨⟨hd.congr (Function.update_of_ne (L.home_ne_header hhome).symm _ _), ?_⟩, ?_⟩
    · intro a ha
      rw [Layout.replayed_copy hd ht]
      exact hl a ha
    · intro t htc
      rw [Function.update_of_ne (L.home_ne_slot hhome htc).symm]
      exact hslots t htc
  exact key.mono fun _ hd => hd.1

/-- The copies of a replay bring every announced address to its slot's contents. -/
theorem Layout.copies_home (h : L.Announces d as) {a : α} (ha : L.home a) :
    applyWrites d (as.zipIdx.map fun p => (p.1, d (L.slot p.2))) a = L.replayed d as a := by
  have hfst : (as.zipIdx.map fun p => (p.1, d (L.slot p.2))).map Prod.fst = as := by
    rw [List.map_map]
    exact List.zipIdx_map_fst 0 as
  by_cases hmem : a ∈ as
  · obtain ⟨t, ht⟩ := List.mem_iff_getElem?.mp hmem
    rw [h.replayed_entry ht]
    refine applyWrites_of_mem _ _ (by rw [hfst]; exact h.nodup) ?_
    exact List.mem_map.mpr ⟨(a, t), List.mem_zipIdx_iff_getElem?.mpr ht, rfl⟩
  · rw [Layout.replayed_of_notMem hmem]
    refine applyWrites_of_ne _ _ ?_
    rintro w hw rfl
    exact hmem (hfst ▸ List.mem_map_of_mem hw)

/-- **Replay.**  Whenever a crash interrupts a replay, the store leads where it led before; and
once the replay is over the log is empty and the home addresses are there. -/
theorem Layout.replay_throughout {v₀ : β} (h : L.Announces d as)
    (hs : ∀ a, L.home a → L.replayed d as a = s a) (hv : L.decode v₀ = some []) :
    Throughout (L.Leads · s) d (L.replayWrites d as v₀) ∧
      L.Announces (applyWrites d (L.replayWrites d as v₀)) [] ∧
      ∀ a, L.home a → applyWrites d (L.replayWrites d as v₀) a = s a := by
  have hcopies := L.copies_throughout h hs
  have hend : L.Announces (applyWrites d (L.replayWrites d as v₀)) [] ∧
      ∀ a, L.home a → applyWrites d (L.replayWrites d as v₀) a = s a := by
    rw [Layout.replayWrites, applyWrites_append, applyWrites_cons, applyWrites_nil]
    refine ⟨⟨?_, List.nodup_nil, Nat.zero_le _, by simp⟩, ?_⟩
    · rw [Function.update_self]
      exact hv
    · intro a ha
      rw [Function.update_of_ne (L.home_ne_header ha), L.copies_home h ha]
      exact hs a ha
  refine ⟨?_, hend⟩
  refine throughout_append (hcopies.mono fun d' hd => ⟨as, hd⟩) ?_
  have hlast := hcopies.final
  refine throughout_cons ⟨as, hlast⟩ (throughout_nil ?_)
  refine L.leads_of_empty ?_ ?_
  · have := hend.1
    rwa [Layout.replayWrites, applyWrites_append] at this
  · have := hend.2
    rwa [Layout.replayWrites, applyWrites_append] at this

/-- **Commit.**  Filling the slots, announcing them and replaying leads, whenever a crash comes,
to the old contents or to the new ones; and once it is over the home addresses hold the new
ones. -/
theorem Layout.commit_throughout (new : α → β) {v v₀ : β} (hnd : as.Nodup)
    (hlen : as.length ≤ L.capacity) (hhomes : ∀ a ∈ as, L.home a) (h : L.Announces d [])
    (hs : ∀ a, L.home a → d a = s a) (hv : L.decode v = some as) (hv₀ : L.decode v₀ = some []) :
    Throughout (fun d' => L.Leads d' s ∨ L.Leads d' (override s new as)) d
        (L.commitWrites d new as v v₀) ∧
      L.Announces (applyWrites d (L.commitWrites d new as v v₀)) [] ∧
      ∀ a, L.home a → applyWrites d (L.commitWrites d new as v v₀) a = override s new as a := by
  set d₁ := Function.update (applyWrites d (L.slotWrites new as)) L.header v with hd₁
  have hfill := L.slotWrites_throughout new hlen h hs
  have hlead : L.Leads d₁ (override s new as) := by
    refine L.leads_commit hnd hlen hhomes ?_ ?_ hv
    · exact fun a ha => hfill.final.2.of_empty hfill.final.1 ha
    · exact fun t a ht => L.slotWrites_entry new hlen ht
  obtain ⟨bs, hbs, hval⟩ := hlead
  have hann : L.Announces d₁ as := by
    refine ⟨?_, hnd, hlen, hhomes⟩
    rw [hd₁, Function.update_self]
    exact hv
  rw [hbs.unique hann] at hval
  obtain ⟨hrep, hempty, hdone⟩ := L.replay_throughout hann hval hv₀
  refine ⟨?_, ?_, ?_⟩
  · refine throughout_append (hfill.mono fun _ hd => Or.inl hd.2) ?_
    exact throughout_cons (Or.inl hfill.final.2) (hrep.mono fun _ hd => Or.inr hd)
  · rw [Layout.commitWrites, applyWrites_append]
    exact hempty
  · rw [Layout.commitWrites, applyWrites_append]
    exact hdone

/-- What a commit leaves at the home addresses, whatever the header said before. -/
theorem Layout.commit_home (new : α → β) {v v₀ : β} (hnd : as.Nodup) (hlen : as.length ≤ L.capacity)
    (hhomes : ∀ a ∈ as, L.home a) (hv : L.decode v = some as) {a : α} (ha : L.home a) :
    applyWrites d (L.commitWrites d new as v v₀) a = override d new as a := by
  set d₁ := Function.update (applyWrites d (L.slotWrites new as)) L.header v with hd₁
  have hfilled : ∀ a, L.home a → applyWrites d (L.slotWrites new as) a = d a := by
    intro a ha
    refine applyWrites_of_ne _ _ fun w hw => ?_
    obtain ⟨p, hp, rfl⟩ := List.mem_map.mp hw
    have hlt := (List.getElem?_eq_some_iff.mp (List.mem_zipIdx_iff_getElem?.mp hp)).1
    exact (L.home_ne_slot ha (by omega)).symm
  have hann : L.Announces d₁ as := by
    refine ⟨?_, hnd, hlen, hhomes⟩
    rw [hd₁, Function.update_self]
    exact hv
  obtain ⟨bs, hbs, hval⟩ : L.Leads d₁ (override d new as) :=
    L.leads_commit hnd hlen hhomes hfilled (fun t a ht => L.slotWrites_entry new hlen ht) hv
  rw [hbs.unique hann] at hval
  rw [Layout.commitWrites, applyWrites_append, applyWrites_cons, Layout.replayWrites,
    applyWrites_append, applyWrites_cons, applyWrites_nil,
    Function.update_of_ne (L.home_ne_header ha)]
  exact (L.copies_home hann ha).trans (hval a ha)

/-! ## 5. A commit, write by write -/

/-- The slots before `t` are filled with the contents `new` of `as`; the header announces nothing,
and the home addresses hold `s`. -/
structure Layout.Filling (L : Layout α β) (d s new : α → β) (as : List α) (t : Nat) : Prop where
  empty : L.Announces d []
  home : ∀ a, L.home a → d a = s a
  slots : ∀ u a, u < t → as[u]? = some a → d (L.slot u) = new a

/-- The header announces `as`, the store leads to `s`, and the slots before `t` are copied home. -/
structure Layout.Copying (L : Layout α β) (d s : α → β) (as : List α) (t : Nat) : Prop where
  announces : L.Announces d as
  replayed : ∀ a, L.home a → L.replayed d as a = s a
  copied : ∀ u a, u < t → as[u]? = some a → d a = s a

/-- The header announces nothing, and the home addresses hold `s`. -/
structure Layout.Empty (L : Layout α β) (d s : α → β) : Prop where
  announces : L.Announces d []
  home : ∀ a, L.home a → d a = s a

variable {new : α → β} {t : Nat}

theorem Layout.Empty.leads (h : L.Empty d s) : L.Leads d s := L.leads_of_empty h.announces h.home

theorem Layout.Filling.leads (h : L.Filling d s new as t) : L.Leads d s :=
  L.leads_of_empty h.empty h.home

theorem Layout.Copying.leads (h : L.Copying d s as t) : L.Leads d s :=
  ⟨as, h.announces, h.replayed⟩

omit [DecidableEq α] in
theorem Layout.Empty.filling (h : L.Empty d s) (new : α → β) (as : List α) :
    L.Filling d s new as 0 :=
  ⟨h.announces, h.home, fun _ _ hu => absurd hu (Nat.not_lt_zero _)⟩

/-- A slot is filled. -/
theorem Layout.Filling.fill (h : L.Filling d s new as t) {a : α} (ht : as[t]? = some a)
    (hlen : as.length ≤ L.capacity) :
    L.Filling (Function.update d (L.slot t) (new a)) s new as (t + 1) := by
  have htc : t < L.capacity := by
    have := (List.getElem?_eq_some_iff.mp ht).1
    omega
  refine ⟨h.empty.congr (Function.update_of_ne (L.slot_ne_header t htc).symm _ _), ?_, ?_⟩
  · intro b hb
    rw [Function.update_of_ne (L.home_ne_slot hb htc)]
    exact h.home b hb
  · intro u b hu hb
    by_cases hut : u = t
    · subst hut
      rw [Function.update_self, Option.some.inj (ht.symm.trans hb)]
    · have huc : u < L.capacity := by omega
      rw [Function.update_of_ne fun e => hut (L.slot_inj u t huc htc e)]
      exact h.slots u b (by omega) hb

/-- The header is written over full slots; what is not in the log is as it was. -/
theorem Layout.Filling.announce {v : β} (h : L.Filling d s new as as.length) (hnd : as.Nodup)
    (hlen : as.length ≤ L.capacity) (hhomes : ∀ a ∈ as, L.home a)
    (hnew : ∀ a, L.home a → a ∉ as → s a = new a) (hv : L.decode v = some as) :
    L.Copying (Function.update d L.header v) new as 0 := by
  obtain ⟨bs, hbs, hval⟩ : L.Leads (Function.update d L.header v) (override s new as) :=
    L.leads_commit hnd hlen hhomes h.home
      (fun u a hu => h.slots u a (List.getElem?_eq_some_iff.mp hu).1 hu) hv
  have hann : L.Announces (Function.update d L.header v) as := by
    refine ⟨?_, hnd, hlen, hhomes⟩
    rw [Function.update_self]
    exact hv
  rw [hbs.unique hann] at hval
  refine ⟨hann, fun a ha => (hval a ha).trans ?_, fun _ _ hu => absurd hu (Nat.not_lt_zero _)⟩
  rw [override]
  split
  case isTrue => rfl
  case isFalse hmem => exact hnew a ha hmem

/-- A slot is copied home. -/
theorem Layout.Copying.copy (h : L.Copying d s as t) {a : α} (ht : as[t]? = some a) :
    L.Copying (Function.update d a (s a)) s as (t + 1) := by
  have ha : L.home a := h.announces.homes a (List.mem_of_getElem? ht)
  have hslot : d (L.slot t) = s a := by
    rw [← h.announces.replayed_entry ht]
    exact h.replayed a ha
  refine ⟨h.announces.congr (Function.update_of_ne (L.home_ne_header ha).symm _ _), ?_, ?_⟩
  · intro b hb
    rw [← hslot, Layout.replayed_copy h.announces ht]
    exact h.replayed b hb
  · intro u b hu hb
    by_cases hab : b = a
    · rw [hab, Function.update_self]
    · rw [Function.update_of_ne hab]
      have hut : u ≠ t := by
        rintro rfl
        exact hab (Option.some.inj (hb.symm.trans ht))
      exact h.copied u b (by omega) hb

/-- When every slot is copied, the home addresses hold what the store leads to. -/
theorem Layout.Copying.home (h : L.Copying d s as as.length) {a : α} (ha : L.home a) :
    d a = s a := by
  by_cases hmem : a ∈ as
  · obtain ⟨u, hu⟩ := List.mem_iff_getElem?.mp hmem
    exact h.copied u a (List.getElem?_eq_some_iff.mp hu).1 hu
  · rw [← Layout.replayed_of_notMem (L := L) (d := d) hmem]
    exact h.replayed a ha

/-- The header is emptied. -/
theorem Layout.Copying.clear {v₀ : β} (h : L.Copying d s as as.length)
    (hv : L.decode v₀ = some []) : L.Empty (Function.update d L.header v₀) s := by
  refine ⟨⟨?_, List.nodup_nil, Nat.zero_le _, by simp⟩, ?_⟩
  · rw [Function.update_self]
    exact hv
  · intro a ha
    rw [Function.update_of_ne (L.home_ne_header ha)]
    exact h.home ha

end Lithium.RedoLog
