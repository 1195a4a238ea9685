/-
# No call is stuck in the driver

Every wakeup readies every sleeper, so that a process in the driver may look for descriptors, or at
its buffer, in vain and any number of times.  Such a look leaves the driver as it was.  The other
steps carry a request further (section 1), and they are bounded: a call gets its descriptors once,
its request is read, completed and handled once, and it returns once.

While there is a call, some request can be carried further, if need be after a wakeup: the one that
holds descriptors, or if nobody holds any, the one that looks for them.  So wherever the driver
stands, all calls can still return (section 2).  That a sleeper is woken up is not said here:
`sleep` gives the lock back before the process is asleep.
-/
import Lithium.Fs.VirtioRings
import Mathlib.Algebra.BigOperators.Group.Finset.Basic
import Mathlib.Data.Fintype.Option

namespace Lithium

open Circular VirtioDisk

/-- Three descriptors are found when none is in use. -/
theorem VirtioDisk.tryAlloc_of_unused {B : Type*} {d : VirtioDisk B}
    (h : ∀ m, (d.info m).b = none) (b : B) (idx : Fin 3 → Int) :
    (d.tryAlloc b idx).ok = true := by
  by_contra hnot
  rw [Bool.not_eq_true] at hnot
  obtain ⟨ms, hms⟩ := allocLoop_spec b [0, 1, 2] (by decide) d idx
  change AllocSpec d b [0, 1, 2] (d.tryAlloc b idx) ms at hms
  have hunused : d.inUse = ∅ := Finset.eq_empty_of_forall_notMem fun i hi => mem_inUse.mp hi (h i)
  have hcard : ms.length + d.inUse.card = 8 := hms.card hnot
  have hlen : ms.length < 3 := (hms.failed hnot).1
  rw [hunused, Finset.card_empty] at hcard
  omega

/-! ## 1. What is left to do -/

namespace DiskPhase

variable {B : Type*}

/-- What is left to do of a call: to find descriptors, and to return. -/
def work : DiskPhase B → Nat
  | .idle => 0
  | .allocating _ _ _ _ => 5
  | .waiting _ _ => 1

theorem wakeup_work (p : DiskPhase B) : p.wakeup.work = p.work := by
  cases p <;> rfl

theorem wakeFreed_work (p : DiskPhase B) (as : List Int) : (p.wakeFreed as).work = p.work := by
  unfold wakeFreed
  split
  · rfl
  · exact p.wakeup_work

theorem wakeMarked_work (p : DiskPhase B) (bs : List (Option B)) :
    (p.wakeMarked bs).work = p.work := by
  unfold wakeMarked
  split
  · exact p.wakeup_work
  · rfl

end DiskPhase

/-- One summand changes as it likes. -/
theorem sum_of_others {T : Type*} [Fintype T] {f g : T → Nat} (t : T)
    (h : ∀ u, u ≠ t → g u = f u) : (∑ u, g u) + f t = (∑ u, f u) + g t := by
  classical
  have hf := Finset.add_sum_erase Finset.univ f (Finset.mem_univ t)
  have hg := Finset.add_sum_erase Finset.univ g (Finset.mem_univ t)
  have hrest : ∑ u ∈ Finset.univ.erase t, g u = ∑ u ∈ Finset.univ.erase t, f u :=
    Finset.sum_congr rfl fun u hu => h u (Finset.ne_of_mem_erase hu)
  omega

namespace DiskState

variable {T B : Type*} {s s' : DiskState T B}

/-- What is left to do: of the calls, and of the requests on their way. -/
def work [Fintype T] (s : DiskState T B) : Nat :=
  (∑ t, (s.phase t).work) + 3 * (s.submitted.length - s.consumed) + 2 * s.taken.length +
    (s.finished.length - s.handled.length)

/-- Anything but a new call. -/
def NoCall : DiskOp T B → Prop
  | .rw _ _ _ _ => False
  | .resume _ | .wake _ | .consume | .complete _ _ _ | .intr => True

/-- Whether a step carries a request further: a process finds descriptors, or its buffer marked, the
device reads or completes a request, or an interrupt finds one completed. -/
def advances (s : DiskState T B) : DiskOp T B → Bool
  | .resume t =>
    match s.phase t with
    | .allocating b _ idx _ => (s.disk.tryAlloc b idx).ok
    | .waiting w _ => (s.disk.bufs w.buf).valid
    | .idle => false
  | .consume | .complete _ _ _ => true
  | .intr => decide (s.disk.usedIdx ≠ s.disk.used.idx)
  | .rw _ _ _ _ | .wake _ => false

variable [DecidableEq T] [DecidableEq B]

/-- **A try to allocate descriptors** does some of it when it succeeds. -/
theorem Rings.allocate_work [Fintype T] (h : Rings s) {t : T} {b : B} {write : Bool}
    {idx : Fin 3 → Int} (ht : s.phase t = .allocating b write idx false) :
    (s.allocate t b write idx).work + (s.disk.tryAlloc b idx).ok.toNat ≤ s.work := by
  have hcon := h.consumedLe
  have hold : (s.phase t).work = 5 := by
    rw [ht]
    rfl
  cases hok : (s.disk.tryAlloc b idx).ok with
  | true =>
    rw [allocate_of_ok hok]
    have hsum := sum_of_others (f := fun u => (s.phase u).work)
      (g := fun u => (Function.update s.phase t
        (.waiting ⟨b, (s.disk.tryAlloc b idx).idx, s.submitted.length⟩ true) u).work) t
      fun u hu => by rw [Function.update_of_ne hu]
    rw [Function.update_self, hold] at hsum
    change _ = _ + 1 at hsum
    rw [work, work]
    dsimp only
    rw [List.length_append, List.length_singleton, Bool.toNat_true]
    omega
  | false =>
    rw [allocate_of_failed hok]
    have hphase : ∀ u, (Function.update
        (fun u => (s.phase u).wakeFreed (toFree (s.disk.tryAlloc b idx).idx)) t
        (.allocating b write (s.disk.tryAlloc b idx).idx true) u).work = (s.phase u).work := by
      intro u
      by_cases hu : u = t
      · rw [hu, Function.update_self, hold]
        rfl
      · rw [Function.update_of_ne hu, DiskPhase.wakeFreed_work]
    rw [work, work]
    dsimp only
    rw [Finset.sum_congr rfl fun u _ => hphase u]
    exact Nat.le_refl _

/-- **A return** does some of it. -/
theorem leave_work [Fintype T] {t : T} {w : Wait B} (ht : s.phase t = .waiting w false) :
    (s.leave t w).work + 1 = s.work := by
  have hsum := sum_of_others (f := fun u => (s.phase u).work)
    (g := fun u => ((s.leave t w).phase u).work) t
    fun u hu => by rw [leave_of_ne s hu, DiskPhase.wakeFreed_work]
  rw [leave_self, ht] at hsum
  change _ + 1 = _ + 0 at hsum
  have hwork : (s.leave t w).work = (∑ u, ((s.leave t w).phase u).work) +
      3 * (s.submitted.length - s.consumed) + 2 * s.taken.length +
      (s.finished.length - s.handled.length) := rfl
  rw [hwork, work]
  omega

omit [DecidableEq B] in
/-- Sleeping and waking up do nothing of it. -/
theorem update_work [Fintype T] {t : T} {p : DiskPhase B} (hp : p.work = (s.phase t).work) :
    ({ s with phase := Function.update s.phase t p } : DiskState T B).work = s.work := by
  have hphase : ∀ u, (Function.update s.phase t p u).work = (s.phase u).work := by
    intro u
    by_cases hu : u = t
    · rw [hu, Function.update_self, hp]
    · rw [Function.update_of_ne hu]
  rw [work, work]
  dsimp only
  rw [Finset.sum_congr rfl fun u _ => hphase u]

/-- **One step**: nothing is undone, and a step that carries a request further does some of it. -/
theorem Rings.step_work [Fintype T] (h : Rings s) (ho : Owners s) {o : DiskOp T B}
    (hs : s.step o = some s') (hn : NoCall o) : s'.work + (s.advances o).toNat ≤ s.work := by
  have hle := h.handled_le
  have hcon := h.consumedLe
  cases step_to hs with
  | entered => exact absurd hn id
  | allocated ht =>
    rw [advances, ht]
    exact h.allocate_work ht
  | left ht hv =>
    rw [advances, ht]
    dsimp only
    rw [hv]
    exact (leave_work ht).le
  | asleep ht =>
    rw [advances, ht]
    dsimp only
    rw [invalid_of_asleep ht hs, update_work (by rw [ht]; rfl)]
    exact Nat.le_refl _
  | woken t =>
    rw [update_work (DiskPhase.wakeup_work _)]
    exact Nat.le_refl _
  | consumed hne =>
    have hlt : s.consumed < s.submitted.length := by
      by_contra hge
      refine hne ((h.avail.eq_iff ringSize_lt).mpr ?_)
      rw [List.drop_eq_nil_of_le (Nat.le_of_not_lt hge), List.map_nil]
    rw [work, work, advances]
    dsimp only
    rw [List.length_append, List.length_singleton, Bool.toNat_true]
    omega
  | @completed j p hp status len =>
    obtain ⟨hj, -⟩ := List.getElem?_eq_some_iff.mp hp
    rw [work, work, advances]
    dsimp only
    rw [List.length_append, List.length_singleton, List.length_eraseIdx_of_lt hj, Bool.toNat_true]
    omega
  | interrupted =>
    have hdone := h.interrupt_done ho
    have hlt : s.disk.usedIdx ≠ s.disk.used.idx → s.handled.length < s.finished.length := by
      intro hne
      by_contra hge
      refine hne ((h.used.eq_iff ringSize_lt).mpr ?_)
      rw [List.drop_eq_nil_of_le (Nat.le_of_not_lt hge), List.map_nil]
    rw [work, work, hdone, advances]
    rw [DiskState.interrupt]
    dsimp only
    simp only [DiskPhase.wakeMarked_work]
    by_cases hne : s.disk.usedIdx = s.disk.used.idx
    · rw [decide_eq_false (not_not_intro hne), Bool.toNat_false]
      omega
    · have := hlt hne
      rw [decide_eq_true hne, Bool.toNat_true]
      omega

/-! ## 2. All calls can return -/

/-- Whoever waits for a request that has been handled will find its buffer marked. -/
structure Lively (s : DiskState T B) : Prop where
  rings : Rings s
  owners : Owners s
  handled : ∀ t w, (s.phase t).wait? = some w → w.req ∈ s.finished.take s.handled.length →
    (s.disk.bufs w.buf).valid = true

omit [DecidableEq T] [DecidableEq B] in
theorem Lively.init (bufs : B → Buf) : Lively (init bufs : DiskState T B) where
  rings := Rings.init bufs
  owners := Owners.init bufs
  handled := fun _ _ h => absurd h (by simp [DiskState.init, DiskPhase.wait?])

/-- **A new request** has not been handled. -/
theorem Lively.allocate (h : Lively s) {t : T} {b : B} {write : Bool} {idx : Fin 3 → Int}
    (ht : s.phase t = .allocating b write idx false) : Lively (s.allocate t b write idx) := by
  obtain ⟨hr, ho⟩ := h.rings.allocate h.owners ht
  have hbufs := (tryAlloc_sameRings s.disk b idx).bufs
  refine ⟨hr, ho, fun u w hu hreq => ?_⟩
  have hold : u ≠ t → (s.phase u).wait? = some w := fun hut => by
    rwa [allocate_wait? s hut] at hu
  cases hok : (s.disk.tryAlloc b idx).ok with
  | true =>
    rw [allocate_of_ok hok] at hu hreq ⊢
    dsimp only at hu hreq ⊢
    by_cases hut : u = t
    · subst hut
      rw [Function.update_self] at hu
      obtain rfl := Option.some.inj hu
      exact absurd (h.rings.lt_of_finished (List.mem_of_mem_take hreq)) (Nat.lt_irrefl _)
    · have hne : w.buf ≠ b := by
        rintro rfl
        exact hut (h.owners.own u t w.buf (DiskPhase.buf?_of_wait? (hold hut)) (by rw [ht]; rfl))
      rw [submit]
      dsimp only
      rw [Function.update_of_ne hne, hbufs]
      exact h.handled u w (hold hut) hreq
  | false =>
    rw [allocate_of_failed hok] at hu hreq ⊢
    dsimp only at hu hreq ⊢
    rw [(rollback_sameRings _ _).bufs, hbufs]
    by_cases hut : u = t
    · subst hut
      rw [Function.update_self] at hu
      exact absurd hu (by simp [DiskPhase.wait?])
    · exact h.handled u w (hold hut) hreq

omit [DecidableEq T] in
/-- **An interrupt** marks the buffers of the requests that it handles. -/
theorem Lively.interrupt (h : Lively s) : Lively s.interrupt := by
  obtain ⟨hr, ho⟩ := h.rings.interrupt h.owners
  obtain ⟨-, -, hbufs⟩ := h.rings.passes (s.disk.used.idx - s.disk.usedIdx).toNat h.owners
  refine ⟨hr, ho, fun u w hu hreq => ?_⟩
  rw [DiskState.interrupt, DiskPhase.wakeMarked_wait?] at hu
  rw [h.rings.interrupt_done h.owners] at hreq
  have hb : s.interrupt.disk.bufs w.buf = if some w.buf ∈ s.disk.intr.2 then
      virtioDiskIntr (s.disk.bufs w.buf) else s.disk.bufs w.buf := hbufs w.buf
  rw [hb]
  split
  case isTrue => exact virtioDiskIntr_valid _
  case isFalse hnot =>
    have hfin : w.req ∈ s.finished := List.mem_of_mem_take hreq
    rw [← List.take_append_drop s.handled.length s.finished, List.mem_append] at hfin
    refine h.handled u w hu (hfin.resolve_right fun hdrop => hnot ?_)
    rw [h.rings.intr_marks h.owners, List.mem_map]
    obtain ⟨i, -, -, -, hsub⟩ := h.owners.chain u w hu
    exact ⟨w.req, hdrop, by rw [hsub]; rfl⟩

/-- **One step.** -/
theorem Lively.step (h : Lively s) {o : DiskOp T B} (hs : s.step o = some s') : Lively s' := by
  obtain ⟨hr, ho⟩ := h.rings.step h.owners hs
  cases step_to hs with
  | entered write idx ht =>
    refine ⟨hr, ho, fun u w hu => h.handled u w ?_⟩
    rwa [update_wait? (by rw [ht]; rfl)] at hu
  | allocated ht => exact h.allocate ht
  | @left t w ht =>
    refine ⟨hr, ho, fun u v hu => h.handled u v ?_⟩
    by_cases hut : u = t
    · subst hut
      rw [leave_self] at hu
      exact absurd hu (by simp [DiskPhase.wait?])
    · rwa [leave_wait? s hut] at hu
  | asleep ht =>
    refine ⟨hr, ho, fun u w hu => h.handled u w ?_⟩
    rwa [update_wait? (by rw [ht]; rfl)] at hu
  | woken t =>
    refine ⟨hr, ho, fun u w hu => h.handled u w ?_⟩
    rwa [update_wait? (DiskPhase.wakeup_wait? _)] at hu
  | consumed => exact ⟨hr, ho, h.handled⟩
  | completed =>
    refine ⟨hr, ho, fun u w hu hreq => h.handled u w hu ?_⟩
    rwa [List.take_append_of_le_length h.rings.handled_le] at hreq
  | interrupted => exact h.interrupt

/-- A step that carries a request further. -/
theorem Lively.goesOn_of_step [Fintype T] (h : Lively s) {o : DiskOp T B}
    (hs : s.step o = some s') (hn : NoCall o) (ha : s.advances o = true) :
    ∃ os s', Transition.run DiskState.step s os = some s' ∧ (∀ o ∈ os, NoCall o) ∧
      s'.work < s.work := by
  have hwork := h.rings.step_work h.owners hs hn
  rw [ha, Bool.toNat_true] at hwork
  refine ⟨[o], s', ?_, fun o' ho' => List.mem_singleton.mp ho' ▸ hn, hwork⟩
  rw [Transition.run_cons, hs]
  rfl

/-- A process that would carry its request further is woken up, and does. -/
theorem Lively.goesOn_of_resume [Fintype T] (h : Lively s) {t : T}
    (ha : s.advances (.resume t) = true) :
    ∃ os s', Transition.run DiskState.step s os = some s' ∧ (∀ o ∈ os, NoCall o) ∧
      s'.work < s.work := by
  obtain ⟨s₁, hs₁⟩ : ∃ s₁, s.step (.wake t) = some s₁ := ⟨_, rfl⟩
  have hle := h.rings.step_work h.owners hs₁ trivial
  have hlively := h.step hs₁
  rw [DiskState.step, Option.some.injEq] at hs₁
  -- awake, it can take the step
  have hnext : (∃ s₂, s₁.step (.resume t) = some s₂) ∧ s₁.advances (.resume t) = true := by
    subst hs₁
    rw [advances] at ha ⊢
    rw [DiskState.step, DiskState.resume]
    dsimp only
    rw [Function.update_self]
    cases hp : s.phase t with
    | idle =>
      rw [hp] at ha
      exact absurd ha Bool.false_ne_true
    | allocating b write idx asleep =>
      rw [hp] at ha
      exact ⟨⟨_, rfl⟩, ha⟩
    | waiting w asleep =>
      rw [hp] at ha
      exact ⟨⟨_, if_pos ha⟩, ha⟩
  obtain ⟨⟨s₂, hs₂⟩, ha₁⟩ := hnext
  obtain ⟨os, s', hrun, hos, hlt⟩ := hlively.goesOn_of_step hs₂ trivial ha₁
  refine ⟨.wake t :: os, s', ?_, fun o ho => ?_,
    Nat.lt_of_lt_of_le hlt (Nat.le_of_add_right_le hle)⟩
  · rw [Transition.run_cons, DiskState.step, Option.bind_some, hs₁]
    exact hrun
  · rcases List.mem_cons.mp ho with rfl | ho
    · exact trivial
    · exact hos o ho

/-- **A request on its way** can be carried further: it is in one of the rings, in the device, or
handled. -/
theorem Lively.goesOn_waiting [Fintype T] (h : Lively s) {t : T} {w : Wait B}
    (ht : (s.phase t).wait? = some w) :
    ∃ os s', Transition.run DiskState.step s os = some s' ∧ (∀ o ∈ os, NoCall o) ∧
      s'.work < s.work := by
  obtain ⟨i, -, -, -, hsub⟩ := h.owners.chain t w ht
  have hlt := (List.getElem?_eq_some_iff.mp hsub).1
  by_cases hhand : w.req ∈ s.finished.take s.handled.length
  · refine h.goesOn_of_resume (t := t) ?_
    have hvalid := h.handled t w ht hhand
    cases hp : s.phase t with
    | waiting v asleep =>
      rw [hp] at ht
      obtain rfl := Option.some.inj ht
      rw [advances, hp]
      exact hvalid
    | idle | allocating =>
      rw [hp] at ht
      exact absurd ht (by simp [DiskPhase.wait?])
  · by_cases hcon : w.req < s.consumed
    · rcases (h.rings.mem_iff w.req).mp hcon with htaken | hfin
      · obtain ⟨p, hp, -⟩ := List.mem_map.mp htaken
        obtain ⟨j, hj⟩ := List.mem_iff_getElem?.mp hp
        obtain ⟨s', hs'⟩ := Option.isSome_iff_exists.mp
          (show (s.step (.complete j 0 0)).isSome by rw [DiskState.step, hj]; rfl)
        exact h.goesOn_of_step hs' trivial rfl
      · refine h.goesOn_of_step (o := .intr) rfl trivial (decide_eq_true fun heq => hhand ?_)
        have hnil := (h.rings.used.eq_iff ringSize_lt).mp heq
        rw [List.map_eq_nil_iff, List.drop_eq_nil_iff] at hnil
        rwa [List.take_of_length_le hnil]
    · have hne : s.lastAvail ≠ s.disk.avail.idx := fun heq => by
        have hnil := (h.rings.avail.eq_iff ringSize_lt).mp heq
        rw [List.map_eq_nil_iff, List.drop_eq_nil_iff] at hnil
        omega
      obtain ⟨s', hs'⟩ := Option.isSome_iff_exists.mp
        (show (s.step .consume).isSome by rw [DiskState.step, if_neg hne]; rfl)
      exact h.goesOn_of_step hs' trivial rfl

/-- **Some call can be carried further**, as long as there is one. -/
theorem Lively.goesOn [Fintype T] (h : Lively s) {u : T} (hu : s.phase u ≠ .idle) :
    ∃ os s', Transition.run DiskState.step s os = some s' ∧ (∀ o ∈ os, NoCall o) ∧
      s'.work < s.work := by
  cases hp : s.phase u with
  | idle => exact absurd hp hu
  | waiting w asleep => exact h.goesOn_waiting (DiskPhase.wait?_of_waiting hp)
  | allocating b write idx asleep =>
    by_cases hwaits : ∃ t w, (s.phase t).wait? = some w
    · obtain ⟨t, w, ht⟩ := hwaits
      exact h.goesOn_waiting ht
    · -- nobody has descriptors
      have hunused : ∀ m, (s.disk.info m).b = none := by
        intro m
        by_contra hm
        obtain ⟨c, hc⟩ := Option.ne_none_iff_exists'.mp hm
        obtain ⟨t, w, -, ht, -⟩ := h.owners.marked m c hc
        exact hwaits ⟨t, w, ht⟩
      refine h.goesOn_of_resume (t := u) ?_
      rw [advances, hp]
      exact tryAlloc_of_unused hunused b idx

/-- **No call is stuck.**  Whatever the processes have done so far: if from now on there are no new
calls, then so many steps at most carry a request further, however often processes look in vain
between them, and wherever this leads, all calls can still return. -/
theorem driver_finishes [Fintype T] (bufs : B → Buf) (os : List (DiskOp T B))
    (hs : Transition.run step (init bufs) os = some s) :
    Transition.Finishes step NoCall advances (fun s => ∀ t, s.phase t = .idle) s.work s := by
  have hinv : ∀ (s : DiskState T B) o s', Lively s → s.step o = some s' → Lively s' :=
    fun _ _ _ h => h.step
  have hlively := Transition.reachable_inv hinv (Lively.init bufs) ⟨os, hs⟩
  refine Transition.finishes_of_measure work hinv
    (fun s o s' h hs hn => h.rings.step_work h.owners hs hn) (fun s h hnot => ?_) hlively
  obtain ⟨u, hu⟩ := not_forall.mp hnot
  exact h.goesOn hu

/-- Three calls: two requests are submitted, and the third process finds descriptors 6 and 7 only; a
wakeup makes it look again, in vain. -/
def threeCalls : List (DiskOp (Option Bool) (Option Bool)) :=
  [.rw none none true fun _ => 0, .rw (some true) (some true) false fun _ => 0,
    .rw (some false) (some false) true fun _ => 0, .resume none, .resume (some true),
    .resume (some false), .wake (some false), .resume (some false)]

theorem driver_finishes_threeCalls : ∃ s : DiskState (Option Bool) (Option Bool),
    Transition.run step (init fun _ => Buf.zero) threeCalls = some s ∧ s.work = 13 ∧
      Transition.Finishes step NoCall advances (fun s => ∀ t, s.phase t = .idle) s.work s := by
  have hrun : (Transition.run step (init fun _ => Buf.zero) threeCalls).map work = some 13 := by
    decide +kernel
  obtain ⟨s, hs, hwork⟩ := Option.map_eq_some_iff.mp hrun
  exact ⟨s, hs, hwork, driver_finishes _ _ hs⟩

end DiskState

end Lithium
