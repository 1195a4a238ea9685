/-
# What a crash leaves, with many processes

Whenever the machine stops, in the middle of a commit or not, `log_init` finds the file system as
it was when the last commit started, or, while that commit is under way, as it was when the one
before started.  No operation is open when a commit starts, so that what is found never has a part
of an operation.
-/
import Lithium.Fs.BufferBalance
import Lithium.Fs.LogWatch

namespace Lithium.Wal

open RedoLog

/-! ## 1. The invariant outside a commit -/

section Outside

variable {area : LogArea} {x y : Watched} {i : Pid} {s' : LogRun}

/-- No operation has the buffer of `b`, a home block. -/
def LogRun.Unchanged (area : LogArea) (s : LogRun) (b : BlockNo) : Prop :=
  ∀ i, s.point i = .inOp → s.world.Holds i b → ¬ area.layout.home b

/-- Outside a commit only the operations change anything. -/
theorem Watched.Inv.synced_quiet (h : x.Inv area) (hq : ∀ i, (x.run.point i).busy = false)
    {b : BlockNo} (hb : b ∉ x.run.pins) (hun : x.run.Unchanged area b) :
    x.run.world.view b = x.run.world.disk b := by
  refine h.synced b hb fun i hch => ?_
  have hi := hq i
  cases hp : x.run.point i with
  | idle => rw [hp] at hch; exact hch
  | finish => rw [hp] at hch; exact hch
  | inOp =>
    rw [hp] at hch
    exact hun i hp hch.1 hch.2
  | commit p => rw [hp] at hi; exact absurd hi (by simp [Point.busy])

/-- The invariant while no process is in the last part of `log_end_op`. -/
theorem Watched.Inv.of_quiet (hinv : y.run.Inv) (hof : area.Of y.run.log)
    (hfits : area.Fits y.run.log.lh) (hloaded : y.run.Loaded)
    (hq : ∀ i, (y.run.point i).busy = false)
    (hsynced : ∀ b, b ∉ y.run.pins → y.run.Unchanged area b →
      y.run.world.view b = y.run.world.disk b)
    (hempty : area.layout.Empty y.run.world.disk y.latest) : y.Inv area where
  inv := hinv
  of := hof
  fits := hfits
  loaded := hloaded
  synced b hb hch := by
    refine hsynced b hb fun i hi hheld hhome => hch i ?_
    rw [hi]
    exact ⟨hheld, hhome⟩
  quiet _ := hempty
  phase i := by
    have hi := hq i
    cases hp : y.run.point i with
    | idle => exact trivial
    | inOp => exact trivial
    | commit p => rw [hp] at hi; exact absurd hi (by simp [Point.busy])
    | finish => rw [hp] at hi; exact absurd hi (by simp [Point.busy])

/-- No process is in the last part of `log_end_op` when the flag is off. -/
theorem LogRun.Inv.quiet_of {s : LogRun} (h : s.Inv) (hcom : s.log.committing = false) (j : Pid) :
    (s.point j).busy = false := by
  by_contra hj
  rw [Bool.not_eq_false] at hj
  rw [(h.alone j hj).1] at hcom
  exact absurd hcom (by simp)

/-- `log_begin_op`. -/
theorem Watched.Inv.begin (h : x.Inv area) (hs : x.run.step (.begin i) = some s')
    (hinv : s'.Inv) : ({ x with run := s' } : Watched).Inv area := by
  unfold LogRun.step at hs
  cases hpi : x.run.point i with
  | inOp => simp [hpi] at hs
  | commit p => simp [hpi] at hs
  | finish => simp [hpi] at hs
  | idle =>
    simp only [hpi, Option.map_eq_some_iff] at hs
    obtain ⟨l, hl, rfl⟩ := hs
    obtain ⟨hcom, rfl⟩ := Log.beginOp_cases hl
    have hq := h.inv.quiet_of hcom
    refine Watched.Inv.of_quiet hinv ⟨h.of.start, h.of.size⟩ h.fits h.loaded
      (LogRun.not_busy_go hq rfl) ?_ (h.quiet hq)
    intro b hb hun
    refine h.synced_quiet hq hb fun j hj => hun j ?_
    have hji : j ≠ i := by
      rintro rfl
      rw [hpi] at hj
      exact absurd hj (by simp)
    exact (LogRun.go_point_of_ne _ hji _).trans hj

/-- What `log_write` puts into the log. -/
theorem Log.write_mem {l : Log} {a b : BlockNo} (h : a ∈ (l.write b).1.lh) :
    a ∈ l.lh ∨ a = b := by
  rcases l.write_cases b with ⟨hl, -⟩ | ⟨-, hl⟩ | ⟨-, -, hl⟩
  · exact Or.inl (hl ▸ h)
  · rw [hl] at h
    exact Or.inl h
  · rw [hl] at h
    exact (List.mem_append.mp h).imp_right List.mem_singleton.mp

/-- `log_write` keeps the log within its slots. -/
theorem Log.write_length {l : Log} (b : BlockNo) (h : l.lh.length ≤ min (l.size - 1) logSize) :
    (l.write b).1.lh.length ≤ min (l.size - 1) logSize := by
  unfold Log.write
  split
  case isTrue => exact h
  case isFalse hroom =>
    split
    case isTrue => exact h
    case isFalse =>
      split
      case isTrue => exact h
      case isFalse =>
        rw [List.length_append, List.length_singleton]
        omega

/-- A pin is not seen. -/
theorem view_pin (w : World) (b : BlockNo) : (w.put b (w.bufs b).pin).view = w.view :=
  view_put_same w rfl

theorem bufs_pin (w : World) (b b' : BlockNo) :
    ((w.put b (w.bufs b).pin).bufs b').lock = (w.bufs b').lock ∧
      ((w.put b (w.bufs b).pin).bufs b').valid = (w.bufs b').valid := by
  by_cases hb : b' = b
  · subst hb
    rw [put_self]
    exact ⟨rfl, rfl⟩
  · rw [put_of_ne _ hb]
    exact ⟨rfl, rfl⟩

/-- `log_write`, of a home block. -/
theorem Watched.Inv.write (h : x.Inv area) {b : BlockNo} (hhome : area.layout.home b)
    (hs : x.run.step (.write i b) = some s') (hinv : s'.Inv) :
    ({ x with run := s' } : Watched).Inv area := by
  unfold LogRun.step at hs
  cases hpi : x.run.point i with
  | idle => simp [hpi] at hs
  | commit p => simp [hpi] at hs
  | finish => simp [hpi] at hs
  | inOp =>
    simp only [hpi, Option.ite_none_right_eq_some, Option.some.injEq] at hs
    obtain ⟨-, rfl⟩ := hs
    have hq := h.inv.not_busy hpi
    -- the buffers are the same but for a pin
    obtain ⟨w, hw, hdisk, hview, hbufs⟩ : ∃ w : World,
        (if (x.run.log.write b).2 = .recorded then finalWorld ((bufPin b).run x.run.world)
          else x.run.world) = w ∧ w.disk = x.run.world.disk ∧ w.view = x.run.world.view ∧
        ∀ b', (w.bufs b').lock = (x.run.world.bufs b').lock ∧
          (w.bufs b').valid = (x.run.world.bufs b').valid := by
      refine ⟨_, rfl, ?_⟩
      split
      · exact ⟨rfl, view_pin _ b, bufs_pin _ b⟩
      · exact ⟨rfl, rfl, fun _ => ⟨rfl, rfl⟩⟩
    rw [hw] at hinv ⊢
    have hkeeps : (x.run.log.write b).1.start = x.run.log.start ∧
        (x.run.log.write b).1.size = x.run.log.size := by
      rcases x.run.log.write_cases b with ⟨hl, -⟩ | ⟨-, hl⟩ | ⟨-, -, hl⟩
      · rw [hl]
        exact ⟨rfl, rfl⟩
      · rw [hl]
        exact ⟨rfl, rfl⟩
      · rw [hl]
        exact ⟨rfl, rfl⟩
    refine Watched.Inv.of_quiet hinv ⟨hkeeps.1.trans h.of.start, hkeeps.2.trans h.of.size⟩
      ⟨hinv.nodup, ?_, ?_⟩ ?_ hq ?_ (hdisk ▸ h.quiet hq)
    · have hlen := h.fits.length_le
      change _ ≤ min (area.size - 1) logSize at hlen ⊢
      rw [← h.of.size] at hlen ⊢
      exact Log.write_length b hlen
    · intro a ha
      rcases Log.write_mem ha with ha | rfl
      · exact h.fits.homes a ha
      · exact hhome
    · intro j b' hj
      refine (hbufs b').2.trans (h.loaded j b' ?_)
      rw [World.Holds, ← (hbufs b').1]
      exact hj
    · intro b' hb' hun
      change w.view b' = w.disk b'
      rw [hview, hdisk]
      refine h.synced_quiet hq ?_ fun j hj hheld => hun j hj ?_
      · intro hmem
        refine hb' ?_
        dsimp only
        split
        · exact List.mem_append_left _ hmem
        · exact hmem
      · rw [World.Holds, (hbufs b').1]
        exact hheld

/-- `log_end_op`: what it gives back is in the log, or was not changed. -/
theorem Watched.Inv.endOp (h : x.Inv area)
    (huses : ∀ r ∈ x.run.refs, r.1 = i → x.run.world.Holds i r.2 → x.run.Saved r.2)
    (hs : x.step (.endOp i) = some y) (hinv : y.run.Inv) : y.Inv area := by
  rw [Watched.step, Option.map_eq_some_iff] at hs
  obtain ⟨s', hs, rfl⟩ := hs
  unfold LogRun.step at hs
  cases hpi : x.run.point i with
  | idle => simp [hpi] at hs
  | commit p => simp [hpi] at hs
  | finish => simp [hpi] at hs
  | inOp =>
    have hq := h.inv.not_busy hpi
    have hpins := h.inv.quiet hq
    -- what the process had is in step, like the rest
    have hsynced : ∀ b, b ∉ x.run.pins → (∀ j, j ≠ i → x.run.point j = .inOp →
        x.run.world.Holds j b → ¬ area.layout.home b) →
        x.run.world.view b = x.run.world.disk b := by
      intro b hb hothers
      by_cases hheld : x.run.world.Holds i b
      · rcases huses (i, b) (h.inv.held i b hheld) rfl hheld with hmem | hsame
        · exact absurd (hpins ▸ hmem) hb
        · exact hsame
      · refine h.synced_quiet hq hb fun j hj hj' => ?_
        by_cases hji : j = i
        · exact absurd (hji ▸ hj') hheld
        · exact hothers j hji hj hj'
    simp only [hpi, Option.some.injEq] at hs
    have hof : area.Of x.run.log.endOp.1 := by
      obtain ⟨hstart, hsize, -⟩ := AtStart.endOp_keeps x.run.log
      exact ⟨hstart.trans h.of.start, hsize.trans h.of.size⟩
    have hlh : x.run.log.endOp.1.lh = x.run.log.lh := (AtStart.endOp_keeps x.run.log).2.2
    cases hcommit : x.run.log.endOp.2 with
    | true =>
      rw [hcommit] at hs
      have hstarts : x.run.starts (.endOp i) = true := hcommit
      rw [if_pos hstarts] at hinv ⊢
      subst hs
      refine Watched.Inv.of_busy hinv hof ?_ h.loaded (LogRun.go_point_self ..) rfl ?_
        ⟨fun _ _ => rfl, h.quiet hq⟩
      · change area.Fits x.run.log.endOp.1.lh
        rw [hlh]
        exact h.fits
      · intro b hb _
        refine hsynced b hb fun j hji hj => ?_
        -- the operation was the only one
        have hidle := (hinv.alone i (by rw [LogRun.go_point_self]; rfl)).2 j hji
        rw [LogRun.go_point_of_ne _ hji] at hidle
        exact absurd (hidle.symm.trans hj) (by simp)
    | false =>
      rw [hcommit] at hs
      have hstarts : ¬ x.run.starts (.endOp i) = true := by
        rw [LogRun.starts, hcommit]
        exact Bool.false_ne_true
      rw [if_neg hstarts] at hinv ⊢
      subst hs
      refine Watched.Inv.of_quiet hinv hof ?_ h.loaded (LogRun.not_busy_go hq rfl) ?_ (h.quiet hq)
      · change area.Fits x.run.log.endOp.1.lh
        rw [hlh]
        exact h.fits
      · intro b hb hun
        refine hsynced b hb fun j hji hj => hun j ?_
        exact (LogRun.go_point_of_ne _ hji _).trans hj

/-- The last section of `log_end_op`. -/
theorem Watched.Inv.finish (h : x.Inv area) (hs : x.run.step (.finish i) = some s')
    (hinv : s'.Inv) : ({ x with run := s' } : Watched).Inv area := by
  unfold LogRun.step at hs
  cases hpi : x.run.point i with
  | idle => simp [hpi] at hs
  | inOp => simp [hpi] at hs
  | commit p => simp [hpi] at hs
  | finish =>
    simp only [hpi, Option.some.injEq] at hs
    subst hs
    have hphase := h.phase i
    rw [hpi] at hphase
    have hq : ∀ j, (({ x.run with log := x.run.log.endCommit }.go i .idle).point j).busy = false :=
      hinv.quiet_of rfl
    refine Watched.Inv.of_quiet hinv ⟨h.of.start, h.of.size⟩ h.fits h.loaded hq ?_ hphase
    exact fun b hb _ => h.synced_busy hpi rfl hb id

/-- What a process knows of its commit outlives the calls of the others. -/
theorem Watched.PhaseOk.congr {p : Point} (h : x.PhaseOk area i p)
    (hview : y.run.world.view = x.run.world.view) (hdisk : y.run.world.disk = x.run.world.disk)
    (hlog : y.run.log = x.run.log) (hlatest : y.latest = x.latest)
    (hprevious : y.previous = x.previous)
    (hheld : ∀ b, x.run.world.Holds i b → y.run.world.Holds i b) : y.PhaseOk area i p := by
  cases p with
  | idle => exact trivial
  | inOp => exact trivial
  | finish =>
    rw [Watched.PhaseOk, hdisk, hlatest]
    exact h
  | commit q =>
    obtain ⟨htarget, hok⟩ := h
    refine ⟨by rw [hview, hlatest]; exact htarget, ?_⟩
    cases q with
    | enter =>
      rw [Watched.CommitOk, hdisk, hprevious]
      exact hok
    | loop toSlot tail => exact Watched.DiskOk.congr hok hdisk (by rw [hlog]) hlatest hprevious
    | clear =>
      rw [Watched.CommitOk, hlog]
      exact Watched.DiskOk.congr hok hdisk (by rw [hlog]) hlatest hprevious
    | entry toSlot tail st =>
      refine ⟨?_, hok.2.congr hdisk (by rw [hlog]) hlatest hprevious⟩
      have hst := hok.1
      cases st with
      | lockSlot slot => rw [Watched.EntryOk, hlog]; exact hst
      | getHome slot => rw [Watched.EntryOk, hlog]; exact ⟨hst.1, hheld _ hst.2⟩
      | lockHome e => rw [Watched.EntryOk, hlog]; exact ⟨hst.1, hheld _ hst.2⟩
      | copy e => rw [Watched.EntryOk, hlog]; exact ⟨hst.1, hheld _ hst.2⟩
      | write e =>
        rw [Watched.EntryOk, hlog, hview, hlatest]
        exact ⟨hst.1, hheld _ hst.2.1, hst.2.2⟩
      | _ => exact trivial
    | head cleared st =>
      refine ⟨?_, ?_⟩
      · have hst := hok.1
        cases st with
        | lock b => rw [LogRun.HeaderOk, hlog]; exact hst
        | fill b => rw [LogRun.HeaderOk, hlog]; exact ⟨hst.1, hheld _ hst.2⟩
        | write b =>
          rw [LogRun.HeaderOk, hlog, hview]
          exact ⟨hst.1, hheld _ hst.2.1, hst.2.2⟩
        | _ => exact trivial
      · have hhead := hok.2
        cases cleared with
        | true =>
          rw [Watched.HeadDisk, hdisk, hlatest]
          exact hhead
        | false =>
          rw [Watched.HeadDisk, Watched.DiskOk, Watched.DiskOk, hdisk, hlatest, hprevious, hlog]
          exact hhead

/-- A call of a process beside a commit. -/
theorem Watched.Inv.block_busy (h : x.Inv area) {c : BlockCall} {j : Pid}
    (hj : (x.run.point j).busy = true) (hij : j ≠ i) (hc : c.keeps = true)
    (hunpin : ∀ b, c ≠ .unpin b) (hs : x.run.blockCall i c = some s') (hinv : s'.Inv) :
    ({ x with run := s' } : Watched).Inv area := by
  obtain ⟨hdisk, hview⟩ := LogRun.view_blockCall hs h.clean hc
  have hframe := LogRun.blockCall_frame hs
  have hlog : s'.log = x.run.log := by rw [hframe]
  have hpoint : s'.point = x.run.point := by rw [hframe]
  have hj' : (s'.point j).busy = true := by rw [hpoint]; exact hj
  refine Watched.Inv.of_busy (i := j) hinv ?_ ?_ (h.loaded.blockCall hs h.clean) rfl hj' ?_ ?_
  · exact hlog ▸ h.of
  · exact hlog ▸ h.fits
  · intro b hb hch
    change b ∉ s'.pins at hb
    rw [LogRun.blockCall_pins hs hunpin] at hb
    change s'.world.view b = s'.world.disk b
    rw [hview, hdisk]
    refine h.synced_busy rfl hj hb fun hch' => hch ?_
    change LogRun.Changes area s' j b (s'.point j)
    rw [hpoint]
    exact LogRun.changes_busy hj hch'
  · change Watched.PhaseOk area _ j (s'.point j)
    rw [hpoint]
    exact (h.phase j).congr hview hdisk hlog rfl rfl
      fun b hb => LogRun.Holds.blockCall hs hb (Or.inl hij)

/-- A call of a process outside `log_end_op`, while nobody commits. -/
theorem Watched.Inv.block_quiet (h : x.Inv area) {c : BlockCall}
    (hq : ∀ j, (x.run.point j).busy = false) (huses : x.run.CallUses area i c)
    (hunpin : ∀ b, c ≠ .unpin b) (hs : x.run.blockCall i c = some s') (hinv : s'.Inv) :
    ({ x with run := s' } : Watched).Inv area := by
  have hframe := LogRun.blockCall_frame hs
  have hlog : s'.log = x.run.log := by rw [hframe]
  have hpoint : s'.point = x.run.point := by rw [hframe]
  have hpins : s'.pins = x.run.pins := LogRun.blockCall_pins hs hunpin
  have hq' : ∀ j, (s'.point j).busy = false := by rw [hpoint]; exact hq
  -- the buffer that is released shows the disk, the one that is assigned is being changed
  obtain ⟨hdisk, hsynced⟩ : s'.world.disk = x.run.world.disk ∧ ∀ b, b ∉ x.run.pins →
      s'.Unchanged area b → s'.world.view b = x.run.world.disk b := by
    by_cases hkeeps : c.keeps = true
    · obtain ⟨hdisk, hview⟩ := LogRun.view_blockCall hs h.clean hkeeps
      refine ⟨hdisk, fun b hb hun => ?_⟩
      rw [hview]
      by_cases hrel : c = .release b ∧ x.run.world.Holds i b
      · obtain ⟨rfl, hheld⟩ := hrel
        rcases huses hheld with hmem | hsame
        · exact absurd (h.inv.quiet hq ▸ hmem) hb
        · exact hsame
      · refine h.synced_quiet hq hb fun j hj hheld => hun j (by rw [hpoint]; exact hj) ?_
        refine LogRun.Holds.blockCall hs hheld ?_
        by_cases hji : j = i
        · exact Or.inr fun e => hrel ⟨e, hji ▸ hheld⟩
        · exact Or.inl hji
    · cases c with
      | assign b' data =>
        obtain ⟨hi, hheld, hhome⟩ := huses
        obtain ⟨hdisk, hview⟩ := LogRun.view_assign hs h.loaded hheld
        refine ⟨hdisk, fun b hb hun => ?_⟩
        by_cases hne : b = b'
        · refine absurd hhome (hne ▸ hun i (by rw [hpoint]; exact hi) ?_)
          exact LogRun.Holds.blockCall hs (hne ▸ hheld) (Or.inr (by simp))
        · rw [hview, Function.update_of_ne hne]
          refine h.synced_quiet hq hb fun j hj hj' => hun j (by rw [hpoint]; exact hj) ?_
          exact LogRun.Holds.blockCall hs hj' (Or.inr (by simp))
      | write b => exact huses.elim
      | _ => exact absurd rfl hkeeps
  refine Watched.Inv.of_quiet hinv (hlog ▸ h.of) (hlog ▸ h.fits) (h.loaded.blockCall hs h.clean) hq'
    ?_ ?_
  · intro b hb hun
    change b ∉ s'.pins at hb
    change s'.world.view b = s'.world.disk b
    rw [hpins] at hb
    rw [hdisk]
    exact hsynced b hb hun
  · change area.layout.Empty s'.world.disk x.latest
    rw [hdisk]
    exact h.quiet hq

/-- A call of the block layer outside `commit`. -/
theorem Watched.Inv.block (h : x.Inv area) {c : BlockCall} (huses : x.run.CallUses area i c)
    (hs : x.run.step (.block i c) = some s') (hinv : s'.Inv) :
    ({ x with run := s' } : Watched).Inv area := by
  rw [LogRun.step, Option.ite_none_right_eq_some, Bool.and_eq_true, Bool.not_eq_true'] at hs
  obtain ⟨⟨hi, hcall⟩, hs⟩ := hs
  have hunpin : ∀ b, c ≠ .unpin b := by
    rintro b rfl
    exact absurd hcall (by simp [LogRun.callable])
  by_cases hq : ∀ j, (x.run.point j).busy = false
  · exact h.block_quiet hq huses hunpin hs hinv
  · obtain ⟨j, hj⟩ := not_forall.mp hq
    rw [Bool.not_eq_false] at hj
    have hij : j ≠ i := by
      rintro rfl
      rw [hi] at hj
      exact absurd hj (by simp)
    refine h.block_busy hj hij ?_ hunpin hs hinv
    cases c with
    | assign b data =>
      -- no operation is open
      exact absurd (((h.inv.alone j hj).2 i hij.symm).symm.trans huses.1) (by simp)
    | write b => exact huses.elim
    | _ => rfl

/-- **Every step of every process keeps the invariant.** -/
theorem Watched.Inv.step (x : Watched) (r : LogStep) (y : Watched) (h : x.Inv area)
    (huses : x.run.Uses area r) (hs : x.step r = some y) : y.Inv area := by
  have hinv : y.run.Inv := by
    have hnull : LogRun.NoNull r := by
      cases r with
      | commit i answer => exact huses
      | _ => exact trivial
    rw [Watched.step, Option.map_eq_some_iff] at hs
    obtain ⟨s', hs, rfl⟩ := hs
    have hinv := LogRun.Inv.step x.run r s' h.inv hnull hs
    split
    · exact hinv
    · exact hinv
  by_cases hend : ∃ i, r = .endOp i
  · obtain ⟨i, rfl⟩ := hend
    exact h.endOp huses hs hinv
  · rw [Watched.step, Option.map_eq_some_iff] at hs
    obtain ⟨s', hs, rfl⟩ := hs
    have hstarts : ¬ x.run.starts r = true := by
      cases r with
      | endOp i => exact absurd ⟨i, rfl⟩ hend
      | _ => exact Bool.false_ne_true
    rw [if_neg hstarts] at hinv ⊢
    cases r with
    | begin i => exact h.begin hs hinv
    | write i b => exact h.write huses.2 hs hinv
    | endOp i => exact absurd ⟨i, rfl⟩ hend
    | finish i => exact h.finish hs hinv
    | block i c => exact h.block huses hs hinv
    | commit i answer =>
      rw [LogRun.step] at hs
      cases hpi : x.run.point i with
      | idle => simp [hpi] at hs
      | inOp => simp [hpi] at hs
      | finish => simp [hpi] at hs
      | commit p =>
        simp only [hpi] at hs
        exact h.commitStep huses hpi hs hinv

end Outside

/-! ## 2. What a crash leaves -/

section Crash

variable {area : LogArea} {x : Watched}

/-- The disk leads to what the last commit is about, or the one before while it is under way. -/
theorem Watched.CommitOk.leads {i : Pid} {p : CommitPoint} (h : x.CommitOk area i p) :
    area.layout.Leads x.run.world.disk x.latest ∨
      area.layout.Leads x.run.world.disk x.previous := by
  have hdisk : ∀ {toSlot : Bool} {t : Nat}, x.DiskOk area toSlot t →
      area.layout.Leads x.run.world.disk x.latest ∨
        area.layout.Leads x.run.world.disk x.previous := by
    intro toSlot t ht
    cases toSlot with
    | true => exact Or.inr (Layout.Filling.leads ht)
    | false => exact Or.inl (Layout.Copying.leads ht)
  cases p with
  | enter => exact Or.inr (Layout.Empty.leads h)
  | loop toSlot tail => exact hdisk h
  | entry toSlot tail st => exact hdisk h.2
  | clear => exact hdisk h
  | head cleared st =>
    have hhead := h.2
    cases cleared with
    | true =>
      rw [Watched.HeadDisk] at hhead
      split at hhead
      · exact Or.inl (Layout.Empty.leads hhead)
      · obtain ⟨as, has⟩ := hhead
        exact Or.inl has.leads
    | false =>
      rw [Watched.HeadDisk] at hhead
      split at hhead
      · exact hdisk hhead
      · exact hdisk hhead

theorem Watched.Inv.survives (h : x.Inv area) : x.Survives area where
  crash := by
    by_cases hcom : x.run.Committing
    · obtain ⟨i, p, hpi⟩ := hcom
      have hphase := h.phase i
      rw [hpi] at hphase
      rcases hphase.2.leads with hleads | hleads
      · exact Or.inl (recovers_of_leads hleads)
      · exact Or.inr ⟨⟨i, p, hpi⟩, recovers_of_leads hleads⟩
    · refine Or.inl (recovers_of_leads ?_)
      by_cases hq : ∀ i, (x.run.point i).busy = false
      · exact (h.quiet hq).leads
      · obtain ⟨i, hi⟩ := not_forall.mp hq
        rw [Bool.not_eq_false] at hi
        have hphase := h.phase i
        cases hpi : x.run.point i with
        | idle => rw [hpi] at hi; exact absurd hi (by simp [Point.busy])
        | inOp => rw [hpi] at hi; exact absurd hi (by simp [Point.busy])
        | commit p => exact absurd ⟨i, p, hpi⟩ hcom
        | finish =>
          rw [hpi] at hphase
          exact Layout.Empty.leads hphase
  whole := by
    rintro ⟨i, p, hpi⟩
    have hphase := h.phase i
    rw [hpi] at hphase
    refine ⟨fun j hj => ?_, hphase.1⟩
    have hbusy := h.inv.not_busy hj i
    rw [hpi] at hbusy
    exact absurd hbusy (by simp [Point.busy])

/-- After `log_init` no buffer is referenced. -/
theorem unused_of_boot {env : Env} {start size : Nat} {d : Disk} {l : Log} {w : World}
    (hnull : ∀ r, env.null r = false)
    (hrun : (logInit env start size).run (World.boot d) = .ok l w) (hnil : l.lh = []) :
    LogRun.Unused w := by
  have hpaired : InitPaired env
      { start := start, size := size, outstanding := 0, committing := false, lh := [] }
      (World.boot d) := by
    intro lh _ _ t _
    rw [hnull, hnull]
  have hbalanced := (logInit_balanced_iff env start size (World.boot d) rfl (fun _ => rfl)
    fun _ => rfl).mpr hpaired l w hrun
  intro b
  constructor
  · have hcount := hbalanced.refcnt b
    rw [hnil] at hcount
    exact hcount
  · have hlocks : w.Locked b → (World.boot d).Locked b := hbalanced.locks b
    by_contra hlocked
    rw [Bool.not_eq_false] at hlocked
    exact absurd (hlocks hlocked) Bool.false_ne_true

/-- The machine after `log_init`. -/
theorem Watched.start_inv {l : Log} {w : World} {s : Disk} (h : Rest area s l w)
    (hunused : LogRun.Unused w) : (Watched.start l w s).Inv area := by
  have hlog : l = (⟨l.start, l.size, 0, false, []⟩ : Log) := by
    rw [← h.lh, ← h.committing, ← h.outstanding]
  have hinv : (LogRun.init w l.start l.size).Inv :=
    LogRun.init_inv hunused l.start (by rw [h.of.size]; exact area.pos)
  have hrun : (Watched.start l w s).run = LogRun.init w l.start l.size := by
    rw [Watched.start, hlog]
    rfl
  have hnot : ∀ i b, ¬ w.Holds i b := by
    intro i b hi
    have hlocked := LogRun.Holds.locked hi
    rw [(hunused b).2] at hlocked
    exact absurd hlocked (by simp)
  refine Watched.Inv.of_quiet (hrun ▸ hinv) h.of ?_ ?_ (fun _ => rfl) ?_ ⟨h.empty, h.holds⟩
  · change area.Fits l.lh
    rw [h.lh]
    exact ⟨List.nodup_nil, Nat.zero_le _, by simp⟩
  · exact fun i b hi => absurd hi (hnot i b)
  · exact fun b _ _ => h.ready.synced b id

/-- **A crash loses no operation in part**, with any number of processes.  `log_init` returns over
a disk that leads to the file system `s`; and in every run of the machine from there, whose
processes use the log as they should, a crash in any state leaves a disk that recovers to the file
system as it was when the last commit started, or, while that commit is under way, when the one
before did. -/
theorem log_durable (area : LogArea) {d s : Disk} (hd : area.layout.Leads d s) (pid : Pid)
    (recycled : Nat → Bool) : ∃ l w,
    (logInit (Env.steady pid recycled) area.start area.size).run (World.boot d) = .ok l w ∧
      ∀ rs, Transition.EachStep Watched.step (fun x r => x.run.Uses area r)
          (Watched.start l w s) rs →
        Transition.Always Watched.step (Watched.Survives area) (Watched.start l w s) rs := by
  obtain ⟨l, w, hrun, hrest, -⟩ := logInit_run (Env.steady pid recycled) (fun _ => rfl) hd
  refine ⟨l, w, hrun, fun rs hrs => ?_⟩
  have hinv := Watched.start_inv hrest (unused_of_boot (fun _ => rfl) hrun hrest.lh)
  exact (Transition.always_of_eachStep (@Watched.Inv.step area) rs _ hinv
    hrs).mono fun _ h => h.survives

end Crash

/-- A disk left by a crash in the middle of `install_trans`: block 100 is in the log only. -/
def halfInstalled : Disk :=
  Function.update (Function.update (fun _ _ => 0) 2 (putHead (fun _ => 0) [100])) 3 fun _ => 7

/-- What it leads to. -/
def installed100 : Disk := Function.update (fun _ _ => 0) 100 fun _ => 7

theorem halfInstalled_leads : fsLog.layout.Leads halfInstalled installed100 := by
  have hann : fsLog.layout.Announces halfInstalled [100] := by
    have hlen : [(100 : BlockNo)].length ≤ logSize := by decide
    have hhome : ¬ fsLog.Inside 100 := fun h => absurd h.2 (by decide)
    refine ⟨?_, List.nodup_singleton _, by decide, ?_⟩
    · exact getHead_putHead (fun _ => 0) hlen
    · intro a ha
      exact List.mem_singleton.mp ha ▸ hhome
  refine ⟨[100], hann, fun a ha => ?_⟩
  by_cases hmem : a ∈ [(100 : BlockNo)]
  · obtain rfl := List.mem_singleton.mp hmem
    rfl
  · have h2 : a ≠ 2 := fsLog.layout.home_ne_header ha
    have h3 : a ≠ 3 := fsLog.layout.home_ne_slot (t := 0) ha (by decide)
    rw [Layout.replayed_of_notMem hmem, halfInstalled, installed100,
      Function.update_of_ne h3, Function.update_of_ne h2,
      Function.update_of_ne fun e => hmem (List.mem_singleton.mpr e)]

/-- The machine after a boot. -/
def Watched.booted (s : Disk) : EStateM.Result Halt World Log → Option Watched
  | .ok l w => some (Watched.start l w s)
  | .error _ _ => none

/-- Process 1 changes block 101, which another one has a reference to, and commits; the machine
stops when the header is written. -/
def stoppedCommit : List LogStep :=
  [.begin 1, .block 1 (.get 101 true), .block 1 (.lock 101), .block 1 (.assign 101 fun _ => 9),
    .block 2 (.get 101 true), .write 1 101, .block 1 (.release 101), .endOp 1] ++
      List.replicate 16 (.commit 1 (.buffer true))

/-- The disk announces block 101 and does not have its data yet. -/
theorem log_durable_stoppedCommit : ∃ l w x,
    (logInit (Env.steady 1 fun _ => true) 2 logSize).run (World.boot halfInstalled) = .ok l w ∧
      Transition.run Watched.step (Watched.start l w installed100) stoppedCommit = some x ∧
      getHead (x.run.world.disk 2) = some [101] ∧ x.run.world.disk 101 0 = 0 ∧
      x.latest 101 0 = 9 ∧ x.Survives fsLog := by
  have hsteps : ∀ x ∈ Watched.booted installed100
      ((logInit (Env.steady 1 fun _ => true) 2 logSize).run (World.boot halfInstalled)),
      Transition.EachStep Watched.step (fun x r => x.run.Uses fsLog r) x stoppedCommit := by
    decide +kernel
  have hends : ((Watched.booted installed100
      ((logInit (Env.steady 1 fun _ => true) 2 logSize).run (World.boot halfInstalled))).bind
        fun x => Transition.run Watched.step x stoppedCommit).map (fun x =>
          (getHead (x.run.world.disk 2), x.run.world.disk 101 0, x.latest 101 0)) =
      some (some [101], 0, 9) := by
    decide +kernel
  obtain ⟨l, w, hrun, hdurable⟩ := log_durable fsLog halfInstalled_leads 1 fun _ => true
  have hrun' : (logInit (Env.steady 1 fun _ => true) 2 logSize).run (World.boot halfInstalled) =
      .ok l w := hrun
  rw [hrun', Watched.booted] at hsteps hends
  obtain ⟨x, hx, hdisk⟩ := Option.map_eq_some_iff.mp hends
  rw [Option.bind_some] at hx
  obtain ⟨hhead, hrest⟩ := Prod.mk.inj hdisk
  obtain ⟨hold, hnew⟩ := Prod.mk.inj hrest
  have halways := hdurable stoppedCommit (hsteps _ rfl)
  exact ⟨l, w, x, hrun', hx, hhead, hold, hnew,
    (Transition.always_iff_forall_part _ _).mp halways _ x List.prefix_rfl hx⟩

end Lithium.Wal
