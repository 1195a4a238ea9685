/-
# Blocks in the hands of many processes

Any number of processes between `block_read` and `block_release`, each with one block: which of
them waits for the sleeplock, which has changed the buffer and not called `log_write` yet.  The
contents of a block as the cache shows them change only under an assignment to the buffer, although
buffers are pinned, written home and recycled in between.
-/
import Lithium.Fs.LogState
import Lithium.Lib.Handles

namespace Lithium.Wal

/-- How far a process is with its block. -/
inductive Hold where
  /-- In `block_read`, before it has the sleeplock. -/
  | waiting
  | holding
  /-- It has assigned to the buffer and not called `log_write`. -/
  | dirty
  deriving DecidableEq

/-- A buffer with the same contents shows the same. -/
theorem view_put_keep (w : World) (b b' : BlockNo) {c : CachedBlock}
    (hvalid : c.valid = (w.bufs b).valid) (hdata : c.data = (w.bufs b).data) :
    (w.put b c).view b' = w.view b' := by
  by_cases hb : b' = b
  · subst hb
    rw [World.view, World.view, put_self, put_disk, hvalid, hdata]
  · exact view_put_of_ne w hb c

/-- A block written home from its buffer. -/
theorem view_stored (w : World) (b b' : BlockNo) (hvalid : (w.bufs b).valid = true) :
    (w.stored b (w.bufs b).data).view b' = w.view b' := by
  by_cases hb : b' = b
  · subst hb
    rw [World.view, World.view, stored_bufs, if_pos hvalid, if_pos hvalid]
  · have hdisk : (w.stored b (w.bufs b).data).disk b' = w.disk b' := Function.update_of_ne hb _ _
    rw [World.view, World.view, stored_bufs, hdisk]

/-- The buffers, for the blocks the processes hold, the references taken for that, and the blocks
`log_write` has pinned. -/
structure BlockOk (hold : Pid → Option (BlockNo × Hold)) (w : World) (pins : List BlockNo)
    (refs : List (Pid × BlockNo)) : Prop where
  handles : ∀ i b, (i, b) ∈ refs ↔ ∃ x, hold i = some (b, x)
  nodup : refs.Nodup
  pinned : pins.Nodup
  counted : ∀ b, (w.bufs b).refcnt = handlesOf refs b + pins.count b
  locked : ∀ i b x, hold i = some (b, x) → x ≠ .waiting → w.Holds i b ∧ (w.bufs b).valid = true
  clean : ∀ b, b ∉ pins → (∀ i, hold i ≠ some (b, .dirty)) → w.view b = w.disk b

namespace BlockOk

variable {hold : Pid → Option (BlockNo × Hold)} {w w' : World} {pins pins' : List BlockNo}
  {refs refs' : List (Pid × BlockNo)} {i j : Pid} {b : BlockNo} {x y : Hold}

/-- Where no process holds a block, no block is pinned and every buffer shows the disk. -/
theorem start (hw : ∀ b, (w.bufs b).refcnt = 0 ∧ w.view b = w.disk b) :
    BlockOk (fun _ => none) w [] [] where
  handles i b := by simp
  nodup := List.nodup_nil
  pinned := List.nodup_nil
  counted b := (hw b).1
  locked i b x h := by cases h
  clean b _ _ := (hw b).2

/-- One process has the sleeplock of a buffer. -/
theorem alone (h : BlockOk hold w pins refs) (hi : hold i = some (b, x)) (hx : x ≠ .waiting)
    (hj : hold j = some (b, y)) (hy : y ≠ .waiting) : j = i := by
  have hHi : (w.bufs b).lock = ⟨true, i⟩ := (h.locked i b x hi hx).1
  have hHj : (w.bufs b).lock = ⟨true, j⟩ := (h.locked j b y hj hy).1
  rw [hHi, Sleeplock.mk.injEq] at hHj
  exact hHj.2.symm

/-- What a process holds is referenced. -/
theorem referenced (h : BlockOk hold w pins refs) (hi : hold i = some (b, x)) :
    0 < (w.bufs b).refcnt := by
  have hpos : 0 < handlesOf refs b := handlesOf_pos.mpr ⟨i, (h.handles i b).mpr ⟨x, hi⟩⟩
  rw [h.counted b]
  omega

/-- An unreferenced buffer shows the disk. -/
theorem clean_of_unreferenced (h : BlockOk hold w pins refs) (hb : (w.bufs b).refcnt = 0) :
    w.view b = w.disk b := by
  refine h.clean b (fun hmem => ?_) fun i hi => ?_
  · have hpos := List.count_pos_iff.mpr hmem
    have hcount := h.counted b
    omega
  · have hpos := h.referenced hi
    omega

theorem hold_update_cases {o : Option (BlockNo × Hold)} {v : BlockNo × Hold}
    (h : Function.update hold i o j = some v) : j = i ∧ o = some v ∨ j ≠ i ∧ hold j = some v := by
  by_cases hj : j = i
  · subst hj
    exact .inl ⟨rfl, by rwa [Function.update_self] at h⟩
  · exact .inr ⟨hj, by rwa [Function.update_of_ne hj] at h⟩

/-- **A step of a process on its block**: what it has to keep, it has to keep of that block. -/
theorem change (h : BlockOk hold w pins refs) {o : Option Hold}
    (hi : ∀ b' z, hold i = some (b', z) → b' = b)
    (hbufs : ∀ b', b' ≠ b → w'.bufs b' = w.bufs b' ∧ w'.disk b' = w.disk b' ∧
      pins'.count b' = pins.count b' ∧ handlesOf refs' b' = handlesOf refs b')
    (hhandles : ∀ j b', (j, b') ∈ refs' ↔
      ∃ z, Function.update hold i (o.map fun z => (b, z)) j = some (b', z))
    (hnodup : refs'.Nodup) (hpinned : pins'.Nodup)
    (hcount : (w'.bufs b).refcnt = handlesOf refs' b + pins'.count b)
    (hlocked : ∀ j z, Function.update hold i (o.map fun z => (b, z)) j = some (b, z) →
      z ≠ .waiting → w'.Holds j b ∧ (w'.bufs b).valid = true)
    (hclean : b ∉ pins' →
      (∀ j, Function.update hold i (o.map fun z => (b, z)) j ≠ some (b, .dirty)) →
      w'.view b = w'.disk b) :
    BlockOk (Function.update hold i (o.map fun z => (b, z))) w' pins' refs' := by
  have hhold : ∀ j b' z, b' ≠ b →
      (Function.update hold i (o.map fun z => (b, z)) j = some (b', z) ↔
        hold j = some (b', z)) := by
    intro j b' z hb
    by_cases hj : j = i
    · subst hj
      rw [Function.update_self]
      refine iff_of_false (fun he => hb ?_) fun he => hb (hi b' z he)
      obtain ⟨z', -, he⟩ := Option.map_eq_some_iff.mp he
      exact (Prod.mk.inj he).1.symm
    · rw [Function.update_of_ne hj]
  constructor
  case handles => exact hhandles
  case nodup => exact hnodup
  case pinned => exact hpinned
  case counted =>
    intro b'
    by_cases hb : b' = b
    · subst hb
      exact hcount
    · obtain ⟨hbuf, -, hpin, href⟩ := hbufs b' hb
      rw [hbuf, hpin, href]
      exact h.counted b'
  case locked =>
    intro j b' z hz hne
    by_cases hb : b' = b
    · subst hb
      exact hlocked j z hz hne
    · rw [World.Holds, (hbufs b' hb).1]
      exact h.locked j b' z ((hhold j b' z hb).mp hz) hne
  case clean =>
    intro b' hb' hdirty
    by_cases hb : b' = b
    · subst hb
      exact hclean hb' hdirty
    · obtain ⟨hbuf, hdisk, hpin, -⟩ := hbufs b' hb
      rw [World.view, hbuf, hdisk]
      refine h.clean b' ?_ fun j hj => hdirty j ((hhold j b' _ hb).mpr hj)
      rw [← List.count_eq_zero, ← hpin, List.count_eq_zero]
      exact hb'

/-- **A step of the process that has the sleeplock.** -/
theorem holder (h : BlockOk hold w pins refs) (hi : hold i = some (b, x))
    (halone : ∀ j z, hold j = some (b, z) → z ≠ .waiting → j = i)
    (hbufs : ∀ b', b' ≠ b → w'.bufs b' = w.bufs b' ∧ w'.disk b' = w.disk b' ∧
      pins'.count b' = pins.count b')
    (hpinned : pins'.Nodup)
    (hcount : (w'.bufs b).refcnt + pins.count b = (w.bufs b).refcnt + pins'.count b)
    (hlock : w'.Holds i b ∧ (w'.bufs b).valid = true)
    (hclean : b ∉ pins' → y ≠ .dirty → w'.view b = w'.disk b) :
    BlockOk (Function.update hold i (some (b, y))) w' pins' refs := by
  refine h.change (o := some y) (fun b' z he => ?_) (fun b' hb => ?_) (fun j b' => ?_) h.nodup
    hpinned ?_ (fun j z hz hne => ?_) fun hb hdirty => hclean hb fun hy => ?_
  · rw [hi, Option.some.injEq, Prod.mk.injEq] at he
    exact he.1.symm
  · obtain ⟨hbuf, hdisk, hpin⟩ := hbufs b' hb
    exact ⟨hbuf, hdisk, hpin, rfl⟩
  · rw [h.handles j b']
    by_cases hj : j = i
    · subst hj
      simp [hi]
    · rw [Function.update_of_ne hj]
  · have hold := h.counted b
    omega
  · rcases hold_update_cases hz with ⟨rfl, -⟩ | ⟨hj, hz⟩
    · exact hlock
    · exact absurd (halone j z hz hne) hj
  · refine hdirty i ?_
    rw [Function.update_self, hy]
    rfl

/-- **`buf_get`**, for a process that holds nothing. -/
theorem get (h : BlockOk hold w pins refs) (hi : hold i = none) (b : BlockNo) (recycled : Bool) :
    BlockOk (Function.update hold i (some (b, .waiting))) (w.getBuf b recycled) pins
        ((i, b) :: refs) ∧ ∀ b', (w.getBuf b recycled).view b' = w.view b' := by
  have hnew : ∀ b', (i, b') ∉ refs := fun b' hmem => by
    obtain ⟨z, hz⟩ := (h.handles i b').mp hmem
    rw [hi] at hz
    cases hz
  have hview : ∀ b', (w.getBuf b recycled).view b' = w.view b' := by
    intro b'
    by_cases hb : b' = b
    · subst hb
      by_cases hzero : (w.bufs b').refcnt = 0
      · -- it may have been recycled, but it shows the disk
        have hclean := h.clean_of_unreferenced hzero
        simp only [World.view, World.getBuf, put_self, put_disk] at hclean ⊢
        cases hv : (w.bufs b').valid with
        | false => simp
        | true =>
          rw [hv, if_pos rfl] at hclean
          rw [if_pos rfl, hclean]
          exact ite_self _
      · have hne : ((w.bufs b').refcnt != 0) = true := by simpa using hzero
        simp only [World.getBuf, World.view, put_self, put_disk, hne, Bool.true_or, Bool.and_true]
    · exact view_put_of_ne w hb _
  refine ⟨h.change (o := some .waiting) (fun b' z he => ?_) (fun b' hb => ?_) (fun j b' => ?_)
    (List.nodup_cons.mpr ⟨hnew b, h.nodup⟩) h.pinned ?_ (fun j z hz hne => ?_)
    fun hb hdirty => ?_, hview⟩
  · rw [hi] at he
    cases he
  · exact ⟨put_of_ne w hb _, rfl, rfl, handlesOf_cons_of_ne refs i hb⟩
  · rw [List.mem_cons, Prod.mk.injEq]
    by_cases hj : j = i
    · subst hj
      simp [hnew, eq_comm]
    · rw [Function.update_of_ne hj, ← h.handles j b']
      simp [hj]
  · have hcount := h.counted b
    simp only [World.getBuf, put_self, handlesOf_cons_self]
    omega
  · rcases hold_update_cases hz with ⟨-, he⟩ | ⟨-, hz⟩
    · cases he
      exact absurd rfl hne
    · obtain ⟨hlock, hvalid⟩ := h.locked j b z hz hne
      have hkeep : ((w.bufs b).refcnt != 0) = true := by
        have hpos := h.referenced hz
        simpa using Nat.ne_of_gt hpos
      simp only [World.Holds, World.getBuf, put_self, hvalid, hkeep, Bool.true_or, Bool.and_true]
      exact ⟨hlock, trivial⟩
  · rw [hview b]
    refine h.clean b hb fun j hj => hdirty j ?_
    have hne : j ≠ i := by
      rintro rfl
      rw [hi] at hj
      cases hj
    rwa [Function.update_of_ne hne]

/-- **The sleeplock**, for a process that waits for it. -/
theorem lock (h : BlockOk hold w pins refs) (hi : hold i = some (b, .waiting))
    (hw : w.lockBuf i b = some w') :
    BlockOk (Function.update hold i (some (b, .holding))) w' pins refs ∧
      ∀ b', w'.view b' = w.view b' := by
  obtain ⟨hfree, rfl⟩ := LogRun.lockBuf_eq hw
  have hnobody : ∀ j z, hold j = some (b, z) → z ≠ .waiting → j = i := fun j z hz hne => by
    have hlocked := LogRun.Holds.locked (h.locked j b z hz hne).1
    rw [hfree] at hlocked
    cases hlocked
  refine ⟨h.holder hi hnobody (fun b' hb => ⟨put_of_ne w hb _, rfl, rfl⟩) h.pinned ?_ ?_ ?_, ?_⟩
  · rw [put_self]
  · rw [World.Holds, put_self]
    exact ⟨rfl, rfl⟩
  · intro hb _
    rw [view_put_self _ _ _ rfl]
    refine h.clean b hb fun j hj => ?_
    have hji := hnobody j _ hj (by simp)
    rw [hji, hi] at hj
    cases hj
  · intro b'
    by_cases hb : b' = b
    · subst hb
      exact view_put_self _ _ _ rfl
    · exact view_put_of_ne w hb _

/-- **An assignment to the buffer.** -/
theorem assign (h : BlockOk hold w pins refs) (hi : hold i = some (b, .holding)) (data : Block) :
    BlockOk (Function.update hold i (some (b, .dirty))) (w.put b ((w.bufs b).assign data)) pins
        refs ∧
      (w.put b ((w.bufs b).assign data)).view b = data := by
  obtain ⟨hlock, hvalid⟩ := h.locked i b _ hi (by simp)
  refine ⟨h.holder hi (fun j z hz hne => h.alone hi (by simp) hz hne)
    (fun b' hb => ⟨put_of_ne w hb _, rfl, rfl⟩) h.pinned ?_ ?_ (fun _ hy => absurd rfl hy),
    view_put_self _ _ _ hvalid⟩
  · rw [put_self]
    rfl
  · rw [World.Holds, put_self]
    exact ⟨hlock, hvalid⟩

/-- **`log_write`** of a block that is not in the log. -/
theorem pin (h : BlockOk hold w pins refs) (hi : hold i = some (b, .dirty)) (hb : b ∉ pins) :
    BlockOk (Function.update hold i (some (b, .holding))) (w.put b (w.bufs b).pin) (b :: pins)
      refs := by
  obtain ⟨hlock, hvalid⟩ := h.locked i b _ hi (by simp)
  refine h.holder hi (fun j z hz hne => h.alone hi (by simp) hz hne)
    (fun b' hb' => ⟨put_of_ne w hb' _, rfl, List.count_cons_of_ne hb'.symm⟩)
    (List.nodup_cons.mpr ⟨hb, h.pinned⟩) ?_ ?_ fun hnot _ => absurd List.mem_cons_self hnot
  · rw [put_self, List.count_cons_self]
    simp only [CachedBlock.pin]
    omega
  · rw [World.Holds, put_self]
    exact ⟨hlock, hvalid⟩

/-- `log_write` of a block that is. -/
theorem absorb (h : BlockOk hold w pins refs) (hi : hold i = some (b, .dirty)) (hb : b ∈ pins) :
    BlockOk (Function.update hold i (some (b, .holding))) w pins refs :=
  h.holder hi (fun j z hz hne => h.alone hi (by simp) hz hne) (fun _ _ => ⟨rfl, rfl, rfl⟩) h.pinned
    rfl (h.locked i b _ hi (by simp)) fun hnot _ => absurd hb hnot

/-- `block_write` and `buf_unpin` of a block that is in the log. -/
theorem install (h : BlockOk hold w pins refs) (hi : hold i = some (b, .holding)) (hb : b ∈ pins) :
    BlockOk hold ((w.stored b (w.bufs b).data).put b (w.bufs b).unpin) (pins.erase b) refs ∧
      ∀ b', ((w.stored b (w.bufs b).data).put b (w.bufs b).unpin).view b' = w.view b' := by
  obtain ⟨hlock, hvalid⟩ := h.locked i b _ hi (by simp)
  refine ⟨?_, fun b' => ?_⟩
  rotate_left
  · have hput := view_put_keep (w.stored b (w.bufs b).data) b b' (c := (w.bufs b).unpin) rfl rfl
    rw [hput, view_stored w b b' hvalid]
  rw [← Function.update_eq_self i hold, hi]
  refine h.holder hi (fun j z hz hne => h.alone hi (by simp) hz hne) (fun b' hb' => ?_)
    (h.pinned.erase b) ?_ ?_ fun _ _ => ?_
  · exact ⟨put_of_ne _ hb' _, Function.update_of_ne hb' _ _, List.count_erase_of_ne hb'⟩
  · have hcount := h.counted b
    have hone := List.count_eq_one_of_mem h.pinned hb
    rw [put_self, List.count_erase_self]
    simp only [CachedBlock.unpin]
    omega
  · rw [World.Holds, put_self]
    exact ⟨hlock, hvalid⟩
  · rw [view_put_self _ _ (w.bufs b).unpin hvalid]
    exact (Function.update_self b (w.bufs b).data w.disk).symm

/-- **`block_release`.** -/
theorem release (h : BlockOk hold w pins refs) (hi : hold i = some (b, .holding)) :
    BlockOk (Function.update hold i none) (w.put b (w.bufs b).release) pins
      (refs.erase (i, b)) := by
  obtain ⟨hlock, hvalid⟩ := h.locked i b _ hi (by simp)
  have hmem : (i, b) ∈ refs := (h.handles i b).mpr ⟨_, hi⟩
  refine h.change (o := none) (b := b) (fun b' z he => ?_) (fun b' hb => ?_) (fun j b' => ?_)
    (h.nodup.erase _) h.pinned ?_ (fun j z hz hne => ?_) fun hb hdirty => ?_
  · rw [hi, Option.some.injEq, Prod.mk.injEq] at he
    exact he.1.symm
  · exact ⟨put_of_ne w hb _, rfl, rfl, (handlesOf_erase_of_ne hmem hb).symm⟩
  · rw [h.nodup.mem_erase_iff, h.handles j b']
    by_cases hj : j = i
    · subst hj
      simp [hi, eq_comm]
    · simp [hj]
  · have hcount := h.counted b
    rw [handlesOf_erase_self hmem] at hcount
    rw [put_self]
    simp only [CachedBlock.release]
    omega
  · rcases hold_update_cases hz with ⟨-, he⟩ | ⟨hj, hz⟩
    · cases he
    · exact absurd (h.alone hi (by simp) hz hne) hj
  · rw [view_put_self _ _ (w.bufs b).release hvalid]
    have hclean : w.view b = w.disk b := by
      refine h.clean b hb fun j hj => ?_
      have hji := h.alone hi (by simp) hj (by simp)
      rw [hji, hi] at hj
      cases hj
    rw [World.view, if_pos hvalid] at hclean
    exact hclean

end BlockOk

end Lithium.Wal
