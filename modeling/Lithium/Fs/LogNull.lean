/-
# A commit when `block_read` returns `NULL`

`write_log` and `install_trans` skip an entry when one of its two reads returns `NULL`; the header
counts it all the same, and the buffer of the other read is never given back.  Section 4 says for
exactly which patterns of `NULL` a commit keeps its promise: never to announce a slot that does
not hold its block's new contents, and to leave all the home blocks new or all of them old.
-/
import Lithium.Fs.LogCrash

namespace Lithium.Wal

open RedoLog

/-! ## 1. The promise -/

/-- Whenever a header announces blocks, the slots hold their new contents. -/
def HeaderSound (l : Log) (w : World) (r : EStateM.Result Halt World Log) : Prop :=
  ∀ us v vs, (finalWorld r).writes = w.writes ++ (us ++ (l.header, v) :: vs) →
    ∀ as, getHead v = some as → ∀ t a, as[t]? = some a →
      applyWrites w.disk us (l.slot t) = w.view a

/-- When `commit` returns, the blocks of the log all have their new contents on the disk, or all
have the contents they had. -/
def AllOrNothing (l : Log) (w : World) (r : EStateM.Result Halt World Log) : Prop :=
  ∀ l' w', r = .ok l' w' →
    (∀ a ∈ l.lh, w'.disk a = w.view a) ∨ (∀ a ∈ l.lh, w'.disk a = w.disk a)

/-- A world in which `log_end_op` calls `commit`: the log holds distinct home blocks, their new
contents are pinned in the cache, and the reads of `write_head` return a buffer. -/
structure CommitReady (env : Env) (area : LogArea) (l : Log) (w : World) : Prop where
  of : area.Of l
  fits : area.Fits l.lh
  ready : Ready (· ∈ l.lh) w
  head : env.null (w.reads + 2 * l.lh.length) = false
  clear : env.null (w.reads + 4 * l.lh.length + 1) = false

/-! ## 2. The condition -/

section Pattern

variable (env : Env) (l : Log) (w : World) (t : Nat)

/-- In `write_log`, `to` is `NULL`. -/
def toNull : Bool := env.null (w.reads + 2 * t)

/-- In `write_log`, `from` is `NULL`. -/
def fromNull : Bool := env.null (w.reads + 2 * t + 1)

/-- In `install_trans`, `lbuf` is `NULL`. -/
def lbufNull : Bool := env.null (w.reads + 2 * l.lh.length + 1 + 2 * t)

/-- In `install_trans`, `dbuf` is `NULL`. -/
def dbufNull : Bool := env.null (w.reads + 2 * l.lh.length + 1 + 2 * t + 1)

/-- `install_trans` does not read a buffer that `write_log` kept: it would sleep on it for
ever. -/
def Unblocked : Prop :=
  (toNull env w t = false → fromNull env w t = true → lbufNull env l w t = true) ∧
    (toNull env w t = true → fromNull env w t = false → dbufNull env l w t = true)

/-- `install_trans` does not skip the entry. -/
def Installed : Prop := lbufNull env l w t = false ∧ dbufNull env l w t = false

instance : Decidable (Installed env l w t) := inferInstanceAs (Decidable (_ ∧ _))

end Pattern

/-- **The condition.**  `write_log` skips no entry, except where the slot happens to hold the new
contents already; and if `install_trans` gets through, it skips all the blocks that change or
none of them. -/
structure Harmless (env : Env) (l : Log) (w : World) : Prop where
  filled : ∀ t a, l.lh[t]? = some a →
    (toNull env w t = false ∧ fromNull env w t = false) ∨ w.disk (l.slot t) = w.view a
  installed : (∀ t, t < l.lh.length → Unblocked env l w t) →
    (∀ t a, l.lh[t]? = some a → Installed env l w t ∨ w.disk a = w.view a) ∨
      (∀ t a, l.lh[t]? = some a → ¬ Installed env l w t ∨ w.disk a = w.view a)

/-! ## 3. Loops that get stuck -/

/-- An entry one of whose buffers is held by somebody, and not `NULL`, stops the process before
any write. -/
theorem installEntry_stuck {env : Env} {w : World} {e : Entry} (recovering : Bool)
    (hne : e.slot ≠ e.home) (hcs : w.CleanAt e.slot) (hch : w.CleanAt e.home)
    (h : ¬ Runnable env w.reads w e) : ∃ w', (installEntry env recovering e).run w
      = .error .asleep w' ∧ w'.writes = w.writes := by
  cases h0 : env.null w.reads with
  | true =>
    -- only the home block can be in the way
    have hhome : env.null (w.reads + 1) = false ∧ (w.bufs e.home).lock.locked = true := by
      by_contra hcon
      refine h ⟨hne, hcs, hch, fun hn => absurd hn (by rw [h0]; simp), fun hn => ?_⟩
      rw [World.FreeAt]
      simpa [hn] using hcon
    refine ⟨((w.tick 1).tick 1).put e.home (w.bufs e.home).pin, ?_, rfl⟩
    rw [installEntry, bind_ok (blockRead_null e.slot h0)]
    exact bind_error (blockRead_held hhome.1 hhome.2)
  | false =>
    cases hs : (w.bufs e.slot).lock.locked with
    | true =>
      refine ⟨(w.tick 1).put e.slot (w.bufs e.slot).pin, ?_, rfl⟩
      rw [installEntry, bind_error (blockRead_held h0 hs)]
    | false =>
      have hhome : env.null (w.reads + 1) = false ∧ (w.bufs e.home).lock.locked = true := by
        by_contra hcon
        refine h ⟨hne, hcs, hch, fun _ => hs, fun hn => ?_⟩
        rw [World.FreeAt]
        simpa [hn] using hcon
      have hbuf : (((w.tick 1).put e.slot (w.loaded env e.slot)).bufs e.home).lock.locked
          = true := by
        rw [put_of_ne _ hne.symm]
        exact hhome.2
      refine ⟨(((w.tick 1).put e.slot (w.loaded env e.slot)).tick 1).put e.home
        (((w.tick 1).put e.slot (w.loaded env e.slot)).bufs e.home).pin, ?_, rfl⟩
      rw [installEntry, bind_ok (blockRead_free h0 hcs hs)]
      exact bind_error (blockRead_held hhome.1 hbuf)

/-- A loop one of whose entries cannot run never returns; its writes go to home blocks. -/
theorem installTrans_stuck {env : Env} (recovering : Bool) : ∀ (es : List Entry) (w : World),
    Apart es → (∀ e ∈ es, w.CleanAt e.slot ∧ w.CleanAt e.home) →
    ¬ (∀ i e, es[i]? = some e → Runnable env (w.reads + 2 * i) w e) →
    ∃ w' ws, (forM es (installEntry env recovering)).run w = .error .asleep w' ∧
      w'.writes = w.writes ++ ws ∧ ∀ x ∈ ws, ∃ e ∈ es, x.1 = e.home := by
  intro es
  induction es with
  | nil => intro w _ _ h; exact absurd (fun i e hi => absurd hi (by simp)) h
  | cons e₀ es ih =>
    intro w hap hclean h
    obtain ⟨hne, hslot, hhome, hap'⟩ := apart_cons.mp hap
    have hc₀ := hclean e₀ List.mem_cons_self
    rw [List.forM_cons]
    by_cases h₀ : Runnable env w.reads w e₀
    · have hframe : ∀ e ∈ es,
          SameAt w (w.afterEntry env false (if recovering then 0 else 1) e₀) e.slot ∧
          SameAt w (w.afterEntry env false (if recovering then 0 else 1) e₀) e.home := by
        intro e he
        exact ⟨afterEntry_frame _ _ _ _ _ (hslot e he).1.symm (hhome e he).1.symm,
          afterEntry_frame _ _ _ _ _ (hslot e he).2.symm (hhome e he).2.symm⟩
      obtain ⟨us, hus, -, hua⟩ :=
        afterEntry_writes env false (if recovering then 0 else 1) w e₀
      have hclean' : ∀ e ∈ es,
          (w.afterEntry env false (if recovering then 0 else 1) e₀).CleanAt e.slot ∧
          (w.afterEntry env false (if recovering then 0 else 1) e₀).CleanAt e.home := by
        intro e he
        have hc := hclean e (List.mem_cons_of_mem _ he)
        exact ⟨(hframe e he).1.clean hc.1, (hframe e he).2.clean hc.2⟩
      have hstuck : ¬ ∀ i e, es[i]? = some e →
          Runnable env ((w.afterEntry env false (if recovering then 0 else 1) e₀).reads + 2 * i)
            (w.afterEntry env false (if recovering then 0 else 1) e₀) e := by
        intro hall
        refine h ?_
        intro i e hi
        cases i with
        | zero =>
          rw [List.getElem?_cons_zero, Option.some.injEq] at hi
          subst hi
          exact h₀
        | succ i =>
          rw [List.getElem?_cons_succ] at hi
          have he := List.mem_of_getElem? hi
          have hr := (hall i e hi).congr (hframe e he).1.symm (hframe e he).2.symm
          rw [afterEntry_reads] at hr
          rw [show w.reads + 2 * (i + 1) = w.reads + 2 + 2 * i by omega]
          exact hr
      obtain ⟨w', ws, hrun, hws, hwa⟩ := ih _ hap' hclean' hstuck
      refine ⟨w', us ++ ws, ?_, by rw [hws, hus, List.append_assoc], ?_⟩
      · rw [bind_ok (installEntry_run recovering h₀), hrun]
      · intro x hx
        rcases List.mem_append.mp hx with hx | hx
        · exact ⟨e₀, List.mem_cons_self, hua x hx⟩
        · obtain ⟨e, he, hxe⟩ := hwa x hx
          exact ⟨e, List.mem_cons_of_mem _ he, hxe⟩
    · obtain ⟨w', hrun, hw'⟩ := installEntry_stuck recovering hne hc₀.1 hc₀.2 h₀
      exact ⟨w', [], bind_error hrun, by simp [hw'], by simp⟩

/-! ## 4. The run of a commit -/

/-- What slot `t` holds after `write_log`. -/
def slotContents (env : Env) (l : Log) (w : World) (t : Nat) (a : BlockNo) : Block :=
  if toNull env w t = false ∧ fromNull env w t = false then w.view a else w.disk (l.slot t)

/-- What `write_log` leaves at entry `t`, the block `a`. -/
structure AfterFill (env : Env) (l : Log) (w : World) (t : Nat) (a : BlockNo) (w' : World) :
    Prop where
  slotDisk : w'.disk (l.slot t) = slotContents env l w t a
  slotView : w'.view (l.slot t) = slotContents env l w t a
  homeDisk : w'.disk a = w.disk a
  slotFree : w'.FreeAt (l.slot t) ↔ ¬ (toNull env w t = false ∧ fromNull env w t = true)
  homeFree : w'.FreeAt a ↔ ¬ (toNull env w t = true ∧ fromNull env w t = false)
  slotClean : w'.CleanAt (l.slot t)
  homeClean : w'.CleanAt a

theorem AfterFill.congr {env : Env} {l : Log} {w w' w'' : World} {t : Nat} {a : BlockNo}
    (h : AfterFill env l w t a w') (hs : SameAt w' w'' (l.slot t)) (hh : SameAt w' w'' a) :
    AfterFill env l w t a w'' where
  slotDisk := hs.disk.trans h.slotDisk
  slotView := hs.view.trans h.slotView
  homeDisk := hh.disk.trans h.homeDisk
  slotFree := ⟨fun hf => h.slotFree.mp (hs.symm.free hf), fun hf => hs.free (h.slotFree.mpr hf)⟩
  homeFree := ⟨fun hf => h.homeFree.mp (hh.symm.free hf), fun hf => hh.free (h.homeFree.mpr hf)⟩
  slotClean := hs.clean h.slotClean
  homeClean := hh.clean h.homeClean

section Filling

variable {env : Env} {l : Log} {w : World} {t : Nat} {a : BlockNo}

/-- Neither buffer: nothing is done. -/
theorem afterFill_neither (h : Ready (· ∈ l.lh) w) (hs : l.slot t ∉ l.lh)
    (hto : toNull env w t = true) (hfrom : fromNull env w t = true) :
    AfterFill env l w t a ((w.tick (2 * t)).tick 2) := by
  have hfs : (w.bufs (l.slot t)).lock.locked = false := h.free _
  have hfa : (w.bufs a).lock.locked = false := h.free _
  have hslot : slotContents env l w t a = w.disk (l.slot t) := by simp [slotContents, hto]
  refine ⟨hslot.symm, ?_, rfl, ?_, ?_, h.clean (l.slot t), h.clean a⟩
  · rw [hslot, tick_view, tick_view]
    exact h.synced _ hs
  · simp [World.FreeAt, hto, hfs]
  · simp [World.FreeAt, hfrom, hfa]

/-- The buffer of the home block only, which is kept. -/
theorem afterFill_home (h : Ready (· ∈ l.lh) w) (hs : l.slot t ∉ l.lh) (hne : l.slot t ≠ a)
    (hto : toNull env w t = true) (hfrom : fromNull env w t = false) :
    AfterFill env l w t a (((w.tick (2 * t)).tick 2).put a ((w.tick (2 * t)).loaded env a)) := by
  have hfs : (w.bufs (l.slot t)).lock.locked = false := h.free _
  have hslot : slotContents env l w t a = w.disk (l.slot t) := by simp [slotContents, hto]
  refine ⟨hslot.symm, ?_, rfl, ?_, ?_, ?_, ?_⟩
  · rw [view_put_of_ne _ hne, hslot, tick_view, tick_view]
    exact h.synced _ hs
  · rw [World.FreeAt, put_of_ne _ hne]
    simp [hto, hfs]
  · simp [World.FreeAt, World.loaded, Env.lock, hto, hfrom]
  · rw [World.CleanAt, put_of_ne _ hne, view_put_of_ne _ hne]
    exact h.clean (l.slot t)
  · intro hr
    rw [put_self] at hr
    exact absurd hr (Nat.succ_ne_zero _)

/-- The buffer of the slot only, which is kept. -/
theorem afterFill_slot (h : Ready (· ∈ l.lh) w) (hs : l.slot t ∉ l.lh) (hne : l.slot t ≠ a)
    (hto : toNull env w t = false) (hfrom : fromNull env w t = true) :
    AfterFill env l w t a
      (((w.tick (2 * t)).tick 2).put (l.slot t) ((w.tick (2 * t)).loaded env (l.slot t))) := by
  have hfa : (w.bufs a).lock.locked = false := h.free _
  have hslot : slotContents env l w t a = w.disk (l.slot t) := by simp [slotContents, hfrom]
  refine ⟨hslot.symm, ?_, rfl, ?_, ?_, ?_, ?_⟩
  · rw [view_put_self _ _ _ rfl, hslot]
    exact h.synced _ hs
  · simp [World.FreeAt, World.loaded, Env.lock, hto, hfrom]
  · rw [World.FreeAt, put_of_ne _ hne.symm]
    simp [hto, hfa]
  · intro hr
    rw [put_self] at hr
    exact absurd hr (Nat.succ_ne_zero _)
  · rw [World.CleanAt, put_of_ne _ hne.symm, view_put_of_ne _ hne.symm]
    exact h.clean a

/-- Both buffers: the block is copied into the slot, which is written. -/
theorem afterFill_both (hpin : 0 < (w.bufs a).refcnt) (hne : l.slot t ≠ a)
    (hto : toNull env w t = false) (hfrom : fromNull env w t = false) :
    AfterFill env l w t a ((w.tick (2 * t)).copied a (l.slot t) 0) := by
  have hslot : slotContents env l w t a = w.view a := by simp [slotContents, hto, hfrom]
  have hdisk : ((w.tick (2 * t)).copied a (l.slot t) 0).disk (l.slot t) = w.view a := by
    rw [World.copied, put_disk, put_disk]
    exact Function.update_self _ _ _
  have hview : ((w.tick (2 * t)).copied a (l.slot t) 0).view (l.slot t) = w.view a :=
    view_put_self _ _ _ rfl
  have hhome : ((w.tick (2 * t)).copied a (l.slot t) 0).bufs a
      = ⟨true, w.view a, (w.bufs a).refcnt, sleeplockInit⟩ := by
    rw [World.copied, put_of_ne _ hne.symm, put_self]
    rfl
  refine ⟨hdisk.trans hslot.symm, hview.trans hslot.symm, Function.update_of_ne hne.symm _ _,
    ?_, ?_, fun _ => hview.trans hdisk.symm, ?_⟩
  · rw [World.FreeAt, World.copied, put_self]
    simp [sleeplockInit, hfrom]
  · rw [World.FreeAt, hhome]
    simp [sleeplockInit, hto]
  · intro hr
    rw [hhome] at hr
    simp only at hr
    omega

end Filling

/-- One entry of `write_log`, for each of the four answers of its reads. -/
theorem afterFill_entry (env : Env) {l : Log} {w : World} {t : Nat} {a : BlockNo}
    (h : Ready (· ∈ l.lh) w) (hs : l.slot t ∉ l.lh) (ha : a ∈ l.lh) :
    AfterFill env l w t a ((w.tick (2 * t)).afterEntry env true 0 ⟨l.slot t, a⟩) := by
  have hne : l.slot t ≠ a := fun e => hs (e ▸ ha)
  have h0 : env.null (w.tick (2 * t)).reads = toNull env w t := rfl
  have h1 : env.null ((w.tick (2 * t)).reads + 1) = fromNull env w t := rfl
  rw [World.afterEntry, h0, h1]
  cases hto : toNull env w t with
  | true =>
    cases hfrom : fromNull env w t with
    | true => exact afterFill_neither h hs hto hfrom
    | false => exact afterFill_home h hs hne hto hfrom
  | false =>
    cases hfrom : fromNull env w t with
    | true => exact afterFill_slot h hs hne hto hfrom
    | false => exact afterFill_both (h.pinned a ha) hne hto hfrom

section Run

variable {env : Env} {area : LogArea} {l : Log} {w : World}

theorem entries_getElem? {t : Nat} {a : BlockNo} (h : l.lh[t]? = some a) :
    (entries l)[t]? = some ⟨l.slot t, a⟩ := by
  rw [entries, List.getElem?_map, List.getElem?_zipIdx, h]
  simp

theorem entries_of_getElem? {t : Nat} {e : Entry} (h : (entries l)[t]? = some e) :
    ∃ a, l.lh[t]? = some a ∧ e = ⟨l.slot t, a⟩ := by
  rw [entries, List.getElem?_map, List.getElem?_zipIdx] at h
  cases ha : l.lh[t]? with
  | none => simp [ha] at h
  | some a =>
    simp only [ha, Option.map_some, Nat.zero_add, Option.some.injEq] at h
    exact ⟨a, rfl, h.symm⟩

theorem CommitReady.slot_notMem (h : CommitReady env area l w) {t : Nat}
    (ht : t < l.lh.length) : l.slot t ∉ l.lh := by
  intro hmem
  have := h.fits.length_le
  rw [h.of.slot] at hmem
  exact area.layout.slot_not_home t (by omega) (h.fits.homes _ hmem)

theorem CommitReady.header_notMem (h : CommitReady env area l w) : l.header ∉ l.lh := by
  rw [h.of.header]
  exact h.fits.header_notMem

theorem CommitReady.slot_ne_header (h : CommitReady env area l w) {t : Nat}
    (ht : t < l.lh.length) : l.slot t ≠ l.header := by
  have := h.fits.length_le
  rw [h.of.slot, h.of.header]
  exact area.layout.slot_ne_header t (by omega)

/-- No entry touches the header block. -/
theorem CommitReady.header_ne (h : CommitReady env area l w) :
    ∀ e ∈ entries l, l.header ≠ e.slot ∧ l.header ≠ e.home := by
  intro e he
  obtain ⟨t, ht⟩ := List.mem_iff_getElem?.mp he
  obtain ⟨a, ha, rfl⟩ := entries_of_getElem? ht
  refine ⟨(h.slot_ne_header (List.getElem?_eq_some_iff.mp ha).1).symm, ?_⟩
  rintro rfl
  exact h.header_notMem (List.mem_of_getElem? ha)

/-- `write_log` and the first `write_head`, whatever returns `NULL` in the first. -/
theorem fill_run (h : CommitReady env area l w) : ∃ w₁ w₂ ws v,
    (writeLog env l).run w = .ok () w₁ ∧ (writeHead env l).run w₁ = .ok () w₂ ∧
      getHead v = some l.lh ∧ w₂.writes = w.writes ++ (ws ++ [(l.header, v)]) ∧
      (∀ x ∈ ws, x.1 ≠ l.header) ∧ w₂.reads = w.reads + 2 * l.lh.length + 1 ∧
      w₂.CleanAt l.header ∧ w₂.FreeAt l.header ∧
      ∀ t a, l.lh[t]? = some a → AfterFill env l w t a w₂ ∧
        applyWrites w.disk ws (l.slot t) = slotContents env l w t a := by
  have hap := h.fits.apart h.of
  set w₁ := w.afterEntries env true 0 (entries l) with hw₁
  have hrun₁ : (writeLog env l).run w = .ok () w₁ :=
    loop_run env true 0 (fun w e he => writeLogEntry_run he) (entries l) w hap
      (fun i e he => h.ready.runnable _ (apart_ne hap (List.mem_of_getElem? he)))
  obtain ⟨ws, hwrites, hdisk, haddr⟩ := afterEntries_writes env true 0 (entries l) w
  have hreads₁ : w₁.reads = w.reads + 2 * l.lh.length := by
    rw [hw₁, afterEntries_reads, entries_length]
  have hhdr : SameAt w w₁ l.header := afterEntries_frame env true 0 (entries l) w h.header_ne
  have hrun₂ := writeHead_run env (w := w₁) (l := l) (by rw [hreads₁]; exact h.head)
    (hhdr.clean (h.ready.clean _)) (hhdr.free (h.ready.free _))
  refine ⟨w₁, _, ws, _, hrun₁, hrun₂, getHead_putHead (w₁.view l.header)
    h.fits.length_le_logSize, ?_, ?_, ?_, ?_, ?_, ?_⟩
  · rw [← List.append_assoc, ← hwrites]
    rfl
  · intro x hx
    obtain ⟨e, he, hxe⟩ := haddr x hx
    rw [hxe]
    exact (h.header_ne e he).1.symm
  · rw [put_reads]
    change w₁.reads + 1 = _
    rw [hreads₁]
  · intro _
    rw [view_put_self _ _ _ rfl]
    exact (Function.update_self _ _ w₁.disk).symm
  · rw [World.FreeAt, put_self]
    rfl
  · intro t a ha
    have hmem := List.mem_of_getElem? ha
    have hlt := (List.getElem?_eq_some_iff.mp ha).1
    have hfill := afterFill_entry env (t := t) h.ready (h.slot_notMem hlt) hmem
    have hslot := afterEntries_at env true 0 (entries l) w hap (entries_getElem? ha)
      (Or.inl (rfl : l.slot t = _))
    have hhome := afterEntries_at env true 0 (entries l) w hap (entries_getElem? ha)
      (Or.inr (rfl : a = _))
    have hfill₁ : AfterFill env l w t a w₁ := hfill.congr hslot hhome
    refine ⟨hfill₁.congr ?_ ?_, ?_⟩
    · have hne := h.slot_ne_header hlt
      exact ⟨put_of_ne _ hne _, Function.update_of_ne hne _ _⟩
    · have hne : a ≠ l.header := fun e => h.header_notMem (e ▸ hmem)
      exact ⟨put_of_ne _ hne _, Function.update_of_ne hne _ _⟩
    · rw [← hfill₁.slotDisk, hw₁, hdisk]

/-- An entry of `install_trans` runs exactly when `write_log` kept none of the buffers it
reads. -/
theorem runnable_iff_unblocked {w₂ : World} {t : Nat} {a : BlockNo}
    (hfill : AfterFill env l w t a w₂) (hne : l.slot t ≠ a)
    (hreads : w₂.reads = w.reads + 2 * l.lh.length + 1) :
    Runnable env (w₂.reads + 2 * t) w₂ ⟨l.slot t, a⟩ ↔ Unblocked env l w t := by
  have hlbuf : env.null (w₂.reads + 2 * t) = lbufNull env l w t := by rw [hreads, lbufNull]
  have hdbuf : env.null (w₂.reads + 2 * t + 1) = dbufNull env l w t := by rw [hreads, dbufNull]
  constructor
  · intro hrun
    have hs := hrun.freeSlot
    have hh := hrun.freeHome
    rw [hlbuf, hfill.slotFree] at hs
    rw [hdbuf, hfill.homeFree] at hh
    refine ⟨fun h0 h1 => ?_, fun h0 h1 => ?_⟩
    · rw [← Bool.not_eq_false]
      exact fun hn => hs hn ⟨h0, h1⟩
    · rw [← Bool.not_eq_false]
      exact fun hn => hh hn ⟨h0, h1⟩
  · rintro ⟨hs, hh⟩
    refine ⟨hne, hfill.slotClean, hfill.homeClean, fun hn => ?_, fun hn => ?_⟩
    · rw [hlbuf] at hn
      rw [hfill.slotFree]
      rintro ⟨h0, h1⟩
      rw [hs h0 h1] at hn
      exact absurd hn (by simp)
    · rw [hdbuf] at hn
      rw [hfill.homeFree]
      rintro ⟨h0, h1⟩
      rw [hh h0 h1] at hn
      exact absurd hn (by simp)

/-- The home block of an entry after `install_trans`. -/
theorem installed_disk {w₂ : World} {t : Nat} {a : BlockNo}
    (hreads : w₂.reads = w.reads + 2 * l.lh.length + 1) :
    ((w₂.tick (2 * t)).afterEntry env false 1 ⟨l.slot t, a⟩).disk a
      = if Installed env l w t then w₂.view (l.slot t) else w₂.disk a := by
  have hlbuf : env.null (w₂.tick (2 * t)).reads = lbufNull env l w t := by
    rw [tick_reads, hreads, lbufNull]
  have hdbuf : env.null ((w₂.tick (2 * t)).reads + 1) = dbufNull env l w t := by
    rw [tick_reads, hreads, dbufNull]
  rw [World.afterEntry, hlbuf, hdbuf]
  cases hlb : lbufNull env l w t <;> cases hdb : dbufNull env l w t
  · rw [if_pos ⟨hlb, hdb⟩]
    exact Function.update_self _ _ _
  · rw [if_neg (by simp [Installed, hdb])]
    rfl
  · rw [if_neg (by simp [Installed, hlb])]
    rfl
  · rw [if_neg (by simp [Installed, hlb])]
    rfl

/-! ## 5. Which patterns keep the promise -/

/-- In the writes of a commit only the first header announces anything. -/
theorem headerSound_iff {r : EStateM.Result Halt World Log} {ws : List (BlockNo × Block)}
    (us : List (BlockNo × Block)) {v : Block}
    (hwrites : (finalWorld r).writes = w.writes ++ (ws ++ (l.header, v) :: us))
    (hv : getHead v = some l.lh) (hws : ∀ x ∈ ws, x.1 ≠ l.header)
    (hus : ∀ v', (l.header, v') ∈ us → getHead v' = some []) :
    HeaderSound l w r ↔
      ∀ t a, l.lh[t]? = some a → applyWrites w.disk ws (l.slot t) = w.view a := by
  constructor
  · intro h t a ha
    exact h ws v us hwrites l.lh hv t a ha
  · intro h us' v' vs' hdec as has t a ha
    rw [hwrites, List.append_cancel_left_eq] at hdec
    rcases List.append_eq_append_iff.mp hdec with ⟨ys, hys, hcons⟩ | ⟨ys, hys, hcons⟩
    · cases ys with
      | nil =>
        -- the header write is the first one
        rw [List.nil_append, List.cons.injEq, Prod.mk.injEq] at hcons
        obtain ⟨⟨-, rfl⟩, -⟩ := hcons
        rw [List.append_nil] at hys
        subst hys
        rw [hv, Option.some.injEq] at has
        exact h t a (has ▸ ha)
      | cons y ys =>
        -- it comes after the first one, and announces nothing
        rw [List.cons_append, List.cons.injEq] at hcons
        have hmem : (l.header, v') ∈ us := by
          rw [hcons.2]
          exact List.mem_append_right _ List.mem_cons_self
        rw [hus v' hmem, Option.some.injEq] at has
        rw [← has] at ha
        exact absurd ha (by simp)
    · cases ys with
      | nil =>
        rw [List.nil_append, List.cons.injEq, Prod.mk.injEq] at hcons
        obtain ⟨⟨-, rfl⟩, -⟩ := hcons
        rw [List.append_nil] at hys
        subst hys
        rw [hv, Option.some.injEq] at has
        exact h t a (has ▸ ha)
      | cons y ys =>
        rw [List.cons_append, List.cons.injEq] at hcons
        refine absurd ?_ (hws (l.header, v') ?_)
        · rfl
        · rw [hys, hcons.1]
          exact List.mem_append_right _ List.mem_cons_self

theorem slotContents_eq_iff {t : Nat} {a : BlockNo} :
    slotContents env l w t a = w.view a ↔
      (toNull env w t = false ∧ fromNull env w t = false) ∨ w.disk (l.slot t) = w.view a := by
  rw [slotContents]
  split
  case isTrue h => exact ⟨fun _ => Or.inl h, fun _ => rfl⟩
  case isFalse h => exact ⟨Or.inr, fun h' => h'.resolve_left h⟩

/-- A property of all blocks of the log, by entries. -/
theorem forall_mem_iff_entries {p : BlockNo → Prop} {as : List BlockNo} :
    (∀ a ∈ as, p a) ↔ ∀ (t : Nat) a, as[t]? = some a → p a := by
  constructor
  · exact fun h t a ht => h a (List.mem_of_getElem? ht)
  · intro h a ha
    obtain ⟨t, ht⟩ := List.mem_iff_getElem?.mp ha
    exact h t a ht

/-- What a returned commit with filled slots promises, by entries. -/
theorem allOrNothing_iff {w' : World} (hdisk : ∀ t a, l.lh[t]? = some a →
      w'.disk a = if Installed env l w t then w.view a else w.disk a) :
    AllOrNothing l w (.ok (emptied l) w') ↔
      (∀ t a, l.lh[t]? = some a → Installed env l w t ∨ w.disk a = w.view a) ∨
        (∀ t a, l.lh[t]? = some a → ¬ Installed env l w t ∨ w.disk a = w.view a) := by
  have hall : (∀ a ∈ l.lh, w'.disk a = w.view a) ↔
      ∀ t a, l.lh[t]? = some a → Installed env l w t ∨ w.disk a = w.view a := by
    rw [forall_mem_iff_entries]
    refine forall_congr' fun t => forall_congr' fun a => forall_congr' fun ha => ?_
    rw [hdisk t a ha, ite_eq_left_iff]
    tauto
  have hnone : (∀ a ∈ l.lh, w'.disk a = w.disk a) ↔
      ∀ t a, l.lh[t]? = some a → ¬ Installed env l w t ∨ w.disk a = w.view a := by
    rw [forall_mem_iff_entries]
    refine forall_congr' fun t => forall_congr' fun a => forall_congr' fun ha => ?_
    rw [hdisk t a ha, ite_eq_right_iff, eq_comm]
    tauto
  rw [← hall, ← hnone]
  constructor
  · exact fun h => h _ _ rfl
  · intro h l' w'' hok
    rw [EStateM.Result.ok.injEq] at hok
    rw [← hok.2]
    exact h

/-- When `install_trans` gets through, a home block has the contents of its slot, or the ones it
had. -/
theorem install_run {w₂ : World} (h : CommitReady env area l w)
    (hreads : w₂.reads = w.reads + 2 * l.lh.length + 1) (hch : w₂.CleanAt l.header)
    (hfh : w₂.FreeAt l.header)
    (hfill : ∀ t a, l.lh[t]? = some a → AfterFill env l w t a w₂)
    (hun : ∀ t, t < l.lh.length → Unblocked env l w t) : ∃ w₃ w₄ ws v₀,
      (installTrans env false l).run w₂ = .ok () w₃ ∧
      (writeHead env (emptied l)).run w₃ = .ok () w₄ ∧ getHead v₀ = some [] ∧
      w₄.writes = w₂.writes ++ (ws ++ [(l.header, v₀)]) ∧ (∀ x ∈ ws, x.1 ≠ l.header) ∧
      ∀ t a, l.lh[t]? = some a → w₄.disk a
        = if Installed env l w t then slotContents env l w t a else w.disk a := by
  have hap := h.fits.apart h.of
  have hrunnable : ∀ i e, (entries l)[i]? = some e → Runnable env (w₂.reads + 2 * i) w₂ e := by
    intro i e hi
    obtain ⟨a, ha, rfl⟩ := entries_of_getElem? hi
    have hne := apart_ne hap (List.mem_of_getElem? hi)
    exact (runnable_iff_unblocked (hfill i a ha) hne hreads).mpr
      (hun i (List.getElem?_eq_some_iff.mp ha).1)
  set w₃ := w₂.afterEntries env false 1 (entries l) with hw₃
  have hrun₃ : (installTrans env false l).run w₂ = .ok () w₃ :=
    loop_run env false 1 (fun w e he => installEntry_run false he) (entries l) w₂ hap hrunnable
  obtain ⟨ws, hwrites, -, haddr⟩ := afterEntries_writes env false 1 (entries l) w₂
  have hreads₃ : w₃.reads = w.reads + 4 * l.lh.length + 1 := by
    rw [hw₃, afterEntries_reads, entries_length, hreads]
    omega
  have hhdr : SameAt w₂ w₃ l.header := afterEntries_frame env false 1 (entries l) w₂ h.header_ne
  have hrun₄ := writeHead_run env (w := w₃) (l := emptied l)
    (by rw [hreads₃]; exact h.clear) (hhdr.clean hch) (hhdr.free hfh)
  refine ⟨w₃, _, ws, _, hrun₃, hrun₄, getHead_putHead (w₃.view l.header) (Nat.zero_le _), ?_, ?_,
    ?_⟩
  · rw [← List.append_assoc, ← hwrites]
    rfl
  · intro x hx
    obtain ⟨e, he, hxe⟩ := haddr x hx
    rw [hxe]
    exact (h.header_ne e he).2.symm
  · intro t a ha
    have hne : a ≠ (emptied l).header := fun e => h.header_notMem (e ▸ List.mem_of_getElem? ha)
    have hhome := afterEntries_at env false 1 (entries l) w₂ hap (entries_getElem? ha)
      (Or.inr (rfl : a = _))
    change Function.update w₃.disk (emptied l).header _ a = _
    rw [Function.update_of_ne hne, hw₃, hhome.disk, installed_disk hreads,
      (hfill t a ha).slotView, (hfill t a ha).homeDisk]

/-- When `install_trans` reads a buffer that `write_log` kept, it sleeps for ever, after writes to
home blocks only. -/
theorem install_stuck {w₂ : World} (h : CommitReady env area l w)
    (hreads : w₂.reads = w.reads + 2 * l.lh.length + 1)
    (hfill : ∀ t a, l.lh[t]? = some a → AfterFill env l w t a w₂)
    (hun : ¬ ∀ t, t < l.lh.length → Unblocked env l w t) : ∃ w₃ ws,
      (installTrans env false l).run w₂ = .error .asleep w₃ ∧ w₃.writes = w₂.writes ++ ws ∧
      ∀ x ∈ ws, x.1 ≠ l.header := by
  have hap := h.fits.apart h.of
  have hclean : ∀ e ∈ entries l, w₂.CleanAt e.slot ∧ w₂.CleanAt e.home := by
    intro e he
    obtain ⟨t, ht⟩ := List.mem_iff_getElem?.mp he
    obtain ⟨a, ha, rfl⟩ := entries_of_getElem? ht
    exact ⟨(hfill t a ha).slotClean, (hfill t a ha).homeClean⟩
  have hstuck : ¬ ∀ i e, (entries l)[i]? = some e →
      Runnable env (w₂.reads + 2 * i) w₂ e := by
    intro hall
    refine hun ?_
    intro t ht
    have ha := List.getElem?_eq_getElem ht
    have he := entries_getElem? ha
    exact (runnable_iff_unblocked (hfill t _ ha) (apart_ne hap (List.mem_of_getElem? he))
      hreads).mp (hall t _ he)
  obtain ⟨w₃, ws, hrun, hwrites, haddr⟩ := installTrans_stuck false (entries l) w₂ hap hclean hstuck
  refine ⟨w₃, ws, hrun, hwrites, ?_⟩
  intro x hx
  obtain ⟨e, he, hxe⟩ := haddr x hx
  rw [hxe]
  exact (h.header_ne e he).2.symm

/-- With nothing to commit, there is no header to trust, and no block to install. -/
theorem commit_sound_of_empty (hne : l.lh = []) :
    HeaderSound l w ((commit env l).run w) ∧ AllOrNothing l w ((commit env l).run w) := by
  rw [commit_empty env hne]
  constructor
  · intro us v vs hw
    have := congrArg List.length hw
    simp only [finalWorld, List.length_append, List.length_cons] at this
    omega
  · intro l' w' _
    exact Or.inl (by simp [hne])

theorem Harmless.of_empty (hne : l.lh = []) : Harmless env l w where
  filled t a ha := by simp [hne] at ha
  installed _ := Or.inl (by simp [hne])

/-- **A commit keeps its promise exactly under the harmless patterns of `NULL`.** -/
theorem commit_sound_iff_harmless (h : CommitReady env area l w) :
    (HeaderSound l w ((commit env l).run w) ∧ AllOrNothing l w ((commit env l).run w)) ↔
      Harmless env l w := by
  by_cases hne : l.lh = []
  · exact iff_of_true (commit_sound_of_empty hne) (Harmless.of_empty hne)
  · obtain ⟨w₁, w₂, ws, v, hrun₁, hrun₂, hv, hwrites₂, hws, hreads₂, hch, hfh, hfill⟩ :=
      fill_run h
    have hpos : 0 < l.lh.length := List.length_pos_iff.mpr hne
    -- the slots, in terms of the pattern
    have hslots : (∀ t a, l.lh[t]? = some a → applyWrites w.disk ws (l.slot t) = w.view a) ↔
        ∀ t a, l.lh[t]? = some a →
          (toNull env w t = false ∧ fromNull env w t = false) ∨ w.disk (l.slot t) = w.view a := by
      refine forall_congr' fun t => forall_congr' fun a => forall_congr' fun ha => ?_
      rw [(hfill t a ha).2, slotContents_eq_iff]
    by_cases hun : ∀ t, t < l.lh.length → Unblocked env l w t
    · obtain ⟨w₃, w₄, us, v₀, hrun₃, hrun₄, hv₀, hwrites₄, hus, hdisk⟩ :=
        install_run h hreads₂ hch hfh (fun t a ha => (hfill t a ha).1) hun
      have hrun : (commit env l).run w = .ok (emptied l) w₄ := by
        rw [commit, if_pos hpos, bind_ok hrun₁, bind_ok hrun₂, bind_ok hrun₃, bind_ok hrun₄]
        rfl
      have hheader : HeaderSound l w ((commit env l).run w) ↔
          ∀ t a, l.lh[t]? = some a → applyWrites w.disk ws (l.slot t) = w.view a := by
        refine headerSound_iff (us ++ [(l.header, v₀)]) ?_ hv hws ?_
        · rw [hrun, finalWorld, hwrites₄, hwrites₂]
          simp
        · intro v' hv'
          rcases List.mem_append.mp hv' with hmem | hmem
          · exact absurd rfl (hus _ hmem)
          · rw [List.mem_singleton, Prod.mk.injEq] at hmem
            rw [hmem.2]
            exact hv₀
      -- with the slots filled, a block of the log is new exactly when it was installed
      have hpromise : (∀ t a, l.lh[t]? = some a → (toNull env w t = false ∧
            fromNull env w t = false) ∨ w.disk (l.slot t) = w.view a) →
          (AllOrNothing l w ((commit env l).run w) ↔
            (∀ t a, l.lh[t]? = some a → Installed env l w t ∨ w.disk a = w.view a) ∨
              (∀ t a, l.lh[t]? = some a → ¬ Installed env l w t ∨ w.disk a = w.view a)) := by
        intro hfilled
        rw [hrun]
        refine allOrNothing_iff ?_
        intro t a ha
        rw [hdisk t a ha, slotContents_eq_iff.mpr (hfilled t a ha)]
      rw [hheader, hslots]
      constructor
      · rintro ⟨hfilled, hpro⟩
        exact ⟨hfilled, fun _ => (hpromise hfilled).mp hpro⟩
      · intro hh
        exact ⟨hh.filled, (hpromise hh.filled).mpr (hh.installed hun)⟩
    · obtain ⟨w₃, us, hrun₃, hwrites₃, hus⟩ :=
        install_stuck h hreads₂ (fun t a ha => (hfill t a ha).1) hun
      have hrun : (commit env l).run w = .error .asleep w₃ := by
        rw [commit, if_pos hpos, bind_ok hrun₁, bind_ok hrun₂, bind_error hrun₃]
      have hheader : HeaderSound l w ((commit env l).run w) ↔
          ∀ t a, l.lh[t]? = some a → applyWrites w.disk ws (l.slot t) = w.view a := by
        refine headerSound_iff us ?_ hv hws (fun v' hv' => absurd rfl (hus _ hv'))
        rw [hrun, finalWorld, hwrites₃, hwrites₂]
        simp
      rw [hheader, hslots]
      constructor
      · rintro ⟨hfilled, -⟩
        exact ⟨hfilled, fun hall => absurd hall hun⟩
      · intro hh
        refine ⟨hh.filled, ?_⟩
        intro l' w' hok
        rw [hrun] at hok
        cases hok

end Run

/-! ## 6. The cache runs out at the first slot -/

/-- One block is logged, and the first read of `write_log` finds the cache exhausted. -/
def exhausted : Env := { pid := 1, null := fun r => r == 0, recycled := fun _ => false }

/-- The log of `exhausted`: block 100. -/
def oneLogged : Log :=
  { start := 2, size := logSize, outstanding := 0, committing := true, lh := [100] }

/-- A zeroed disk, with new contents of block 100 pinned in the cache. -/
def onePinned : World :=
  (World.boot fun _ _ => 0).put 100
    { valid := true, data := fun _ => 1, refcnt := 1, lock := sleeplockInit }

theorem onePinned_ready : CommitReady exhausted fsLog oneLogged onePinned where
  of := ⟨rfl, rfl⟩
  fits := by
    refine ⟨List.nodup_singleton _, by decide, ?_⟩
    intro a ha
    rw [List.mem_singleton.mp ha]
    simp [LogArea.layout, LogArea.Inside, fsLog, logSize, maxOpBlocks]
  ready := by
    refine (ready_boot fun _ _ => 0).change (b := 100) ?_ ?_ ?_ ?_ ?_
    · exact fun b hb => ⟨put_of_ne _ hb _, rfl⟩
    · rw [onePinned, World.FreeAt, put_self]
      rfl
    · intro _
      rw [onePinned, put_self]
      exact Nat.one_pos
    · exact fun h => absurd (List.mem_singleton_self _) h
    · intro b hb
      exact iff_of_false (fun hmem => hb (List.mem_singleton.mp hmem)) (fun hf => hf)
  head := rfl
  clear := rfl

theorem commit_sound_iff_harmless_exhausted :
    (HeaderSound oneLogged onePinned ((commit exhausted oneLogged).run onePinned) ∧
        AllOrNothing oneLogged onePinned ((commit exhausted oneLogged).run onePinned)) ↔
      Harmless exhausted oneLogged onePinned :=
  commit_sound_iff_harmless onePinned_ready

/-- The header is written, and announces block 100, over a slot that was never filled. -/
theorem commit_announces_empty_slot :
    ¬ ∀ (env : Env) (area : LogArea) (l : Log) (w : World), CommitReady env area l w →
      HeaderSound l w ((commit env l).run w) ∧ AllOrNothing l w ((commit env l).run w) := by
  intro h
  have hsound := (h exhausted fsLog oneLogged onePinned onePinned_ready).1
  have hwrites : (finalWorld ((commit exhausted oneLogged).run onePinned)).writes
      = onePinned.writes ++ ([] ++ (oneLogged.header, putHead (fun _ => 0) [100]) :: []) := rfl
  have hslot := hsound [] _ [] hwrites [100] (getHead_putHead _ (by decide)) 0 100 rfl
  have hbyte := congrFun hslot 0
  exact absurd hbyte (by decide)

end Lithium.Wal
