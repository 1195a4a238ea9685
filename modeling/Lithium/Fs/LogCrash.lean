/-
# The log survives crashes

Every commit of `log.c`, and every recovery, cut short at any disk write: what a later `log_init`
finds is the disk after all the commits that had returned, or after these and the whole of the
one in progress.

The disk is a redo-log store (`LogArea.layout`), and the runs of `commit` and of
`recover_from_log` perform exactly the writes of the commits and the replays studied in
`Lib/RedoLog.lean`; sections 2 and 3 prove that, with the cache between the code and the disk.
`block_read` returns a buffer each time, and the code runs in a process.
-/
import Lithium.Fs.LogCommit

namespace Lithium.Wal

open RedoLog

/-! ## 1. Layout and transactions -/

/-- The part of the disk `log_init` is given: a header, then `size - 1` slots. -/
structure LogArea where
  start : Nat
  size : Nat
  pos : 0 < size
  fits : start + size ≤ 2 ^ 31

/-- A block of the log area. -/
def LogArea.Inside (area : LogArea) (b : BlockNo) : Prop :=
  area.start ≤ b.toNat ∧ b.toNat < area.start + area.size

/-- The log of the code is at `area`. -/
structure LogArea.Of (area : LogArea) (l : Log) : Prop where
  start : l.start = area.start
  size : l.size = area.size

/-- The block `i` of the area. -/
theorem LogArea.toNat_block (area : LogArea) {i : Nat} (hi : i < area.size) :
    (BitVec.ofNat 32 (area.start + i)).toNat = area.start + i := by
  have := area.fits
  rw [BitVec.toNat_ofNat]
  omega

/-- The disk as a redo-log store: `log_write` lets no more blocks in than there are slots, and
than `log.lh.block` has entries. -/
def LogArea.layout (area : LogArea) : Layout BlockNo Block where
  header := BitVec.ofNat 32 area.start
  slot := fun t => BitVec.ofNat 32 (area.start + t + 1)
  capacity := min (area.size - 1) logSize
  home := fun b => ¬ area.Inside b
  decode := getHead
  slot_inj := by
    intro i j hi hj h
    have h' := congrArg BitVec.toNat h
    rw [Nat.add_assoc, Nat.add_assoc, area.toNat_block (by omega),
      area.toNat_block (by omega)] at h'
    omega
  slot_ne_header := by
    intro i hi h
    have h' := congrArg BitVec.toNat h
    rw [Nat.add_assoc, area.toNat_block (by omega)] at h'
    have h0 := area.toNat_block area.pos
    rw [Nat.add_zero] at h0
    omega
  header_not_home := by
    have h0 := area.toNat_block area.pos
    rw [Nat.add_zero] at h0
    have := area.pos
    exact fun h => h ⟨by omega, by omega⟩
  slot_not_home := by
    intro i hi h
    refine h ?_
    rw [LogArea.Inside, Nat.add_assoc, area.toNat_block (by omega)]
    omega

/-- What one commit is about: new contents for distinct home blocks outside the log, as many as
`log_write` records. -/
structure Txn (area : LogArea) where
  writes : List (BlockNo × Block)
  nodup : (writes.map Prod.fst).Nodup
  outside : ∀ x ∈ writes, ¬ area.Inside x.1
  length_le : writes.length ≤ min (area.size - 1) logSize

/-- One block of a transaction, as the file system changes it: read, modify, `log_write`,
release. -/
def updateBlock (env : Env) (l : Log) (x : BlockNo × Block) : BlockM Log := do
  match ← blockRead env x.1 with
  | none => pure l
  | some buf =>
    setData buf x.2
    let (l, r) := l.write buf
    if r = .recorded then bufPin buf else pure ()
    blockRelease env buf
    pure l

/-- `log_begin_op`, the updates, `log_end_op`. -/
def transact (env : Env) (l : Log) (writes : List (BlockNo × Block)) : BlockM Log := do
  match l.beginOp with
  | none => throw .asleep
  | some l =>
    let l ← writes.foldlM (updateBlock env) l
    logEndOp env l

/-- Boot, then one transaction after the other. -/
def bootAndRun (env : Env) (area : LogArea) (txs : List (Txn area)) : BlockM Log := do
  let l ← logInit env area.start area.size
  txs.foldlM (fun l tx => transact env l tx.writes) l

/-- The disk writes a call performs, whether it returns or not. -/
def writesOf {α : Type} (m : BlockM α) (w : World) : List (BlockNo × Block) :=
  (finalWorld (m.run w)).writes.drop w.writes.length

/-- The process runs, and `block_read` never returns `NULL`. -/
def Env.steady (pid : Pid) (recycled : Nat → Bool) : Env :=
  { pid := pid, null := fun _ => false, recycled := recycled }

/-- The disk after a crash, with the number of transactions whose commit had returned: in the
first boot, in the commit of the next transaction, at rest, or in a recovery. -/
inductive Crashed (env : Env) (area : LogArea) (d₀ : Disk) (txs : List (Txn area)) :
    Nat → Disk → Prop where
  | booting (k : Nat) : Crashed env area d₀ txs 0
      (applyWrites d₀ ((writesOf (logInit env area.start area.size) (World.boot d₀)).take k))
  | committing {i : Nat} {l : Log} {w : World} (hi : i < txs.length)
      (hrun : (bootAndRun env area (txs.take i)).run (World.boot d₀) = .ok l w) (k : Nat) :
      Crashed env area d₀ txs i
        (applyWrites w.disk ((writesOf (transact env l txs[i].writes) w).take k))
  | resting {l : Log} {w : World}
      (hrun : (bootAndRun env area txs).run (World.boot d₀) = .ok l w) :
      Crashed env area d₀ txs txs.length w.disk
  | recovering {i : Nat} {d : Disk} (hd : Crashed env area d₀ txs i d) (pid : Pid)
      (recycled : Nat → Bool) (k : Nat) : Crashed env area d₀ txs i
      (applyWrites d ((writesOf (logInit (Env.steady pid recycled) area.start area.size)
        (World.boot d)).take k))

/-- The disk after a list of transactions, each performed as a whole. -/
def performed (d₀ : Disk) {area : LogArea} (txs : List (Txn area)) : Disk :=
  txs.foldl (fun d tx => applyWrites d tx.writes) d₀

/-! ## 2. Worlds between calls -/

/-- No buffer is held, those of `P` are pinned, and every other block shows what is on the
disk. -/
structure Ready (P : BlockNo → Prop) (w : World) : Prop where
  free : ∀ b, w.FreeAt b
  pinned : ∀ b, P b → 0 < (w.bufs b).refcnt
  synced : ∀ b, ¬ P b → w.view b = w.disk b

section Ready

variable {P Q : BlockNo → Prop} {w : World} {env : Env}

theorem ready_boot (d : Disk) : Ready (fun _ => False) (World.boot d) where
  free := fun _ => rfl
  pinned := fun _ h => h.elim
  synced := fun _ _ => rfl

theorem Ready.clean (h : Ready P w) (b : BlockNo) : w.CleanAt b := by
  intro hr
  refine h.synced b ?_
  intro hP
  have := h.pinned b hP
  omega

theorem Ready.congr (h : Ready P w) (hPQ : ∀ b, Q b ↔ P b) : Ready Q w where
  free := h.free
  pinned := fun b hb => h.pinned b ((hPQ b).mp hb)
  synced := fun b hb => h.synced b (fun hP => hb ((hPQ b).mpr hP))

theorem Ready.runnable (h : Ready P w) (r : Nat) {e : Entry} (hne : e.slot ≠ e.home) :
    Runnable env r w e :=
  ⟨hne, h.clean _, h.clean _, fun _ => h.free _, fun _ => h.free _⟩

/-- A block that is copied out of the cache to the disk is in step with it. -/
theorem Ready.copied (h : Ready P w) {src dst : BlockNo} (hne : src ≠ dst) (drop : Nat) :
    Ready (fun b => P b ∧ b ≠ dst) (w.copied src dst drop) := by
  have hother : ∀ b, b ≠ src → b ≠ dst → SameAt w (w.copied src dst drop) b := by
    intro b hs hd
    refine ⟨?_, Function.update_of_ne hd _ _⟩
    rw [World.copied, put_of_ne _ hd, put_of_ne _ hs]
    rfl
  have hdst : (w.copied src dst drop).bufs dst
      = ⟨true, w.view src, (w.bufs dst).refcnt - drop, sleeplockInit⟩ := put_self _ _ _
  have hsrc : (w.copied src dst drop).bufs src
      = ⟨true, w.view src, (w.bufs src).refcnt, sleeplockInit⟩ := by
    rw [World.copied, put_of_ne _ hne, put_self]
  have hdisk : (w.copied src dst drop).disk src = w.disk src := Function.update_of_ne hne _ _
  refine ⟨?_, ?_, ?_⟩
  · intro b
    by_cases hd : b = dst
    · rw [hd, World.FreeAt, hdst]
      rfl
    · by_cases hs : b = src
      · rw [hs, World.FreeAt, hsrc]
        rfl
      · exact (hother b hs hd).free (h.free b)
  · rintro b ⟨hP, hd⟩
    by_cases hs : b = src
    · rw [hs, hsrc]
      exact h.pinned src (hs ▸ hP)
    · rw [(hother b hs hd).bufs]
      exact h.pinned b hP
  · intro b hb
    by_cases hd : b = dst
    · rw [hd, World.view, hdst, if_pos rfl]
      exact (Function.update_self dst _ w.disk).symm
    · have hP : ¬ P b := fun hP => hb ⟨hP, hd⟩
      by_cases hs : b = src
      · rw [hs, World.view, hsrc, if_pos rfl, hdisk]
        exact h.synced src (hs ▸ hP)
      · rw [(hother b hs hd).view, (hother b hs hd).disk]
        exact h.synced b hP

/-- A change to one block, which is in step again afterwards. -/
theorem Ready.change (h : Ready P w) {w' : World} {b : BlockNo}
    (hother : ∀ b', b' ≠ b → SameAt w w' b') (hfree : w'.FreeAt b)
    (hpin : Q b → 0 < (w'.bufs b).refcnt) (hsync : ¬ Q b → w'.view b = w'.disk b)
    (hQ : ∀ b', b' ≠ b → (Q b' ↔ P b')) : Ready Q w' := by
  refine ⟨?_, ?_, ?_⟩
  · intro b'
    by_cases hb : b' = b
    · exact hb ▸ hfree
    · exact (hother b' hb).free (h.free b')
  · intro b' hP
    by_cases hb : b' = b
    · subst hb
      exact hpin hP
    · rw [(hother b' hb).bufs]
      exact h.pinned b' ((hQ b' hb).mp hP)
  · intro b' hP
    by_cases hb : b' = b
    · subst hb
      exact hsync hP
    · rw [(hother b' hb).view, (hother b' hb).disk]
      exact h.synced b' (fun hP' => hP ((hQ b' hb).mpr hP'))

/-- With no `NULL` in the way, every entry is copied. -/
theorem afterEntry_steady (hnull : ∀ r, env.null r = false) (toSlot : Bool) (drop : Nat)
    (w : World) (e : Entry) :
    w.afterEntry env toSlot drop e = w.copied (e.src toSlot) (e.dst toSlot) drop := by
  rw [World.afterEntry, hnull, hnull]

theorem Entry.src_ne_dst {e : Entry} (h : e.slot ≠ e.home) (toSlot : Bool) :
    e.src toSlot ≠ e.dst toSlot := by
  cases toSlot
  · exact h
  · exact h.symm

/-- What a loop without `NULL` does: the writes, and the blocks it brings in step. -/
theorem Ready.afterEntries (hnull : ∀ r, env.null r = false) (toSlot : Bool) (drop : Nat) :
    ∀ (es : List Entry) {P : BlockNo → Prop} {w : World}, Ready P w → Apart es →
      Ready (fun b => P b ∧ ∀ e ∈ es, b ≠ e.dst toSlot) (w.afterEntries env toSlot drop es) ∧
      (w.afterEntries env toSlot drop es).writes
        = w.writes ++ es.map (fun e => (e.dst toSlot, w.view (e.src toSlot))) ∧
      (w.afterEntries env toSlot drop es).disk
        = applyWrites w.disk (es.map fun e => (e.dst toSlot, w.view (e.src toSlot))) := by
  intro es
  induction es with
  | nil =>
    intro P w h _
    exact ⟨h.congr fun b => by simp, by simp [World.afterEntries], rfl⟩
  | cons e es ih =>
    intro P w h hap
    obtain ⟨hne, hslot, hhome, hap'⟩ := apart_cons.mp hap
    have hcop := h.copied (e.src_ne_dst hne toSlot) drop
    rw [← afterEntry_steady hnull toSlot drop w e] at hcop
    obtain ⟨hready, hwrites, hdisk⟩ := ih hcop hap'
    -- the later entries read what they would have read before
    have hview : es.map (fun e' => (e'.dst toSlot,
          (w.afterEntry env toSlot drop e).view (e'.src toSlot)))
        = es.map (fun e' => (e'.dst toSlot, w.view (e'.src toSlot))) := by
      refine List.map_congr_left ?_
      intro e' he'
      have hframe : SameAt w (w.afterEntry env toSlot drop e) (e'.src toSlot) := by
        cases toSlot
        · exact afterEntry_frame _ _ _ _ _ (hslot e' he').1.symm (hhome e' he').1.symm
        · exact afterEntry_frame _ _ _ _ _ (hslot e' he').2.symm (hhome e' he').2.symm
      rw [hframe.view]
    rw [hview] at hwrites hdisk
    refine ⟨hready.congr ?_, ?_, ?_⟩
    · intro b
      simp only [List.mem_cons, forall_eq_or_imp, and_assoc]
    · rw [World.afterEntries, List.foldl_cons]
      rw [World.afterEntries] at hwrites
      rw [hwrites, afterEntry_steady hnull]
      simp [World.copied, World.stored]
    · rw [World.afterEntries, List.foldl_cons]
      rw [World.afterEntries] at hdisk
      rw [hdisk, afterEntry_steady hnull]
      rfl

/-- `write_head`, between calls. -/
theorem Ready.writeHead (hnull : ∀ r, env.null r = false) (h : Ready P w) {l : Log}
    (hhdr : ¬ P l.header) : ∃ w', (writeHead env l).run w = .ok () w' ∧ Ready P w' ∧
      w'.writes = w.writes ++ [(l.header, putHead (w.view l.header) l.lh)] ∧
      w'.disk = Function.update w.disk l.header (putHead (w.view l.header) l.lh) ∧
      ∀ b, b ≠ l.header → SameAt w w' b := by
  have hrun := writeHead_run env (l := l) (hnull w.reads) (h.clean l.header)
    (h.free l.header)
  have hother : ∀ b, b ≠ l.header → SameAt w _ b := fun b hb =>
    ⟨put_of_ne (((w.tick 1).stored l.header (putHead (w.view l.header) l.lh))) hb
      ⟨true, putHead (w.view l.header) l.lh, (w.bufs l.header).refcnt, sleeplockInit⟩,
      Function.update_of_ne hb _ _⟩
  refine ⟨_, hrun, h.change hother ?_ (fun hP => absurd hP hhdr) ?_ (fun _ _ => Iff.rfl),
    rfl, rfl, hother⟩
  · rw [World.FreeAt, put_self]
    rfl
  · intro _
    rw [view_put_self _ _ _ rfl]
    exact (Function.update_self _ _ w.disk).symm

/-- `read_head`, between calls. -/
theorem Ready.readHead (hnull : ∀ r, env.null r = false) (h : Ready P w) {l : Log}
    (hhdr : ¬ P l.header) (lh : List BlockNo) (hget : getHead (w.disk l.header) = some lh) :
    ∃ w', (readHead env l).run w = .ok { l with lh := lh } w' ∧ Ready P w' ∧
      w'.writes = w.writes ∧ w'.disk = w.disk := by
  have hview := h.synced l.header hhdr
  rw [← hview] at hget
  have hrun := readHead_run env (hnull w.reads) (h.clean l.header) (h.free l.header) hget
  refine ⟨_, hrun, h.change (b := l.header) ?_ ?_ (fun hP => absurd hP hhdr) ?_
    (fun _ _ => Iff.rfl), rfl, rfl⟩
  · exact fun b hb => ⟨put_of_ne _ hb _, rfl⟩
  · rw [World.FreeAt, put_self]
    rfl
  · intro _
    rw [view_put_self _ _ _ rfl]
    exact hview

end Ready

/-! ## 3. The runs of the log code are commits and replays -/

section Runs

variable {env : Env} {area : LogArea} {l : Log} {w : World}

theorem LogArea.Of.header (h : area.Of l) : l.header = area.layout.header := by
  rw [Log.header, h.start]
  rfl

theorem LogArea.Of.slot (h : area.Of l) (t : Nat) : l.slot t = area.layout.slot t := by
  rw [Log.slot, h.start]
  rfl

/-- The entries of the log, with the slots named by the layout. -/
theorem LogArea.Of.entries (h : area.Of l) :
    entries l = l.lh.zipIdx.map fun p => ⟨area.layout.slot p.2, p.1⟩ := by
  rw [Wal.entries]
  exact List.map_congr_left fun p _ => by rw [h.slot]

/-- The log can be committed: its blocks are distinct home blocks, and have a slot each. -/
structure LogArea.Fits (area : LogArea) (as : List BlockNo) : Prop where
  nodup : as.Nodup
  length_le : as.length ≤ area.layout.capacity
  homes : ∀ a ∈ as, area.layout.home a

/-- Distinct home blocks with a slot each make entries that do not meet. -/
theorem apart_zipIdx (L : Layout BlockNo Block) : ∀ (as : List BlockNo) (k : Nat), as.Nodup →
    k + as.length ≤ L.capacity → (∀ a ∈ as, L.home a) →
    Apart ((as.zipIdx k).map fun p => ⟨L.slot p.2, p.1⟩) := by
  intro as
  induction as with
  | nil => intro k _ _ _; exact List.nodup_nil
  | cons a as ih =>
    intro k hnd hlen hhome
    rw [List.nodup_cons] at hnd
    rw [List.length_cons] at hlen
    rw [List.zipIdx_cons, List.map_cons, apart_cons]
    have ha : L.home a := hhome a List.mem_cons_self
    have hrest : ∀ e ∈ (as.zipIdx (k + 1)).map (fun p => (⟨L.slot p.2, p.1⟩ : Entry)),
        ∃ t, k < t ∧ t < L.capacity ∧ e.slot = L.slot t ∧ e.home ∈ as := by
      intro e he
      obtain ⟨p, hp, rfl⟩ := List.mem_map.mp he
      obtain ⟨h1, h2, h3⟩ := List.mem_zipIdx hp
      exact ⟨p.2, by omega, by omega, rfl, h3 ▸ List.getElem_mem _⟩
    refine ⟨(L.home_ne_slot ha (by omega)).symm, ?_, ?_, ?_⟩
    · intro e he
      obtain ⟨t, hkt, htc, hslot, hmem⟩ := hrest e he
      refine ⟨?_, (L.home_ne_slot (hhome _ (List.mem_cons_of_mem _ hmem)) (by omega)).symm⟩
      rw [hslot]
      intro heq
      have := L.slot_inj k t (by omega) htc heq
      omega
    · intro e he
      obtain ⟨t, hkt, htc, hslot, hmem⟩ := hrest e he
      refine ⟨hslot ▸ L.home_ne_slot ha htc, ?_⟩
      rintro rfl
      exact hnd.1 hmem
    · exact ih (k + 1) hnd.2 (by omega) (fun a' ha' => hhome a' (List.mem_cons_of_mem _ ha'))

theorem LogArea.Fits.apart (hfit : area.Fits l.lh) (hof : area.Of l) : Apart (entries l) := by
  rw [hof.entries]
  exact apart_zipIdx area.layout l.lh 0 hfit.nodup (by have := hfit.length_le; omega) hfit.homes

theorem LogArea.Fits.length_le_logSize {as : List BlockNo} (hfit : area.Fits as) :
    as.length ≤ logSize := by
  have := hfit.length_le
  have : area.layout.capacity ≤ logSize := Nat.min_le_right _ _
  omega

theorem LogArea.Fits.header_notMem {as : List BlockNo} (hfit : area.Fits as) :
    area.layout.header ∉ as := fun h => area.layout.header_not_home (hfit.homes _ h)

/-- `install_trans`, between calls: every slot is copied home. -/
theorem Ready.install {P : BlockNo → Prop} (hnull : ∀ r, env.null r = false) (h : Ready P w)
    (hof : area.Of l) (hfit : area.Fits l.lh) (hP : ∀ b, P b → b ∈ l.lh) (recovering : Bool) :
    ∃ w', (installTrans env recovering l).run w = .ok () w' ∧ Ready (fun _ => False) w' ∧
      w'.writes = w.writes ++ l.lh.zipIdx.map (fun p => (p.1, w.disk (area.layout.slot p.2))) ∧
      w'.disk = applyWrites w.disk
        (l.lh.zipIdx.map fun p => (p.1, w.disk (area.layout.slot p.2))) := by
  have hap := hfit.apart hof
  have hrun := loop_run env false (if recovering then 0 else 1)
    (fun w e he => installEntry_run recovering he) (entries l) w hap
    (fun i e he => h.runnable _ (apart_ne hap (List.mem_of_getElem? he)))
  obtain ⟨hready, hwrites, hdisk⟩ := h.afterEntries hnull false (if recovering then 0 else 1)
    (entries l) hap
  have hws : (entries l).map (fun e => (e.dst false, w.view (e.src false)))
      = l.lh.zipIdx.map fun p => (p.1, w.disk (area.layout.slot p.2)) := by
    rw [hof.entries, List.map_map]
    refine List.map_congr_left ?_
    intro p hp
    have ht := List.mem_zipIdx_iff_getElem?.mp hp
    have hlt : p.2 < area.layout.capacity := by
      have := (List.getElem?_eq_some_iff.mp ht).1
      have := hfit.length_le
      omega
    have hslot : ¬ P (area.layout.slot p.2) := fun hPs =>
      area.layout.slot_not_home p.2 hlt (hfit.homes _ (hP _ hPs))
    exact congrArg (Prod.mk p.1) (h.synced _ hslot)
  rw [hws] at hwrites hdisk
  refine ⟨_, hrun, hready.congr ?_, hwrites, hdisk⟩
  intro b
  refine ⟨False.elim, ?_⟩
  rintro ⟨hb, hne⟩
  obtain ⟨t, ht⟩ := List.mem_iff_getElem?.mp (hP b hb)
  refine hne ⟨area.layout.slot t, b⟩ ?_ rfl
  rw [hof.entries]
  exact List.mem_map.mpr ⟨(b, t), List.mem_zipIdx_iff_getElem?.mpr ht, rfl⟩

/-- `write_log`, between calls: every slot is filled. -/
theorem Ready.writeLog (hnull : ∀ r, env.null r = false) (h : Ready (· ∈ l.lh) w)
    (hof : area.Of l) (hfit : area.Fits l.lh) :
    ∃ w', (writeLog env l).run w = .ok () w' ∧ Ready (· ∈ l.lh) w' ∧
      w'.writes = w.writes ++ area.layout.slotWrites w.view l.lh ∧
      w'.disk = applyWrites w.disk (area.layout.slotWrites w.view l.lh) := by
  have hap := hfit.apart hof
  have hrun := loop_run env true 0 (fun w e he => writeLogEntry_run he) (entries l) w hap
    (fun i e he => h.runnable _ (apart_ne hap (List.mem_of_getElem? he)))
  obtain ⟨hready, hwrites, hdisk⟩ := h.afterEntries hnull true 0 (entries l) hap
  have hws : (entries l).map (fun e => (e.dst true, w.view (e.src true)))
      = area.layout.slotWrites w.view l.lh := by
    rw [hof.entries, List.map_map]
    rfl
  rw [hws] at hwrites hdisk
  refine ⟨_, hrun, hready.congr ?_, hwrites, hdisk⟩
  intro b
  refine ⟨fun hb => ⟨hb, ?_⟩, fun hb => hb.1⟩
  intro e he
  rw [hof.entries] at he
  obtain ⟨p, hp, rfl⟩ := List.mem_map.mp he
  have hlt := (List.getElem?_eq_some_iff.mp (List.mem_zipIdx_iff_getElem?.mp hp)).1
  exact area.layout.home_ne_slot (hfit.homes b hb) (by have := hfit.length_le; omega)

/-- **`commit` is a commit.**  It returns, and its disk writes fill the slots, announce them,
copy them home and empty the log. -/
theorem commit_run (hnull : ∀ r, env.null r = false) (hof : area.Of l) (hfit : area.Fits l.lh)
    (hne : l.lh ≠ []) (h : Ready (· ∈ l.lh) w) : ∃ w' v v₀,
    (commit env l).run w = .ok (emptied l) w' ∧ Ready (fun _ => False) w' ∧
      getHead v = some l.lh ∧ getHead v₀ = some [] ∧
      w'.writes = w.writes ++ area.layout.commitWrites w.disk w.view l.lh v v₀ ∧
      w'.disk = applyWrites w.disk (area.layout.commitWrites w.disk w.view l.lh v v₀) := by
  have hhdr : l.header = area.layout.header := hof.header
  have hhdr' : (emptied l).header = area.layout.header := hhdr
  have hhdr_notMem : l.header ∉ l.lh := hhdr ▸ hfit.header_notMem
  obtain ⟨w₁, hrun₁, hready₁, hwrites₁, hdisk₁⟩ := h.writeLog hnull hof hfit
  obtain ⟨w₂, hrun₂, hready₂, hwrites₂, hdisk₂, -⟩ := hready₁.writeHead hnull hhdr_notMem
  obtain ⟨w₃, hrun₃, hready₃, hwrites₃, hdisk₃⟩ :=
    hready₂.install hnull hof hfit (fun _ hb => hb) false
  obtain ⟨w₄, hrun₄, hready₄, hwrites₄, hdisk₄, -⟩ :=
    hready₃.writeHead hnull (l := emptied l) (fun hf => hf)
  rw [hhdr] at hwrites₂ hdisk₂
  rw [hhdr'] at hwrites₄ hdisk₄
  refine ⟨w₄, putHead (w₁.view area.layout.header) l.lh, putHead (w₃.view area.layout.header) [],
    ?_, hready₄, getHead_putHead _ hfit.length_le_logSize, getHead_putHead _ (Nat.zero_le _),
    ?_, ?_⟩
  · rw [commit, if_pos (List.length_pos_iff.mpr hne), bind_ok hrun₁, bind_ok hrun₂, bind_ok hrun₃,
      bind_ok hrun₄]
    rfl
  · rw [hwrites₄, hwrites₃, hwrites₂, hwrites₁, hdisk₂, hdisk₁, Layout.commitWrites,
      Layout.replayWrites]
    simp only [List.append_assoc, List.cons_append, List.nil_append]
    rfl
  · rw [hdisk₄, hdisk₃, hdisk₂, hdisk₁, Layout.commitWrites, Layout.replayWrites,
      applyWrites_append, applyWrites_cons, applyWrites_append]
    rfl

/-- Between two transactions: the log is empty, and the home blocks hold `s`. -/
structure Rest (area : LogArea) (s : Disk) (l : Log) (w : World) : Prop where
  of : area.Of l
  lh : l.lh = []
  outstanding : l.outstanding = 0
  committing : l.committing = false
  ready : Ready (fun _ => False) w
  empty : area.layout.Announces w.disk []
  holds : ∀ b, area.layout.home b → w.disk b = s b

theorem writesOf_eq {α : Type} {m : BlockM α} {w : World} {a : α} {w' : World}
    {ws : List (BlockNo × Block)} (hrun : m.run w = .ok a w') (hw : w'.writes = w.writes ++ ws) :
    writesOf m w = ws := by
  rw [writesOf, hrun, finalWorld, hw, List.drop_left]

/-- **Recovery is a replay.**  `log_init` returns, and whenever a crash interrupts it the disk
leads where it led before. -/
theorem logInit_run (env : Env) {d s : Disk} (hnull : ∀ r, env.null r = false)
    (h : area.layout.Leads d s) : ∃ l w,
    (logInit env area.start area.size).run (World.boot d) = .ok l w ∧ Rest area s l w ∧
      Throughout (area.layout.Leads · s) d
        (writesOf (logInit env area.start area.size) (World.boot d)) := by
  obtain ⟨as, hann, hval⟩ := h
  have hfit : area.Fits as := ⟨hann.nodup, hann.length_le, hann.homes⟩
  set l₀ : Log :=
    { start := area.start, size := area.size, outstanding := 0, committing := false, lh := [] }
    with hl₀
  set l₁ : Log := { l₀ with lh := as } with hl₁
  have hof₀ : area.Of l₀ := ⟨rfl, rfl⟩
  have hof₁ : area.Of l₁ := ⟨rfl, rfl⟩
  -- `read_head` runs twice, in `log_init` and in `recover_from_log`
  obtain ⟨w₁, hrun₁, hready₁, hwrites₁, hdisk₁⟩ := (ready_boot d).readHead hnull (l := l₀)
    (fun hf => hf) as (by rw [hof₀.header]; exact hann.decode)
  obtain ⟨w₂, hrun₂, hready₂, hwrites₂, hdisk₂⟩ := hready₁.readHead hnull (l := l₁)
    (fun hf => hf) as (by rw [hof₁.header, hdisk₁]; exact hann.decode)
  obtain ⟨w₃, hrun₃, hready₃, hwrites₃, hdisk₃⟩ :=
    hready₂.install hnull hof₁ hfit (fun _ hf => hf.elim) true
  obtain ⟨w₄, hrun₄, hready₄, hwrites₄, hdisk₄, -⟩ :=
    hready₃.writeHead hnull (l := emptied l₁) (fun hf => hf)
  rw [show (emptied l₁).header = area.layout.header from hof₁.header] at hwrites₄ hdisk₄
  have hd₂ : w₂.disk = d := hdisk₂.trans hdisk₁
  rw [hd₂] at hwrites₃ hdisk₃
  have hws : w₄.writes = (World.boot d).writes
      ++ area.layout.replayWrites d as (putHead (w₃.view area.layout.header) []) := by
    rw [hwrites₄, hwrites₃, hwrites₂, hwrites₁, List.append_assoc]
    rfl
  have hdisk : w₄.disk
      = applyWrites d
        (area.layout.replayWrites d as (putHead (w₃.view area.layout.header) [])) := by
    rw [hdisk₄, hdisk₃, Layout.replayWrites, applyWrites_append]
    rfl
  have hrun : (logInit env area.start area.size).run (World.boot d) = .ok (emptied l₁) w₄ := by
    rw [logInit, bind_ok hrun₁, recoverFromLog, bind_ok hrun₂, bind_ok hrun₃, bind_ok hrun₄]
    rfl
  obtain ⟨hthrough, hempty, hdone⟩ := area.layout.replay_throughout hann hval
    (getHead_putHead (w₃.view area.layout.header) (Nat.zero_le _))
  refine ⟨emptied l₁, w₄, hrun, ⟨⟨rfl, rfl⟩, rfl, rfl, rfl, hready₄, ?_, ?_⟩, ?_⟩
  · rw [hdisk]
    exact hempty
  · rw [hdisk]
    exact hdone
  · rw [writesOf_eq hrun hws]
    exact hthrough

/-- One block of a transaction is recorded in the log, and its new contents pinned in the
cache. -/
theorem updateBlock_run (hnull : ∀ r, env.null r = false) (hof : area.Of l)
    (h : Ready (· ∈ l.lh) w) {x : BlockNo × Block} (hx : x.1 ∉ l.lh)
    (hlen : l.lh.length < area.layout.capacity) (hout : 1 ≤ l.outstanding) :
    ∃ w', (updateBlock env l x).run w = .ok { l with lh := l.lh ++ [x.1] } w' ∧
      Ready (· ∈ l.lh ++ [x.1]) w' ∧ w'.writes = w.writes ∧ w'.disk = w.disk ∧
      w'.view x.1 = x.2 ∧ ∀ b, b ≠ x.1 → w'.view b = w.view b := by
  have hcap : l.lh.length < min (area.size - 1) logSize := hlen
  have hwrite : l.write x.1 = ({ l with lh := l.lh ++ [x.1] }, .recorded) := by
    rw [Log.write, if_neg (by rw [hof.size]; omega), if_neg (by omega), if_neg hx]
  have hrun : (updateBlock env l x).run w = .ok { l with lh := l.lh ++ [x.1] }
      ((w.tick 1).put x.1 ((w.loaded env x.1).assign x.2).pin.release) := by
    rw [updateBlock, bind_ok (blockRead_free (hnull w.reads) (h.clean _) (h.free _))]
    simp only [hwrite, if_true]
    rw [bind_ok (setData_run _ _ _), put_put, put_self, bind_ok (bufPin_run _ _), put_put,
      put_self, bind_ok (blockRelease_held _), put_put, put_self]
    · rfl
    · rw [put_self]
      rfl
  have hother : ∀ b, b ≠ x.1 →
      SameAt w ((w.tick 1).put x.1 ((w.loaded env x.1).assign x.2).pin.release) b :=
    fun b hb => ⟨put_of_ne _ hb _, rfl⟩
  refine ⟨_, hrun, h.change hother ?_ ?_ ?_ ?_, rfl, rfl, ?_, fun b hb => (hother b hb).view⟩
  · rw [World.FreeAt, put_self]
    rfl
  · intro _
    rw [put_self]
    exact Nat.succ_pos _
  · intro hnot
    exact absurd (by simp) hnot
  · intro b hb
    simp [hb]
  · rw [view_put_self _ _ _ rfl]
    rfl

/-- The updates of a transaction. -/
theorem updates_run (hnull : ∀ r, env.null r = false) :
    ∀ (ws : List (BlockNo × Block)) (l : Log) (w : World), area.Of l → Ready (· ∈ l.lh) w →
      (l.lh ++ ws.map Prod.fst).Nodup → l.lh.length + ws.length ≤ area.layout.capacity →
      1 ≤ l.outstanding →
      ∃ w', (ws.foldlM (updateBlock env) l).run w
          = .ok { l with lh := l.lh ++ ws.map Prod.fst } w' ∧
        Ready (· ∈ l.lh ++ ws.map Prod.fst) w' ∧ w'.writes = w.writes ∧ w'.disk = w.disk ∧
        (∀ x ∈ ws, w'.view x.1 = x.2) ∧ ∀ b, b ∉ ws.map Prod.fst → w'.view b = w.view b := by
  intro ws
  induction ws with
  | nil =>
    intro l w _ h _ _ _
    refine ⟨w, ?_, h.congr fun b => by simp, rfl, rfl, by simp, fun _ _ => rfl⟩
    rw [List.map_nil, List.append_nil]
    rfl
  | cons x ws ih =>
    intro l w hof h hnd hlen hout
    rw [List.length_cons] at hlen
    have hx : x.1 ∉ l.lh := by
      intro hmem
      rw [List.nodup_append] at hnd
      exact hnd.2.2 _ hmem _ List.mem_cons_self rfl
    have hx' : x.1 ∉ ws.map Prod.fst := by
      rw [List.nodup_append] at hnd
      exact (List.nodup_cons.mp hnd.2.1).1
    obtain ⟨w₁, hrun₁, hready₁, hwrites₁, hdisk₁, hview₁, hother₁⟩ :=
      updateBlock_run hnull hof h hx (by omega) hout
    obtain ⟨w₂, hrun₂, hready₂, hwrites₂, hdisk₂, hview₂, hother₂⟩ :=
      ih { l with lh := l.lh ++ [x.1] } w₁ ⟨hof.start, hof.size⟩ hready₁
        (by simpa using hnd) (by simp only [List.length_append, List.length_singleton]; omega) hout
    refine ⟨w₂, ?_, hready₂.congr fun b => by simp, hwrites₂.trans hwrites₁,
      hdisk₂.trans hdisk₁, ?_, ?_⟩
    · rw [List.foldlM_cons, bind_ok hrun₁, hrun₂]
      simp
    · intro y hy
      rcases List.mem_cons.mp hy with rfl | hy
      · rw [hother₂ _ hx', hview₁]
      · exact hview₂ y hy
    · intro b hb
      rw [List.map_cons, List.mem_cons, not_or] at hb
      rw [hother₂ b hb.2, hother₁ b hb.1]

theorem Txn.fits (tx : Txn area) : area.Fits (tx.writes.map Prod.fst) where
  nodup := tx.nodup
  length_le := by
    rw [List.length_map]
    exact tx.length_le
  homes := by
    intro a ha
    obtain ⟨x, hx, rfl⟩ := List.mem_map.mp ha
    exact tx.outside x hx

/-- The last part of `log_end_op`, when the operation is the only one. -/
theorem logEndOp_run {l' : Log} {w' : World} (hout : l.outstanding = 1)
    (hrun : (commit env { l with outstanding := 0, committing := true }).run w = .ok l' w') :
    (logEndOp env l).run w = .ok l'.endCommit w' := by
  have hend : l.endOp = ({ l with outstanding := 0, committing := true }, true) := by
    simp [Log.endOp, hout]
  rw [logEndOp, hend]
  simp only [if_true]
  rw [bind_ok hrun]
  rfl

/-- **A transaction is a commit.**  It returns, with its blocks on the disk, and whenever a crash
interrupts it the disk leads to what was there before, or to the whole of the transaction. -/
theorem transact_run {s : Disk} (hnull : ∀ r, env.null r = false) (h : Rest area s l w)
    (tx : Txn area) : ∃ l' w', (transact env l tx.writes).run w = .ok l' w' ∧
      Rest area (applyWrites s tx.writes) l' w' ∧
      Throughout (fun d => area.layout.Leads d s ∨
          area.layout.Leads d (applyWrites s tx.writes)) w.disk
        (writesOf (transact env l tx.writes) w) := by
  set as := tx.writes.map Prod.fst with has
  have hfit : area.Fits as := tx.fits
  -- `log_begin_op`
  set l₁ : Log := { l with outstanding := 1, committing := false } with hl₁
  have hbegin : l.beginOp = some l₁ := by
    rw [Log.beginOp, h.committing, if_neg Bool.false_ne_true, if_neg, hl₁, h.outstanding]
    · simp
    · simp [h.lh, h.outstanding, maxOpBlocks, logSize]
  -- the updates
  obtain ⟨w₂, hrun₂, hready₂, hwrites₂, hdisk₂, hview₂, -⟩ := updates_run hnull tx.writes l₁ w
    ⟨h.of.start, h.of.size⟩ (h.ready.congr fun b => by simp [hl₁, h.lh])
    (by simpa [hl₁, h.lh] using tx.nodup)
    (by rw [hl₁, h.lh, List.length_nil, Nat.zero_add]; exact tx.length_le) (by simp [hl₁])
  have hlh₂ : l₁.lh ++ tx.writes.map Prod.fst = as := by simp [hl₁, h.lh, has]
  rw [hlh₂] at hrun₂ hready₂
  set l₃ : Log := { { l₁ with lh := as } with outstanding := 0, committing := true } with hl₃
  have hof₃ : area.Of l₃ := ⟨h.of.start, h.of.size⟩
  -- the two ways `commit` goes
  by_cases hne : as = []
  · have hnil : tx.writes = [] := List.map_eq_nil_iff.mp hne
    have hcommit : (commit env l₃).run w₂ = .ok l₃ w₂ := commit_empty env hne w₂
    have hrun : (transact env l tx.writes).run w = .ok l₃.endCommit w₂ := by
      rw [transact, hbegin]
      simp only
      rw [bind_ok hrun₂, logEndOp_run rfl hcommit]
    refine ⟨l₃.endCommit, w₂, hrun, ⟨⟨h.of.start, h.of.size⟩, hne, rfl, rfl, ?_, ?_, ?_⟩, ?_⟩
    · exact hready₂.congr fun b => by simp [hne]
    · rw [hdisk₂]
      exact h.empty
    · rw [hdisk₂, hnil]
      exact h.holds
    · rw [writesOf_eq hrun (hwrites₂.trans (List.append_nil _).symm)]
      exact throughout_nil (Or.inl (area.layout.leads_of_empty h.empty h.holds))
  · obtain ⟨w₄, v, v₀, hcommit, hready₄, hv, hv₀, hwrites₄, hdisk₄⟩ :=
      commit_run (l := l₃) hnull hof₃ hfit hne hready₂
    have hrun : (transact env l tx.writes).run w = .ok (emptied l₃).endCommit w₄ := by
      rw [transact, hbegin]
      simp only
      rw [bind_ok hrun₂, logEndOp_run rfl hcommit]
    rw [hdisk₂] at hdisk₄ hwrites₄
    rw [hwrites₂] at hwrites₄
    obtain ⟨hthrough, hempty, hdone⟩ := area.layout.commit_throughout w₂.view
      hfit.nodup hfit.length_le hfit.homes h.empty h.holds hv hv₀
    -- the contents the cache holds for the blocks of the log are those of the transaction
    have hnew : override s w₂.view as = applyWrites s tx.writes := by
      funext a
      rw [override]
      split
      case isTrue ha =>
        obtain ⟨x, hx, rfl⟩ := List.mem_map.mp ha
        rw [hview₂ x hx, applyWrites_of_mem _ _ tx.nodup hx]
      case isFalse ha =>
        exact (applyWrites_of_ne _ _ fun x hx hxa => ha (List.mem_map.mpr ⟨x, hx, hxa⟩)).symm
    rw [hnew] at hthrough hdone
    refine ⟨(emptied l₃).endCommit, w₄, hrun,
      ⟨⟨h.of.start, h.of.size⟩, rfl, rfl, rfl, hready₄, ?_, ?_⟩, ?_⟩
    · rw [hdisk₄]
      exact hempty
    · rw [hdisk₄]
      exact hdone
    · rw [writesOf_eq hrun hwrites₄]
      exact hthrough

/-- Boot and transactions, from a disk whose log is empty. -/
theorem bootAndRun_run (env : Env) {d₀ : Disk} (hnull : ∀ r, env.null r = false)
    (h₀ : area.layout.Announces d₀ []) : ∀ txs : List (Txn area), ∃ l w,
      (bootAndRun env area txs).run (World.boot d₀) = .ok l w ∧
        Rest area (performed d₀ txs) l w := by
  obtain ⟨l₀, w₀, hboot, hrest₀, -⟩ := logInit_run env hnull
    (area.layout.leads_of_empty h₀ (fun _ _ => rfl))
  have key : ∀ (txs : List (Txn area)) (s : Disk) (l : Log) (w : World), Rest area s l w →
      ∃ l' w', (txs.foldlM (fun l tx => transact env l tx.writes) l).run w = .ok l' w' ∧
        Rest area (performed s txs) l' w' := by
    intro txs
    induction txs with
    | nil => intro s l w h; exact ⟨l, w, rfl, h⟩
    | cons tx txs ih =>
      intro s l w h
      obtain ⟨l₁, w₁, hrun₁, hrest₁, -⟩ := transact_run hnull h tx
      obtain ⟨l₂, w₂, hrun₂, hrest₂⟩ := ih _ l₁ w₁ hrest₁
      refine ⟨l₂, w₂, ?_, hrest₂⟩
      rw [List.foldlM_cons, bind_ok hrun₁, hrun₂]
  intro txs
  obtain ⟨l, w, hrun, hrest⟩ := key txs d₀ l₀ w₀ hrest₀
  exact ⟨l, w, by rw [bootAndRun, bind_ok hboot, hrun], hrest⟩

end Runs

/-! ## 4. Crashes -/

theorem performed_take_succ (d₀ : Disk) {area : LogArea} {txs : List (Txn area)} {i : Nat}
    (hi : i < txs.length) :
    performed d₀ (txs.take (i + 1)) = applyWrites (performed d₀ (txs.take i)) txs[i].writes := by
  rw [performed, performed, List.take_succ_eq_append_getElem hi, List.foldl_append]
  rfl

/-- Wherever the crash came, the disk leads to the transactions that had returned, or to these
and the next one. -/
theorem Crashed.leads {env : Env} {area : LogArea} {d₀ : Disk} {txs : List (Txn area)}
    (hnull : ∀ r, env.null r = false) (h₀ : area.layout.Announces d₀ []) {i : Nat} {d : Disk}
    (h : Crashed env area d₀ txs i d) : ∃ j, (j = i ∨ j = i + 1 ∧ i < txs.length) ∧
      area.layout.Leads d (performed d₀ (txs.take j)) := by
  induction h with
  | booting k =>
    obtain ⟨-, -, -, -, hthrough⟩ := logInit_run env hnull
      (area.layout.leads_of_empty h₀ (fun _ _ => rfl))
    exact ⟨0, Or.inl rfl, hthrough k⟩
  | @committing i l w hi hrun k =>
    obtain ⟨l', w', hrun', hrest⟩ := bootAndRun_run env hnull h₀ (txs.take i)
    rw [hrun', EStateM.Result.ok.injEq] at hrun
    obtain ⟨rfl, rfl⟩ := hrun
    obtain ⟨-, -, -, -, hthrough⟩ := transact_run hnull hrest txs[i]
    rcases hthrough k with hleads | hleads
    · exact ⟨i, Or.inl rfl, hleads⟩
    · refine ⟨i + 1, Or.inr ⟨rfl, hi⟩, ?_⟩
      rw [performed_take_succ d₀ hi]
      exact hleads
  | @resting l w hrun =>
    obtain ⟨l', w', hrun', hrest⟩ := bootAndRun_run env hnull h₀ txs
    rw [hrun', EStateM.Result.ok.injEq] at hrun
    obtain ⟨rfl, rfl⟩ := hrun
    refine ⟨txs.length, Or.inl rfl, ?_⟩
    rw [List.take_length]
    exact area.layout.leads_of_empty hrest.empty hrest.holds
  | recovering hd pid recycled k ih =>
    -- a recovery cut short leads where it led
    obtain ⟨j, hj, hleads⟩ := ih
    obtain ⟨-, -, -, -, hthrough⟩ :=
      logInit_run (Env.steady pid recycled) (fun _ => rfl) hleads
    exact ⟨j, hj, hthrough k⟩

/-- A header that holds `n = 0` announces nothing. -/
theorem LogArea.announces_nil (area : LogArea) {d : Disk}
    (h : (d (BitVec.ofNat 32 area.start)).word 0 = 0) : area.layout.Announces d [] :=
  ⟨getHead_zero h, List.nodup_nil, Nat.zero_le _, by simp⟩

/-- **Crash atomicity.**  Over a disk whose log header holds `n = 0`, every commit returns; and
wherever the machine crashes, in a commit or in any number of recoveries, the next `log_init`
returns and leaves every block outside the log as after the transactions whose commit had
returned, or as after these and the whole of the one being committed. -/
theorem crash_atomic (pid : Pid) (recycled : Nat → Bool) (area : LogArea) (d₀ : Disk)
    (h₀ : (d₀ (BitVec.ofNat 32 area.start)).word 0 = 0) (txs : List (Txn area)) :
    (∃ l w, (bootAndRun (Env.steady pid recycled) area txs).run (World.boot d₀) = .ok l w) ∧
    ∀ i d, Crashed (Env.steady pid recycled) area d₀ txs i d → ∀ pid' recycled',
      ∃ l w, (logInit (Env.steady pid' recycled') area.start area.size).run (World.boot d)
          = .ok l w ∧
        ∃ j, (j = i ∨ j = i + 1 ∧ i < txs.length) ∧
          ∀ b, ¬ area.Inside b → w.disk b = performed d₀ (txs.take j) b := by
  have hann := area.announces_nil h₀
  refine ⟨?_, ?_⟩
  · obtain ⟨l, w, hrun, -⟩ := bootAndRun_run (Env.steady pid recycled) (fun _ => rfl) hann txs
    exact ⟨l, w, hrun⟩
  · intro i d hd pid' recycled'
    obtain ⟨j, hj, hleads⟩ := hd.leads (fun _ => rfl) hann
    obtain ⟨l, w, hrun, hrest, -⟩ :=
      logInit_run (Env.steady pid' recycled') (fun _ => rfl) hleads
    exact ⟨l, w, hrun, j, hj, hrest.holds⟩

/-- The area `fs_init` gives to `log_init`: `LOGSIZE` blocks from block 2. -/
def fsLog : LogArea := { start := 2, size := logSize, pos := by decide, fits := by decide }

/-- A transaction of one block. -/
def oneBlock : Txn fsLog where
  writes := [(100, fun _ => 1)]
  nodup := by decide
  outside := by simp [LogArea.Inside, fsLog, logSize, maxOpBlocks]
  length_le := by decide

/-- The machine over a zeroed disk, before the first transaction. -/
def zeroBoot : EStateM.Result Halt World Log :=
  (bootAndRun (Env.steady 1 fun _ => false) fsLog ([oneBlock].take 0)).run
    (World.boot fun _ _ => 0)

/-- The disk when the machine stops in the commit, once the header is written. -/
def announcedDisk : EStateM.Result Halt World Log → Option Disk
  | .ok l w => some (applyWrites w.disk
      ((writesOf (transact (Env.steady 1 fun _ => false) l oneBlock.writes) w).take 2))
  | .error _ _ => none

/-- The disk that a call leaves. -/
def diskAfter : EStateM.Result Halt World Log → Option Disk
  | .ok _ w => some w.disk
  | .error _ _ => none

/-- The log announces block 100, which still has its old data; the recovery installs it. -/
theorem crash_atomic_announced : ∃ d l w,
    announcedDisk zeroBoot = some d ∧ getHead (d 2) = some [100] ∧ d 100 0 = 0 ∧
    (logInit (Env.steady 2 fun _ => true) fsLog.start fsLog.size).run (World.boot d) = .ok l w ∧
    w.disk 100 0 = 1 ∧ ∃ j, (j = 0 ∨ j = 0 + 1 ∧ 0 < [oneBlock].length) ∧
      ∀ b, ¬ fsLog.Inside b → w.disk b = performed (fun _ _ => 0) ([oneBlock].take j) b := by
  have hstop : (announcedDisk zeroBoot).map (fun d => (getHead (d 2), d 100 0)) =
      some (some [100], 0) := by
    decide +kernel
  have hafter : ((announcedDisk zeroBoot).bind fun d => diskAfter
      ((logInit (Env.steady 2 fun _ => true) fsLog.start fsLog.size).run (World.boot d))).map
        (fun d => d 100 0) = some 1 := by
    decide +kernel
  obtain ⟨-, hcrash⟩ := crash_atomic 1 (fun _ => false) fsLog (fun _ _ => 0) rfl [oneBlock]
  have hzero : fsLog.layout.Announces (fun _ _ => 0) [] := fsLog.announces_nil (by decide)
  obtain ⟨l₀, w₀, hboot, -⟩ :=
    bootAndRun_run (Env.steady 1 fun _ => false) (fun _ => rfl) hzero ([oneBlock].take 0)
  obtain ⟨l, w, hrun, hholds⟩ :=
    hcrash 0 _ (.committing (by decide) hboot 2) 2 fun _ => true
  rw [zeroBoot, hboot, announcedDisk] at hstop hafter ⊢
  rw [Option.map_some, Option.some.injEq, Prod.mk.injEq] at hstop
  rw [Option.bind_some] at hafter
  refine ⟨_, l, w, rfl, hstop.1, hstop.2, hrun, ?_, hholds⟩
  have hdisk := congrArg diskAfter hrun
  exact Option.some.inj ((congrArg (Option.map fun d : Disk => d 100 0) hdisk).symm.trans hafter)

end Lithium.Wal
