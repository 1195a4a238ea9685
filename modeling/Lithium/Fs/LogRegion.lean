/-
# The log and the superblock

`fs_init` gives the log the blocks from 2 on, whatever the superblock says; `inode_init` reads the
superblock and finds the inodes where it says.  The log of an image whose `logstart` and `nlog` say
otherwise lies over something else.

A run is `fs_init` on an image, and then any steps of any processes.  Section 4 says for which
images the blocks the log uses for itself, its header and its slots, are in the region the
superblock reserves for it.  Where the header announces more than `log.lh.block` holds, `read_head`
copies past its end, and what the log uses from there on is not known: such an image does not keep
the region.
-/
import Lithium.Fs.Inode
import Lithium.Fs.LogHold
import Lithium.Fs.LogNull
import Lithium.Fs.LogReserve
import Lithium.Fs.LogState

namespace Lithium.Wal

open Takes

/-! ## 1. The superblock -/

/-- The blocks reserved for the log. -/
def Superblock.logRegion (sb : Superblock) : Set BlockNo :=
  { b | sb.logstart.toNat ≤ b.toNat ∧ b.toNat < sb.logstart.toNat + sb.nlog.toNat }

/-- The blocks of the inodes. -/
def Superblock.inodeRegion (sb : Superblock) : Set BlockNo :=
  { b | ∃ inum, inum < sb.ninodes ∧ iblock inum sb = b }

/-- A disk with a superblock in block 1, whose regions do not overlap. -/
structure FsImage (d : Disk) (sb : Superblock) (bitmap data : Set BlockNo) : Prop where
  superblock : Superblock.ofBlock (d 1) = sb
  magic : sb.magic = fsMagic
  apart : [sb.logRegion, sb.inodeRegion, bitmap, data].Pairwise fun s t => ∀ b ∈ s, b ∉ t

/-! ## 2. The blocks the log uses -/

/-- `inode_init`, from the zeroed `sb`. -/
def inodeInit (env : Env) : BlockM Superblock := do
  match ← blockRead env 1 with
  | none => pure ⟨0, 0, 0, 0, 0, 0, 0, 0⟩
  | some buf =>
    let sb := Superblock.ofBlock (← getData buf)
    blockRelease env buf
    pure sb

/-- `fs_init`: what it does of the disk. -/
def fsInit (env : Env) : BlockM (Log × Superblock) := do
  let l ← logInit env 2 logSize
  let sb ← inodeInit env
  pure (l, sb)

/-- The slots `install_trans` reads, as far as it gets. -/
def installSlots (env : Env) : List Entry → World → List BlockNo
  | [], _ => []
  | e :: es, w =>
    e.slot :: match (installEntry env true e).run w with
      | .ok _ w => installSlots env es w
      | .error _ _ => []

/-- The slots `recover_from_log` reads. -/
def recoverSlots (env : Env) (l : Log) (w : World) : List BlockNo :=
  match (readHead env l).run w with
  | .ok l w => installSlots env (entries l) w
  | .error _ _ => []

/-- The log as `fs_init` asks for it. -/
def fsInitLog : Log :=
  { start := 2, size := logSize, outstanding := 0, committing := false, lh := [] }

/-- The header and the slots `log_init` reads, as far as it gets. -/
def initBlocks (env : Env) (d : Disk) : List BlockNo :=
  fsInitLog.header :: match (readHead env fsInitLog).run (World.boot d) with
    | .ok l w => recoverSlots env l w
    | .error _ _ => []

/-- The slot a loop body is about. -/
def EntryStage.slot? (l : Log) (tail : Nat) : EntryStage → Option BlockNo
  | .getSlot => some (l.slot tail)
  | .lockSlot slot | .getHome slot => some slot
  | .lockHome e | .copy e | .write e | .unpin e | .releaseSrc e | .releaseDst e => some e.slot
  | .getHomeOnly | .lockHomeOnly _ => none

/-- The block `write_head` is about. -/
def HeadStage.block (l : Log) : HeadStage → BlockNo
  | .get => l.header
  | .lock h | .fill h | .write h | .release h => h

/-- The header and the slots a process uses where it is. -/
def Point.logBlocks (l : Log) : Point → List BlockNo
  | .commit (.entry _ tail st) => (st.slot? l tail).toList
  | .commit (.head _ st) => [st.block l]
  | .commit .enter | .commit (.loop _ _) | .commit .clear | .idle | .inOp | .finish => []

/-- The header and the slots used in a step. -/
def LogRun.logBlocks (s : LogRun) : LogStep → List BlockNo
  | .commit i _ => (s.point i).logBlocks s.log
  | .begin _ | .write .. | .endOp _ | .finish _ | .block .. => []

/-- A block in the region of the log, and so no inode block and no data block. -/
structure Superblock.Keeps (sb : Superblock) (data : Set BlockNo) (b : BlockNo) : Prop where
  log : b ∈ sb.logRegion
  inode : b ∉ sb.inodeRegion
  data : b ∉ data

/-- The log uses blocks of its region only, in `fs_init` and in every run that follows it, and
`fs_init` does not copy a list past the end of `log.lh.block`. -/
structure RegionKept (env : Env) (d : Disk) (sb : Superblock) (data : Set BlockNo) : Prop where
  inBounds : ∀ w, (fsInit env).run (World.boot d) ≠ .error .outOfBounds w
  boot : ∀ b ∈ initBlocks env d, sb.Keeps data b
  runs : ∀ l sb' w, (fsInit env).run (World.boot d) = .ok (l, sb') w → ∀ rs,
    Transition.EachStep LogRun.step (fun s r => ∀ b ∈ s.logBlocks r, sb.Keeps data b)
      { LogRun.init w 2 logSize with log := l } rs

/-- The header in block 2 announces no more than `log.lh.block` holds, and the region of the log has
the blocks from 2 on: the header and `LOGSIZE - 1` slots, or as many slots as that header
announces. -/
structure Superblock.Covers (sb : Superblock) (d : Disk) : Prop where
  fits : (getHead (d 2)).isSome = true
  start : sb.logstart.toNat ≤ 2
  room : 2 + max (logSize - 1) ((getHead (d 2)).getD []).length <
    sb.logstart.toNat + sb.nlog.toNat

theorem Superblock.covers_iff {sb : Superblock} {d : Disk} : sb.Covers d ↔
    (getHead (d 2)).isSome = true ∧ sb.logstart.toNat ≤ 2 ∧
      2 + max (logSize - 1) ((getHead (d 2)).getD []).length <
        sb.logstart.toNat + sb.nlog.toNat :=
  ⟨fun h => ⟨h.fits, h.start, h.room⟩, fun h => ⟨h.1, h.2.1, h.2.2⟩⟩

instance (sb : Superblock) (d : Disk) : Decidable (sb.Covers d) :=
  decidable_of_iff _ Superblock.covers_iff.symm

/-! ## 3. Where the log is -/

/-- Nothing is pinned and nothing held: every buffer is in step with the disk. -/
abbrev Settled (w : World) : Prop := Ready (fun _ => False) w

theorem Settled.tick {w : World} (h : Settled w) (n : Nat) : Settled (w.tick n) :=
  ⟨h.free, h.pinned, h.synced⟩

/-- Reading a block and giving it back. -/
theorem Settled.readRelease {w : World} (h : Settled w) (b : BlockNo) :
    Settled ((w.tick 1).put b ⟨true, w.view b, (w.bufs b).refcnt, sleeplockInit⟩) := by
  refine h.change (b := b) (fun b' hb => ⟨put_of_ne _ hb _, rfl⟩) ?_ (fun hf => hf.elim) ?_
    (fun _ _ => Iff.rfl)
  · rw [World.FreeAt, put_self]
    rfl
  · intro _
    rw [view_put_self _ _ _ rfl]
    exact h.synced b (fun hf => hf)

/-- **`read_head`** finds `NULL`, or the list the header announces, or more than fits. -/
theorem readHead_cases (env : Env) {w : World} (h : Settled w) (l : Log) :
    (∃ lh w', (readHead env l).run w = .ok { l with lh := lh } w' ∧ Settled w' ∧ w'.disk = w.disk ∧
      ((env.null w.reads = true ∧ lh = l.lh) ∨ getHead (w.disk l.header) = some lh)) ∨
    (∃ w', (readHead env l).run w = .error .outOfBounds w' ∧ env.null w.reads = false ∧
      getHead (w.disk l.header) = none) := by
  cases hnull : env.null w.reads with
  | true =>
    refine Or.inl ⟨l.lh, w.tick 1, ?_, h.tick 1, rfl, Or.inl ⟨rfl, rfl⟩⟩
    rw [readHead, bind_ok (blockRead_null l.header hnull)]
    rfl
  | false =>
    have hview : w.view l.header = w.disk l.header := h.synced _ (fun hf => hf)
    cases hget : getHead (w.disk l.header) with
    | some lh =>
      refine Or.inl ⟨lh, _, readHead_run env hnull (h.clean _) (h.free _) (hview ▸ hget),
        h.readRelease _, rfl, Or.inr rfl⟩
    | none =>
      refine Or.inr ⟨(w.tick 1).put l.header (w.loaded env l.header), ?_, rfl, rfl⟩
      rw [readHead, bind_ok (blockRead_free hnull (h.clean _) (h.free _))]
      simp only
      have hget' : getHead (((w.tick 1).put l.header (w.loaded env l.header)).bufs l.header).data
          = none := by
        rw [put_self]
        change getHead (w.view l.header) = none
        rw [hview, hget]
      rw [bind_ok (getData_run _ _), hget']
      rfl

theorem mem_installSlots {env : Env} : ∀ {es : List Entry} {w : World} {b : BlockNo},
    b ∈ installSlots env es w → ∃ e ∈ es, b = e.slot := by
  intro es
  induction es with
  | nil => intro w b hb; exact absurd hb List.not_mem_nil
  | cons e es ih =>
    intro w b hb
    rw [installSlots] at hb
    rcases List.mem_cons.mp hb with rfl | hb
    · exact ⟨e, List.mem_cons_self, rfl⟩
    · split at hb
      · obtain ⟨e', he', h⟩ := ih hb
        exact ⟨e', List.mem_cons_of_mem _ he', h⟩
      · exact absurd hb List.not_mem_nil

theorem mem_entries {l : Log} {e : Entry} (h : e ∈ entries l) :
    ∃ t, t < l.lh.length ∧ e.slot = l.slot t := by
  obtain ⟨t, ht⟩ := List.getElem?_of_mem h
  obtain ⟨a, ha, rfl⟩ := entries_of_getElem? ht
  exact ⟨t, (List.getElem?_eq_some_iff.mp ha).1, rfl⟩

/-- The header of the disk announces at most `LOGSIZE` blocks, or `read_head` overruns. -/
theorem getHead_length {data : Block} {lh : List BlockNo} (h : getHead data = some lh) :
    lh.length ≤ logSize := by
  rw [getHead] at h
  split at h
  case isTrue => exact absurd h (by simp)
  case isFalse hle =>
    rw [← Option.some.inj h, List.length_map, List.length_range]
    omega

/-- The block of a slot. -/
theorem slot_toNat {l : Log} (h : l.start = 2) {t : Nat} (ht : t ≤ logSize) :
    (l.slot t).toNat = 3 + t := by
  have ht' : t ≤ 30 := ht
  rw [Log.slot, h, BitVec.toNat_ofNat]
  omega

theorem header_toNat {l : Log} (h : l.start = 2) : l.header.toNat = 2 := by
  rw [Log.header, h]
  rfl

/-- A block of a region that covers it. -/
theorem FsImage.keeps {d : Disk} {sb : Superblock} {bitmap data : Set BlockNo}
    (h : FsImage d sb bitmap data) {b : BlockNo} (hb : b ∈ sb.logRegion) : sb.Keeps data b := by
  have hap := (List.pairwise_cons.mp h.apart).1
  exact ⟨hb, hap sb.inodeRegion (by simp) _ hb, hap data (by simp) _ hb⟩

theorem Superblock.Covers.keeps {d : Disk} {sb : Superblock} {bitmap data : Set BlockNo}
    (hcov : sb.Covers d) (h : FsImage d sb bitmap data) {b : BlockNo} (hlo : 2 ≤ b.toNat)
    (hhi : b.toNat ≤ 2 + max (logSize - 1) ((getHead (d 2)).getD []).length) :
    sb.Keeps data b := by
  have hroom := hcov.room
  exact h.keeps ⟨Nat.le_trans hcov.start hlo, by omega⟩

/-- The slots of a recovery, for the list the header announces or an empty one. -/
theorem mem_recoverSlots {env : Env} {w : World} (h : Settled w) {l : Log} {b : BlockNo}
    (hstart : l.start = 2) (hlh : l.lh = [] ∨ getHead (w.disk 2) = some l.lh)
    (hb : b ∈ recoverSlots env l w) :
    ∃ lh, getHead (w.disk 2) = some lh ∧ 3 ≤ b.toNat ∧ b.toNat ≤ 2 + lh.length := by
  have hheader : l.header = 2 := BitVec.eq_of_toNat_eq (header_toNat hstart)
  rw [recoverSlots] at hb
  rcases readHead_cases env h l with ⟨lh, w', hrun, -, -, hget⟩ | ⟨w', hrun, -⟩
  · rw [hrun] at hb
    obtain ⟨e, he, rfl⟩ := mem_installSlots hb
    obtain ⟨t, ht, hslot⟩ := mem_entries he
    have ht' : t < lh.length := ht
    -- an empty list has no entry
    have hget' : getHead (w.disk 2) = some lh := by
      rcases hget with ⟨-, rfl⟩ | hget
      · rcases hlh with hnil | hlh
        · rw [hnil] at ht'
          exact absurd ht' (Nat.not_lt_zero t)
        · exact hlh
      · rwa [hheader] at hget
    have hlen := getHead_length hget'
    have hnat : e.slot.toNat = 3 + t := by
      rw [hslot]
      exact slot_toNat hstart (by omega)
    exact ⟨lh, hget', by omega, by omega⟩
  · rw [hrun] at hb
    exact absurd hb List.not_mem_nil

/-- `fs_init` stays inside a region that covers it. -/
theorem initBlocks_keeps {d : Disk} {sb : Superblock} {bitmap data : Set BlockNo}
    (hcov : sb.Covers d) (h : FsImage d sb bitmap data) (env : Env) :
    ∀ b ∈ initBlocks env d, sb.Keeps data b := by
  intro b hb
  rw [initBlocks] at hb
  rcases List.mem_cons.mp hb with rfl | hb
  · exact hcov.keeps h (Nat.le_refl 2) (Nat.le_add_right 2 _)
  · rcases readHead_cases env (ready_boot d) fsInitLog with
      ⟨lh, w, hrun, hset, hdisk, hlh⟩ | ⟨w, hrun, -⟩
    · rw [hrun] at hb
      have hlh' : lh = [] ∨ getHead (w.disk 2) = some lh := by
        rw [hdisk]
        exact hlh.imp And.right id
      obtain ⟨lh', hget, hlo, hhi⟩ := mem_recoverSlots hset (by rfl) hlh' hb
      rw [hdisk] at hget
      have hget' : getHead (d 2) = some lh' := hget
      refine hcov.keeps h (by omega) ?_
      rw [hget', Option.getD_some]
      omega
    · rw [hrun] at hb
      exact absurd hb List.not_mem_nil

/-- `fs_init` leaves the log as it asked for it. -/
theorem fsInit_log {env : Env} {d : Disk} {l : Log} {sb : Superblock} {w : World}
    (h : (fsInit env).run (World.boot d) = .ok (l, sb) w) : l = fsInitLog := by
  obtain ⟨l', w₁, hinit, h⟩ := bind_eq_ok h
  obtain ⟨sb', w₂, -, h⟩ := bind_eq_ok h
  have hl : l' = l := by
    have hpair := EStateM.Result.ok.inj h
    exact congrArg Prod.fst hpair.1
  rw [← hl]
  obtain ⟨l₁, w₃, hread, hrec⟩ := bind_eq_ok hinit
  rcases readHead_cases env (ready_boot d) fsInitLog with
    ⟨lh, w₄, hrun, hset, -, -⟩ | ⟨w₄, hrun, -⟩
  · obtain ⟨rfl, rfl⟩ := EStateM.Result.ok.inj (hread.symm.trans hrun)
    obtain ⟨l₂, w₅, hread₂, hrec⟩ := bind_eq_ok hrec
    obtain ⟨-, w₆, -, hrec⟩ := bind_eq_ok hrec
    obtain ⟨-, w₇, -, hrec⟩ := bind_eq_ok hrec
    rw [← (EStateM.Result.ok.inj hrec).1]
    rcases readHead_cases env hset { fsInitLog with lh := lh } with
      ⟨lh', w₈, hrun₂, -, -, -⟩ | ⟨w₈, hrun₂, -⟩
    · obtain ⟨rfl, -⟩ := EStateM.Result.ok.inj (hread₂.symm.trans hrun₂)
      rfl
    · exact absurd (hread₂.symm.trans hrun₂) (by simp)
  · exact absurd (hread.symm.trans hrun) (by simp)

/-- The local variables of `commit` are the slot of `tail`, and the header. -/
def LocalsOk : Point → Prop
  | .commit (.entry _ tail st) => tail < logSize - 1 ∧
    ∀ b ∈ st.slot? fsInitLog tail, b = fsInitLog.slot tail
  | .commit (.head _ st) => st.block fsInitLog = fsInitLog.header
  | .commit .enter | .commit (.loop _ _) | .commit .clear | .idle | .inOp | .finish => True

/-- The log is where `fs_init` put it, and every process uses it there. -/
structure AtStart (s : LogRun) : Prop where
  start : s.log.start = 2
  size : s.log.size = logSize
  length : s.log.lh.length < logSize
  locals : ∀ i, LocalsOk (s.point i)

namespace AtStart

variable {s s' : LogRun}

theorem slot (h : AtStart s) (tail : Nat) : s.log.slot tail = fsInitLog.slot tail := by
  rw [Log.slot, h.start]
  rfl

theorem header (h : AtStart s) : s.log.header = fsInitLog.header := by
  rw [Log.header, h.start]
  rfl

/-- A process goes on, and the log stays where it is. -/
theorem go (h : AtStart s) {i : Pid} {p : Point} (hp : LocalsOk p)
    (hpoint : s'.point = Function.update s.point i p) (hstart : s'.log.start = s.log.start)
    (hsize : s'.log.size = s.log.size) (hlength : s'.log.lh.length < logSize) : AtStart s' := by
  refine ⟨hstart.trans h.start, hsize.trans h.size, hlength, fun j => ?_⟩
  rw [hpoint]
  by_cases hj : j = i
  · rw [hj, Function.update_self]
    exact hp
  · rw [Function.update_of_ne hj]
    exact h.locals j

theorem endOp_keeps (l : Log) :
    l.endOp.1.start = l.start ∧ l.endOp.1.size = l.size ∧ l.endOp.1.lh = l.lh := by
  unfold Log.endOp
  by_cases h : l.outstanding - 1 = 0
  · simp [h]
  · simp [h]

/-- Where a loop body goes on. -/
theorem entryCall_locals (h : AtStart s) {answer : ReadAnswer} {toSlot : Bool} {tail : Nat}
    {st : EntryStage} (hst : LocalsOk (.commit (.entry toSlot tail st))) :
    LocalsOk (.commit (s.entryCall answer toSlot tail st).2) := by
  obtain ⟨htail, hslot⟩ := hst
  cases st with
  | getSlot =>
    cases answer with
    | null => exact ⟨htail, by simp [EntryStage.slot?]⟩
    | buffer recycled => exact ⟨htail, fun b hb => Option.some.inj hb ▸ h.slot tail⟩
  | getHome slot =>
    cases answer with
    | null => exact trivial
    | buffer recycled => exact ⟨htail, hslot⟩
  | getHomeOnly =>
    cases answer with
    | null => exact trivial
    | buffer recycled => exact ⟨htail, by simp [EntryStage.slot?]⟩
  | lockHomeOnly home => exact trivial
  | releaseDst e => exact trivial
  | write e => cases toSlot <;> exact ⟨htail, hslot⟩
  | _ => exact ⟨htail, hslot⟩

/-- Where `write_head` goes on. -/
theorem headCall_locals (h : AtStart s) {answer : ReadAnswer} {cleared : Bool} {st : HeadStage}
    (hst : LocalsOk (.commit (.head cleared st))) :
    LocalsOk (s.headCall answer cleared st).2 := by
  cases st with
  | get =>
    cases answer with
    | null => cases cleared <;> exact trivial
    | buffer recycled => exact h.header
  | release b => cases cleared <;> exact trivial
  | _ => exact hst

theorem commitStep (h : AtStart s) {i : Pid} {answer : ReadAnswer} {p : CommitPoint}
    (hpi : s.point i = .commit p) (hs : s.commitStep i answer p = some s') : AtStart s' := by
  have hlocals := h.locals i
  rw [hpi] at hlocals
  cases p with
  | enter =>
    rw [LogRun.commitStep] at hs
    split at hs
    · obtain rfl := Option.some.inj hs
      exact @AtStart.go _ _ h i (.commit (.loop true 0)) trivial rfl rfl rfl h.length
    · obtain rfl := Option.some.inj hs
      exact @AtStart.go _ _ h i .finish trivial rfl rfl rfl h.length
  | loop toSlot tail =>
    rw [LogRun.commitStep] at hs
    split at hs
    case isTrue htail =>
      obtain rfl := Option.some.inj hs
      have hlength := h.length
      refine @AtStart.go _ _ h i (.commit (.entry toSlot tail .getSlot)) ⟨by omega, ?_⟩ rfl rfl rfl
        h.length
      exact fun b hb => (Option.some.inj hb).symm
    case isFalse =>
      obtain rfl := Option.some.inj hs
      refine @AtStart.go _ _ h i (.commit (if toSlot then .head false .get else .clear)) ?_ rfl rfl
        rfl h.length
      cases toSlot with
      | true => exact (by rfl)
      | false => exact trivial
  | entry toSlot tail st =>
    rw [LogRun.commitStep, Option.map_eq_some_iff] at hs
    obtain ⟨s₂, hs₂, rfl⟩ := hs
    obtain ⟨hlog, hpoint⟩ := LogRun.optCall_frame hs₂
    rw [LogRun.noteInstall_frame] at hlog hpoint
    refine @AtStart.go _ _ h i (.commit (s.entryCall answer toSlot tail st).2)
      (h.entryCall_locals hlocals) ?_ ?_ ?_ ?_
    · exact congrArg (fun f => Function.update f i _) hpoint
    · exact congrArg Log.start hlog
    · exact congrArg Log.size hlog
    · change s₂.log.lh.length < logSize
      rw [hlog]
      exact h.length
  | head cleared st =>
    rw [LogRun.commitStep, Option.map_eq_some_iff] at hs
    obtain ⟨s₂, hs₂, rfl⟩ := hs
    obtain ⟨hlog, hpoint⟩ := LogRun.optCall_frame hs₂
    have hreturn : ∀ p, (s₂.noteReturn p).log = s.log ∧ (s₂.noteReturn p).point = s.point := by
      intro p
      cases p <;> exact ⟨hlog, hpoint⟩
    obtain ⟨hlog', hpoint'⟩ := hreturn (s.headCall answer cleared st).2
    refine @AtStart.go _ _ h i (s.headCall answer cleared st).2 (h.headCall_locals hlocals)
      ?_ ?_ ?_ ?_
    · exact congrArg (fun f => Function.update f i _) hpoint'
    · exact congrArg Log.start hlog'
    · exact congrArg Log.size hlog'
    · change (s₂.noteReturn _).log.lh.length < logSize
      rw [hlog']
      exact h.length
  | clear =>
    obtain rfl := Option.some.inj hs
    exact @AtStart.go _ _ h i (.commit (.head true .get)) (by rfl) rfl rfl rfl (Nat.zero_lt_succ _)

/-- **Every step leaves the log where it is.** -/
theorem step {r : LogStep} (h : AtStart s) (hs : s.step r = some s') : AtStart s' := by
  cases r with
  | begin i =>
    rw [LogRun.step] at hs
    split at hs
    · rw [Option.map_eq_some_iff] at hs
      obtain ⟨l, hl, rfl⟩ := hs
      obtain ⟨-, rfl⟩ := Log.beginOp_cases hl
      exact @AtStart.go _ _ h i .inOp trivial rfl rfl rfl h.length
    · exact absurd hs (by simp)
  | write i b =>
    rw [LogRun.step] at hs
    split at hs
    · rw [Option.ite_none_right_eq_some, Option.some.injEq] at hs
      obtain ⟨-, rfl⟩ := hs
      rcases s.log.write_cases b with ⟨hl, -⟩ | ⟨-, heq⟩ | ⟨-, hroom, heq⟩
      · exact ⟨by rw [hl]; exact h.start, by rw [hl]; exact h.size, by rw [hl]; exact h.length,
          h.locals⟩
      · exact ⟨by rw [heq]; exact h.start, by rw [heq]; exact h.size, by rw [heq]; exact h.length,
          h.locals⟩
      · rw [h.size] at hroom
        refine ⟨by rw [heq]; exact h.start, by rw [heq]; exact h.size, ?_, h.locals⟩
        rw [heq]
        simpa using hroom
    · exact absurd hs (by simp)
  | endOp i =>
    rw [LogRun.step] at hs
    split at hs
    · obtain rfl := Option.some.inj hs
      obtain ⟨hstart, hsize, hlh⟩ := endOp_keeps s.log
      refine @AtStart.go _ _ h i (if s.log.endOp.2 then .commit .enter else .idle) ?_ rfl hstart
        hsize ?_
      · split <;> exact trivial
      · change s.log.endOp.1.lh.length < logSize
        rw [hlh]
        exact h.length
    · exact absurd hs (by simp)
  | commit i answer =>
    rw [LogRun.step] at hs
    split at hs
    case h_1 p hp => exact h.commitStep hp hs
    case h_2 => exact absurd hs (by simp)
  | finish i =>
    rw [LogRun.step] at hs
    split at hs
    · obtain rfl := Option.some.inj hs
      exact @AtStart.go _ _ h i .idle trivial rfl rfl rfl h.length
    · exact absurd hs (by simp)
  | block i c =>
    rw [LogRun.step, Option.ite_none_right_eq_some] at hs
    rw [LogRun.blockCall_frame hs.2]
    exact ⟨h.start, h.size, h.length, h.locals⟩

/-- The blocks a step uses are those from 2 on. -/
theorem mem_logBlocks (h : AtStart s) {r : LogStep} {b : BlockNo} (hb : b ∈ s.logBlocks r) :
    2 ≤ b.toNat ∧ b.toNat ≤ 2 + (logSize - 1) := by
  cases r with
  | commit i answer =>
    have hlocals := h.locals i
    rw [LogRun.logBlocks] at hb
    cases hp : s.point i with
    | commit p =>
      rw [hp] at hb hlocals
      cases p with
      | entry toSlot tail st =>
        obtain ⟨htail, hslot⟩ := hlocals
        have hb' : b ∈ st.slot? s.log tail := Option.mem_toList.mp hb
        have hb'' : b = fsInitLog.slot tail := by
          cases st with
          | getSlot => exact (Option.some.inj hb').symm.trans (h.slot tail)
          | _ => exact hslot b hb'
        rw [hb'', slot_toNat (by rfl) (by omega)]
        omega
      | head cleared st =>
        have hb' : b = st.block s.log := List.mem_singleton.mp hb
        have hb'' : b = fsInitLog.header := by
          rw [hb']
          cases st with
          | get => exact h.header
          | _ => exact hlocals
        rw [hb'', header_toNat (by rfl)]
        omega
      | enter => exact absurd hb List.not_mem_nil
      | loop toSlot tail => exact absurd hb List.not_mem_nil
      | clear => exact absurd hb List.not_mem_nil
    | _ => rw [hp] at hb; exact absurd hb List.not_mem_nil
  | _ => exact absurd hb List.not_mem_nil

end AtStart

/-! ## 4. Which regions are kept -/

/-- `inode_init` gives the block of the superblock back. -/
theorem inodeInit_goes (env : Env) (w : World) : Goes env (inodeInit env) w [[1]] [] := by
  refine readOne_goes (gives_pure _) fun w' hgot => ?_
  have hmine := hgot.mine (List.mem_singleton_self 1)
  refine (getData_gives _ w').andThen fun data w₁ h₁ => ?_
  exact (blockRelease_gives (hmine.same h₁).lock (hmine.same h₁).refcnt).bind [] []
    fun _ w₂ _ => gives_pure _ w₂

/-- What `fs_init` finds in the header. -/
abbrev headerFound (env : Env) (d : Disk) : Option (List BlockNo) :=
  announced env fsInitLog (World.boot d)

theorem headerFound_of_read {env : Env} (h : env.null 0 = false) (d : Disk) :
    headerFound env d = getHead (d 2) := by
  have hfirst : (env.null 0 && env.null (0 + 1)) = false := by rw [h, Bool.false_and]
  exact if_neg (Bool.eq_false_iff.mp hfirst)

/-- A header that fits is found, or nothing is. -/
theorem headerFound_ne_none {d : Disk} (h : (getHead (d 2)).isSome = true) (env : Env) :
    headerFound env d ≠ none := by
  intro hnone
  unfold headerFound announced at hnone
  split at hnone
  · cases hnone
  · have hget : getHead (d 2) = none := hnone
    rw [hget] at h
    cases h

/-- **`fs_init`**: it goes through, and holds what it has kept; or it sleeps on a buffer it holds
itself; or it reads a list that does not fit. -/
theorem fsInit_ends (env : Env) (d : Disk) :
    Ends (fsInit env) (World.boot d)
      (fun _ w => ∃ lh, headerFound env d = some lh ∧
        ∀ b, w.Locked b → b ∈ keeps env.null 0 (initGroups fsInitLog lh))
      fun e _ =>
        (e = .asleep ∧ ∀ lh, headerFound env d = some lh →
          ¬ Passes env.null 0 (fun _ => False) (initGroups fsInitLog lh ++ [[1]])) ∨
        (e = .outOfBounds ∧ headerFound env d = none) := by
  have hnobody : ∀ b, (World.boot d).Locked b ↔ False := fun b => by
    rw [World.Locked]
    exact iff_of_false Bool.false_ne_true id
  refine Ends.bind ((logInit_ends env (w := World.boot d) (l := fsInitLog) rfl fun _ => rfl).mono
    (fun _ _ h => h) ?stuck) ?rest
  case stuck =>
    rintro e _ (⟨rfl, hnot⟩ | hover)
    · refine .inl ⟨rfl, fun lh hlh hp => hnot lh hlh ?_⟩
      exact (Passes.congr hnobody).mpr (passes_append.mp hp).1
    · exact .inr hover
  case rest =>
    rintro l w₁ ⟨-, lh, hlh, hpassed⟩
    refine Ends.bind (((inodeInit_goes env w₁).after hpassed).mono (fun _ _ h => h) ?stuck) ?done
    case stuck =>
      rintro e _ ⟨rfl, hnot⟩
      refine .inl ⟨rfl, fun lh' hlh' hp => hnot ?_⟩
      obtain rfl := Option.some.inj (hlh.symm.trans hlh')
      exact (Passes.congr hnobody).mpr hp
    case done =>
      intro sb w₂ hpassed₂
      refine ⟨lh, hlh, fun b hb => ?_⟩
      have hkept := ((hpassed₂.locked b).mp hb).resolve_left (hnobody b).mp
      rwa [keeps_append, keeps_single, List.append_nil] at hkept

/-- **A region that covers the log is kept.** -/
theorem regionKept_of_covers {d : Disk} {sb : Superblock} {bitmap data : Set BlockNo}
    (himg : FsImage d sb bitmap data) (hcov : sb.Covers d) (env : Env) :
    RegionKept env d sb data := by
  refine ⟨fun w hrun => ?_, initBlocks_keeps hcov himg env, fun l sb' w hrun => ?_⟩
  · rcases (Ends.iff_of_error hrun).mp (fsInit_ends env d) with ⟨hasleep, -⟩ | ⟨-, hnone⟩
    · cases hasleep
    · exact headerFound_ne_none hcov.fits env hnone
  · rw [fsInit_log hrun]
    refine Transition.eachStep_iff_reachable.mpr fun t r t' ht hr b hb => ?_
    have hinit : AtStart { LogRun.init w 2 logSize with log := fsInitLog } :=
      ⟨rfl, rfl, Nat.zero_lt_succ _, fun _ => trivial⟩
    have hat := Transition.reachable_inv (fun _ _ _ h hs => AtStart.step h hs) hinit ht
    obtain ⟨hlo, hhi⟩ := hat.mem_logBlocks hb
    exact hcov.keeps himg hlo (by omega)

/-- A loop that returns has read every slot. -/
theorem installSlots_of_returns {env : Env} : ∀ {es : List Entry} {w w' : World},
    (forM es (installEntry env true)).run w = .ok () w' →
      installSlots env es w = es.map Entry.slot := by
  intro es
  induction es with
  | nil => exact fun _ => rfl
  | cons e es ih =>
    intro w w' hrun
    rw [List.forM_cons] at hrun
    obtain ⟨_, w₁, hentry, hrest⟩ := bind_eq_ok hrun
    rw [installSlots, hentry, List.map_cons]
    exact congrArg (e.slot :: ·) (ih hrest)

/-- **A `log_init` that returns** has read the slots of the list it found. -/
theorem recoverSlots_of_returns {env : Env} {start size : Nat} {l l' : Log} {w w' : World}
    (hl : l = { start := start, size := size, outstanding := 0, committing := false, lh := [] })
    (hclean : w.CleanAt l.header) (h : (logInit env start size).run w = .ok l' w')
    {lh : List BlockNo} (hlh : announced env l w = some lh) :
    ∃ l₁ w₁, (readHead env l).run w = .ok l₁ w₁ ∧
      recoverSlots env l₁ w₁ = (entries { l with lh := lh }).map Entry.slot := by
  rw [logInit, ← hl] at h
  obtain ⟨l₁, w₁, hread₁, hrec⟩ := bind_eq_ok h
  obtain ⟨l₂, w₂, hread₂, hrest⟩ := bind_eq_ok hrec
  obtain ⟨_, w₃, hinstall, -⟩ := bind_eq_ok hrest
  have hboth : (readHead env l >>= fun l₁ => readHead env l₁).run w = .ok l₂ w₂ :=
    (bind_ok hread₁).trans hread₂
  obtain ⟨lh₂, rfl, hlh₂, -⟩ := (Ends.iff_of_ok hboth).mp (readHeads_ends (by rw [hl]) hclean)
  obtain rfl := Option.some.inj (hlh₂.symm.trans hlh)
  refine ⟨l₁, w₁, hread₁, ?_⟩
  rw [recoverSlots, hread₂]
  exact installSlots_of_returns hinstall

/-- The two reads of every entry fail together. -/
def PairedReads (env : Env) : Prop :=
  env.null 0 = false ∧ ∀ t, env.null (2 + 2 * t) = env.null (2 + 2 * t + 1)

/-- What `fs_init` has read when it returns, and kept nothing. -/
theorem fsInit_returned {env : Env} (hpaired : PairedReads env) {d : Disk} {x : Log × Superblock}
    {w : World} (h : (fsInit env).run (World.boot d) = .ok x w) :
    (∀ b, w.FreeAt b) ∧ ∃ lh, getHead (d 2) = some lh ∧
      ∀ t, t < lh.length → fsInitLog.slot t ∈ initBlocks env d := by
  obtain ⟨lh, hlh, hlocked⟩ := (Ends.iff_of_ok h).mp (fsInit_ends env d)
  have hnone : keeps env.null 0 (initGroups fsInitLog lh) = [] :=
    (keeps_init fsInitLog lh 0).mpr fun t _ => by
      rw [Nat.zero_add]
      exact hpaired.2 t
  rw [hnone] at hlocked
  refine ⟨fun b => Bool.eq_false_iff.mpr fun hb => List.not_mem_nil (hlocked b hb), lh,
    (headerFound_of_read hpaired.1 d).symm.trans hlh, fun t ht => ?_⟩
  obtain ⟨l, w₁, hinit, -⟩ := bind_eq_ok h
  obtain ⟨l₁, w₂, hread, hslots⟩ := recoverSlots_of_returns rfl (fun _ => rfl) hinit hlh
  have hentry := entries_getElem? (l := { fsInitLog with lh := lh }) (List.getElem?_eq_getElem ht)
  have hread' : (readHead env fsInitLog).run (World.boot d) = .ok l₁ w₂ := hread
  rw [initBlocks, hread']
  refine List.mem_cons_of_mem _ ?_
  dsimp only
  rw [hslots]
  exact List.mem_map.mpr ⟨_, List.mem_of_getElem? hentry, rfl⟩

/-- The sleeplock of buffer `b` after a call. -/
def lockAfter (i : Pid) (b : BlockNo) (lk : Sleeplock) : BlockCall → Sleeplock
  | .lock b' => if b = b' then ⟨true, i⟩ else lk
  | .release b' => if b = b' ∧ lk = ⟨true, i⟩ then sleeplockInit else lk
  | .get .. | .assign .. | .write _ | .unpin _ => lk

/-- A call that does not have to wait returns, and does to the sleeplocks what it should. -/
theorem blockCall_of_free {s : LogRun} (i : Pid) {c : BlockCall}
    (hfree : ∀ b, c = .lock b → s.world.FreeAt b) : ∃ s', s.blockCall i c = some s' ∧
      ∀ b, (s'.world.bufs b).lock = lockAfter i b (s.world.bufs b).lock c := by
  -- a change of one buffer that is not of its lock
  have hput : ∀ (b' : BlockNo) (x : CachedBlock), x.lock = (s.world.bufs b').lock → ∀ b,
      ((s.world.put b' x).bufs b).lock = (s.world.bufs b).lock := by
    intro b' x hx b
    by_cases hb : b = b'
    · rw [hb, put_self, hx]
    · rw [put_of_ne _ hb]
  cases c with
  | get b' recycled => exact ⟨_, rfl, hput b' _ (by rfl)⟩
  | lock b' =>
    have hlk : sleeplockAcquire (s.world.bufs b').lock (some i) = some ⟨true, i⟩ := by
      rw [sleeplockAcquire, if_neg (by rw [hfree b' rfl]; simp), Option.getD_some]
    refine ⟨_, by rw [LogRun.blockCall, World.lockBuf, hlk]; rfl, fun b => ?_⟩
    rw [lockAfter]
    by_cases hb : b = b'
    · rw [if_pos hb, hb, put_self]
    · rw [if_neg hb, put_of_ne _ hb]
  | assign b' data => exact ⟨_, rfl, hput b' _ (by rfl)⟩
  | write b' =>
    refine ⟨_, rfl, fun b => ?_⟩
    rw [LogRun.blockWrite_bufs]
    rfl
  | unpin b' => exact ⟨_, rfl, hput b' _ (by rfl)⟩
  | release b' =>
    refine ⟨_, rfl, fun b => ?_⟩
    change ((finalWorld ((blockRelease (asPid i false) b').run s.world)).bufs b).lock = _
    rw [LogRun.blockRelease_eq, lockAfter]
    by_cases hb : b = b'
    · subst hb
      by_cases hheld : s.world.Holds i b
      · rw [if_pos hheld, if_pos ⟨rfl, hheld⟩, put_self]
        rfl
      · rw [if_neg hheld, if_neg fun h => hheld h.2]
    · have hkeep : (if b = b' ∧ (s.world.bufs b).lock = ⟨true, i⟩ then sleeplockInit
          else (s.world.bufs b).lock) = (s.world.bufs b).lock := if_neg fun h => hb h.1
      rw [hkeep]
      split
      · rw [put_of_ne _ hb]
      · rfl

namespace LogRun

/-- One call in a loop body. -/
theorem entry_advance {s : LogRun} {i : Pid} {toSlot : Bool} {tail : Nat} {st : EntryStage}
    {c : BlockCall} {p : CommitPoint} (hp : s.point i = .commit (.entry toSlot tail st))
    (hc : s.entryCall (.buffer true) toSlot tail st = (some c, p))
    (hfree : ∀ b, c = .lock b → s.world.FreeAt b) :
    ∃ s', s.step (.commit i (.buffer true)) = some s' ∧ s'.point i = .commit p ∧
      s'.log = s.log ∧ ∀ b, (s'.world.bufs b).lock = lockAfter i b (s.world.bufs b).lock c := by
  have hnote : (s.noteInstall i toSlot st).log = s.log ∧
      (s.noteInstall i toSlot st).world = s.world := by
    rw [noteInstall_frame]
    exact ⟨rfl, rfl⟩
  obtain ⟨s', hs', hlock⟩ := blockCall_of_free (s := s.noteInstall i toSlot st) i
    (by rw [hnote.2]; exact hfree)
  rw [hnote.2] at hlock
  refine ⟨s'.go i (.commit p), ?_, go_point_self _ _ _, ?_, hlock⟩
  · rw [step, hp]
    simp only [commitStep, hc, optCall, hs', Option.map_some]
  · rw [blockCall_frame hs']
    exact hnote.1

/-- The blocks an operation of process 1 writes, `n` of them. -/
def homeBlock (k : Nat) : BlockNo := BitVec.ofNat 32 (100 + k)

/-- The log with the first `n` of them. -/
def filledLog (n : Nat) : Log :=
  { fsInitLog with outstanding := 1, lh := (List.range n).map homeBlock }

/-- Process 1 is in an operation, and has written `n` blocks. -/
structure Filling (s : LogRun) (n : Nat) : Prop where
  point : s.point 1 = .inOp
  log : s.log = filledLog n
  free : ∀ b, s.world.FreeAt b

theorem homeBlock_inj {j k : Nat} (hj : j < logSize) (hk : k < logSize)
    (h : homeBlock j = homeBlock k) : j = k := by
  have hj' : j < 30 := hj
  have hk' : k < 30 := hk
  have h' := congrArg BitVec.toNat h
  rw [homeBlock, homeBlock, BitVec.toNat_ofNat, BitVec.toNat_ofNat] at h'
  omega

/-- Writing one block more. -/
theorem Filling.succ {s : LogRun} {n : Nat} (h : Filling s n) (hn : n < logSize - 1) :
    ∃ s', Transition.Reachable step s s' ∧ Filling s' (n + 1) := by
  set b := homeBlock n with hb
  obtain ⟨s₁, hs₁, hlock⟩ := blockCall_of_free (s := s) 1 (c := .get b true) (by simp)
  have hrefs : s₁.refs = (1, b) :: s.refs := by
    rw [← Option.some.inj hs₁]
  have hf := blockCall_frame hs₁
  have hp₁ : s₁.point = s.point := by rw [hf]
  have hl₁ : s₁.log = filledLog n := by rw [hf]; exact h.log
  have hstep₁ : s.step (.block 1 (.get b true)) = some s₁ := by
    rw [step, h.point, if_pos (by rfl), hs₁]
  -- the block is new, and there is room for it
  have hnew : b ∉ (filledLog n).lh := by
    intro hmem
    obtain ⟨k, hk, hkb⟩ := List.mem_map.mp hmem
    rw [List.mem_range] at hk
    have := homeBlock_inj (by omega) (by omega) hkb
    omega
  have hwrite : (filledLog n).write b = (filledLog (n + 1), .recorded) := by
    have hlen : (filledLog n).lh.length < logSize - 1 := by
      simpa [filledLog] using hn
    rw [Log.write_of_room b (by rfl) (Int.le_refl 1) hlen, if_neg hnew, filledLog,
      filledLog, List.range_succ, List.map_append]
    rfl
  have hstep₂ : s₁.step (.write 1 b) = some { s₁ with
      log := filledLog (n + 1)
      world := finalWorld ((bufPin b).run s₁.world)
      pins := s₁.pins ++ [b]
      accepted := (s₁.opOf 1, b) :: s₁.accepted } := by
    have hp : s₁.point 1 = .inOp := by rw [hp₁, h.point]
    have hin : s₁.refs.contains (1, b) = true := by
      rw [hrefs]
      exact List.contains_iff_mem.mpr List.mem_cons_self
    rw [step, hp]
    simp only [hin, if_true, hl₁, hwrite]
    rfl
  refine ⟨_, ((Transition.Reachable.refl s).tail hstep₁).tail hstep₂,
    (congrFun hp₁ 1).trans h.point, rfl, fun b' => ?_⟩
  have hfree : (s₁.world.bufs b').lock.locked = false := by
    rw [hlock]
    exact h.free b'
  simp only [bufPin_run, finalWorld, World.FreeAt]
  by_cases hb' : b' = b
  · rw [hb', put_self]
    exact hb' ▸ hfree
  · rw [put_of_ne _ hb']
    exact hfree

/-- Process 1 is in `write_log`, and has copied the entries before `tail`. -/
structure Copying (s : LogRun) (tail : Nat) : Prop where
  point : s.point 1 = .commit (.loop true tail)
  lh : s.log.lh = (List.range (logSize - 1)).map homeBlock
  start : s.log.start = 2
  free : ∀ b, s.world.FreeAt b

/-- **Copying one entry more**: the process takes both buffers and gives them back. -/
theorem Copying.succ {s : LogRun} {tail : Nat} (h : Copying s tail) (htail : tail < logSize - 1) :
    ∃ s', Transition.Reachable step s s' ∧ Copying s' (tail + 1) := by
  have hlen : s.log.lh.length = logSize - 1 := by rw [h.lh, List.length_map, List.length_range]
  have htail' : tail < 29 := htail
  have hhome : s.log.lh.getD tail 0 = homeBlock tail := by
    rw [h.lh]
    simp [htail]
  -- the two blocks of the entry are different
  have hne : homeBlock tail ≠ s.log.slot tail := by
    intro he
    have h' := congrArg BitVec.toNat he
    rw [slot_toNat h.start (by omega), homeBlock, BitVec.toNat_ofNat] at h'
    omega
  set e : Entry := ⟨s.log.slot tail, homeBlock tail⟩ with he
  have hs₀ : s.step (.commit 1 (.buffer true))
      = some (s.go 1 (.commit (.entry true tail .getSlot))) := by
    rw [step, h.point]
    simp only [commitStep]
    rw [if_pos (by omega)]
  set s₀ := s.go 1 (.commit (.entry true tail .getSlot)) with hs₀'
  obtain ⟨s₁, hs₁, hp₁, hl₁, hk₁⟩ := @entry_advance s₀ 1 true tail _ _ _ (go_point_self _ _ _)
    (show _ = (some (.get e.slot true), .entry true tail (.lockSlot e.slot)) from rfl) (by simp)
  obtain ⟨s₂, hs₂, hp₂, hl₂, hk₂⟩ := @entry_advance s₁ 1 true tail _ _ _ hp₁
    (show _ = (some (.lock e.slot), .entry true tail (.getHome e.slot)) from rfl) (by
      rintro b hb
      cases hb
      rw [World.FreeAt, hk₁]
      exact h.free _)
  have hc₃ : s₂.entryCall (.buffer true) true tail (.getHome e.slot)
      = (some (.get e.home true), .entry true tail (.lockHome e)) := by
    rw [entryCall, hl₂, hl₁]
    change (some (BlockCall.get (s.log.lh.getD tail 0) true),
      CommitPoint.entry true tail (.lockHome ⟨e.slot, s.log.lh.getD tail 0⟩)) = _
    rw [hhome]
  obtain ⟨s₃, hs₃, hp₃, hl₃, hk₃⟩ := @entry_advance s₂ 1 true tail _ _ _ hp₂ hc₃ (by simp)
  obtain ⟨s₄, hs₄, hp₄, hl₄, hk₄⟩ := @entry_advance s₃ 1 true tail _ _ _ hp₃
    (show _ = (some (.lock e.home), .entry true tail (.copy e)) from rfl) (by
      rintro b hb
      cases hb
      rw [World.FreeAt, hk₃, lockAfter, hk₂, lockAfter, if_neg hne, hk₁]
      exact h.free _)
  obtain ⟨s₅, hs₅, hp₅, hl₅, hk₅⟩ := @entry_advance s₄ 1 true tail _ _ _ hp₄
    (show _ = (some (.assign (e.dst true) (s₄.world.bufs (e.src true)).data),
      .entry true tail (.write e)) from rfl) (by simp)
  obtain ⟨s₆, hs₆, hp₆, hl₆, hk₆⟩ := @entry_advance s₅ 1 true tail _ _ _ hp₅
    (show _ = (some (.write (e.dst true)), .entry true tail (.releaseSrc e)) from rfl) (by simp)
  obtain ⟨s₇, hs₇, hp₇, hl₇, hk₇⟩ := @entry_advance s₆ 1 true tail _ _ _ hp₆
    (show _ = (some (.release (e.src true)), .entry true tail (.releaseDst e)) from rfl) (by simp)
  obtain ⟨s₈, hs₈, hp₈, hl₈, hk₈⟩ := @entry_advance s₇ 1 true tail _ _ _ hp₇
    (show _ = (some (.release (e.dst true)), .loop true (tail + 1)) from rfl) (by simp)
  have hlog : s₈.log = s.log := by rw [hl₈, hl₇, hl₆, hl₅, hl₄, hl₃, hl₂, hl₁]; rfl
  refine ⟨s₈, (Transition.Reachable.refl s).tail hs₀ |>.tail hs₁ |>.tail hs₂ |>.tail hs₃ |>.tail hs₄
    |>.tail hs₅ |>.tail hs₆ |>.tail hs₇ |>.tail hs₈, hp₈, by rw [hlog, h.lh],
    by rw [hlog, h.start], fun b => ?_⟩
  have hfree : (s₀.world.bufs b).lock.locked = false := h.free b
  have hne' : e.home ≠ e.slot := hne
  rw [World.FreeAt, hk₈, hk₇, hk₆, hk₅, hk₄, hk₃, hk₂, hk₁]
  simp only [lockAfter, Entry.src, Entry.dst, if_true]
  by_cases hb : b = e.home
  · subst hb
    simp [sleeplockInit, hne']
  · by_cases hbs : b = e.slot
    · subst hbs
      simp [sleeplockInit, hb]
    · simp [hb, hbs, hfree]

/-- **Some run uses the last slot**: `LOGSIZE - 1` blocks are written in one operation, and the
commit comes to the last of them. -/
theorem last_slot_used {w : World} (hw : ∀ b, w.FreeAt b) : ∃ s s' r,
    Transition.Reachable step { init w 2 logSize with log := fsInitLog } s ∧
      step s r = some s' ∧ fsInitLog.slot (logSize - 2) ∈ s.logBlocks r := by
  set s₀ : LogRun := { init w 2 logSize with log := fsInitLog } with hs₀
  -- the operation
  have hfill : ∀ n, n ≤ logSize - 1 → ∃ s, Transition.Reachable step s₀ s ∧ Filling s n := by
    intro n
    induction n with
    | zero =>
      intro _
      refine ⟨_, (Transition.Reachable.refl s₀).tail (l := .begin 1) (by rfl), ?_⟩
      exact ⟨go_point_self _ _ _, rfl, hw⟩
    | succ n ih =>
      intro hn
      obtain ⟨s, hreach, hs⟩ := ih (by omega)
      obtain ⟨s', hreach', hs'⟩ := hs.succ (by omega)
      exact ⟨s', hreach.trans hreach', hs'⟩
  -- the commit
  have hcopy : ∀ n, n ≤ logSize - 2 → ∃ s, Transition.Reachable step s₀ s ∧ Copying s n := by
    intro n
    induction n with
    | zero =>
      intro _
      obtain ⟨s, hreach, hs⟩ := hfill (logSize - 1) (Nat.le_refl _)
      have hend : s.step (.endOp 1)
          = some ({ s with log := s.log.endOp.1 }.go 1 (.commit .enter)) := by
        rw [step, hs.point]
        simp only [hs.log]
        rfl
      have henter : ({ s with log := s.log.endOp.1 }.go 1 (.commit .enter)).step
          (.commit 1 (.buffer true)) = some (({ s with log := s.log.endOp.1 }.go 1
            (.commit .enter)).go 1 (.commit (.loop true 0))) := by
        rw [step, go_point_self]
        simp only [commitStep, go, hs.log]
        rfl
      refine ⟨_, (hreach.tail hend).tail henter, go_point_self _ _ _, ?_, ?_, hs.free⟩
      · simp only [go, hs.log]
        rfl
      · simp only [go, hs.log]
        rfl
    | succ n ih =>
      intro hn
      obtain ⟨s, hreach, hs⟩ := ih (by omega)
      obtain ⟨s', hreach', hs'⟩ := hs.succ (by omega)
      exact ⟨s', hreach.trans hreach', hs'⟩
  obtain ⟨s, hreach, hs⟩ := hcopy (logSize - 2) (Nat.le_refl _)
  have hloop : s.step (.commit 1 (.buffer true))
      = some (s.go 1 (.commit (.entry true (logSize - 2) .getSlot))) := by
    rw [step, hs.point]
    simp only [commitStep, hs.lh, List.length_map, List.length_range]
    rfl
  obtain ⟨s', hs', -⟩ := @entry_advance (s.go 1 (.commit (.entry true (logSize - 2) .getSlot))) 1
    true (logSize - 2) _ _ _ (go_point_self _ _ _)
    (show _ = (some (.get (s.log.slot (logSize - 2)) true), _) from rfl) (by simp)
  refine ⟨_, s', .commit 1 (.buffer true), hreach.tail hloop, hs', ?_⟩
  rw [logBlocks, go_point_self]
  change fsInitLog.slot (logSize - 2) ∈ [s.log.slot (logSize - 2)]
  rw [List.mem_singleton, Log.slot, Log.slot, hs.start]
  rfl

end LogRun

/-- **A region that is kept covers the log**, when `fs_init` goes on to an end. -/
theorem covers_of_regionKept {env : Env} (hpaired : PairedReads env) {d : Disk} {sb : Superblock}
    {data : Set BlockNo} (hawake : ∀ w, (fsInit env).run (World.boot d) ≠ .error .asleep w)
    (hkept : RegionKept env d sb data) : sb.Covers d := by
  cases hrun : (fsInit env).run (World.boot d) with
  | error e w =>
    cases e with
    | asleep => exact absurd hrun (hawake w)
    | outOfBounds => exact absurd hrun (hkept.inBounds w)
  | ok x w =>
    obtain ⟨l, sb'⟩ := x
    obtain ⟨hfree, lh, hget, hslots⟩ := fsInit_returned hpaired hrun
    -- the header, the slots of the recovery, the last slot of a commit
    have hheader : fsInitLog.header ∈ sb.logRegion := (hkept.boot _ List.mem_cons_self).log
    have hlast : fsInitLog.slot (logSize - 2) ∈ sb.logRegion := by
      obtain ⟨s, s', r, hreach, hs, hmem⟩ := LogRun.last_slot_used hfree
      have hruns := hkept.runs l sb' w hrun
      rw [fsInit_log hrun] at hruns
      exact (Transition.eachStep_iff_reachable.mp hruns s r s' hreach hs _ hmem).log
    have hhead : fsInitLog.header.toNat = 2 := header_toNat (by rfl)
    have hlastNat : (fsInitLog.slot (logSize - 2)).toNat = 3 + (logSize - 2) :=
      slot_toNat (by rfl) (by decide)
    have hlo := hheader.1
    have hhi := hlast.2
    rw [hhead] at hlo
    rw [hlastNat] at hhi
    have hsize : logSize = 30 := rfl
    refine ⟨by rw [hget]; rfl, hlo, ?_⟩
    rw [hget, Option.getD_some]
    rcases Nat.eq_zero_or_pos lh.length with hzero | hpos
    · omega
    · have hslot := (hkept.boot _ (hslots (lh.length - 1) (by omega))).log.2
      have hlen := getHead_length hget
      rw [slot_toNat (by rfl) (by omega)] at hslot
      omega

/-- `block_read` returns the header twice, and then `NULL`. -/
def Env.headerOnly : Env := ⟨1, fun r => decide (2 ≤ r), fun _ => false⟩

/-- With nothing but the header `fs_init` sleeps on no buffer. -/
theorem headerOnly_awake (d : Disk) (w : World) :
    (fsInit Env.headerOnly).run (World.boot d) ≠ .error .asleep w := by
  intro hrun
  cases hget : getHead (d 2) with
  | none =>
    rcases readHead_cases Env.headerOnly (ready_boot d) fsInitLog with
      ⟨lh, w', -, -, -, ⟨hnull, -⟩ | hsome⟩ | ⟨w', hover, -⟩
    · cases hnull
    · exact absurd (hsome.symm.trans hget) (by simp)
    · have hstop : (fsInit Env.headerOnly).run (World.boot d) = .error .outOfBounds w' :=
        bind_error (bind_error hover)
      cases hstop.symm.trans hrun
  | some lh =>
    rcases (Ends.iff_of_error hrun).mp (fsInit_ends Env.headerOnly d) with ⟨-, hnot⟩ | ⟨h, -⟩
    · refine hnot lh ((headerFound_of_read rfl d).trans hget) ?_
      -- the two reads of the header, and then nothing is got
      refine ⟨returns_single.mpr fun _ h => h, returns_single.mpr fun _ h => ?_,
        passes_of_fails fun k hk => decide_eq_true hk⟩
      exact h.elim id fun hmem => by simp at hmem
    · cases h

/-- **The log stays in the region the superblock reserves for it exactly when that region is where
`fs_init` puts it**, and the header found there fits: in it are block 2, the slots `log_write` can
fill, and those the header announces.  It is so for all that `block_read` may answer; and when it
never answers `NULL`, wherever `fs_init` does not wait for itself. -/
theorem log_in_region_iff {d : Disk} {sb : Superblock} {bitmap data : Set BlockNo}
    (himg : FsImage d sb bitmap data) :
    (sb.Covers d ↔ ∀ env, RegionKept env d sb data) ∧
      ∀ pid recycled, (∀ w, (fsInit (Env.steady pid recycled)).run (World.boot d) ≠
        .error .asleep w) →
          (sb.Covers d ↔ RegionKept (Env.steady pid recycled) d sb data) := by
  refine ⟨⟨fun hcov env => regionKept_of_covers himg hcov env, fun hkept => ?_⟩,
    fun pid recycled hawake => ⟨fun hcov => regionKept_of_covers himg hcov _, fun hkept => ?_⟩⟩
  · refine covers_of_regionKept ⟨rfl, fun t => ?_⟩ (headerOnly_awake d) (hkept Env.headerOnly)
    exact decide_eq_decide.mpr (iff_of_true (by omega) (by omega))
  · exact covers_of_regionKept ⟨rfl, fun _ => rfl⟩ hawake hkept

/-- An image: a superblock, and nothing else. -/
def image (sb : Superblock) : Disk := fun b =>
  if b = 1 then
    (((((((Block.setWord (fun _ => 0) 0 sb.magic).setWord 1 sb.size).setWord 2 sb.nblocks).setWord
      3 sb.ninodes).setWord 4 sb.nlog).setWord 5 sb.logstart).setWord 6 sb.inodestart).setWord 7
      sb.bmapstart
  else fun _ => 0

theorem image_superblock (sb : Superblock) : Superblock.ofBlock (image sb 1) = sb := by
  rw [image, if_pos rfl, Superblock.ofBlock]
  simp [Block.word_setWord]

/-- The layout `fs_init` expects: the log in the blocks 2 to 31, and eight blocks of inodes behind
it. -/
def expectedLayout : Superblock where
  magic := fsMagic
  size := 1000
  nblocks := 900
  ninodes := 64
  nlog := 30
  logstart := 2
  inodestart := 32
  bmapstart := 40

/-- Another layout: the inodes first, and the log behind them. -/
def inodesFirst : Superblock := { expectedLayout with logstart := 100, inodestart := 2 }

/-- The bitmap block and the data blocks of both. -/
def bitmapBlock : Set BlockNo := { b | b.toNat = 40 }

/-- The data blocks of both. -/
def dataBlocks : Set BlockNo := { b | 200 ≤ b.toNat }

theorem iblock_toNat {sb : Superblock} {b : BlockNo} (hn : sb.ninodes = 64)
    (hs : sb.inodestart.toNat ≤ 32) (hb : b ∈ sb.inodeRegion) :
    sb.inodestart.toNat ≤ b.toNat ∧ b.toNat < sb.inodestart.toNat + 8 := by
  obtain ⟨inum, hlt, rfl⟩ := hb
  have hipb : ipb = 8 := rfl
  have h64 : (64 : BitVec 32).toNat = 64 := rfl
  rw [hn, BitVec.lt_def, h64] at hlt
  rw [iblock, BitVec.toNat_ofNat, hipb]
  omega

/-- An image with 64 inodes, whose log is apart from the rest. -/
theorem image_ok {sb : Superblock} (hmagic : sb.magic = fsMagic) (hn : sb.ninodes = 64)
    (hs : sb.inodestart.toNat ≤ 32)
    (hlog : sb.logstart.toNat + sb.nlog.toNat ≤ sb.inodestart.toNat ∨
      41 ≤ sb.logstart.toNat ∧ sb.logstart.toNat + sb.nlog.toNat ≤ 200) :
    FsImage (image sb) sb bitmapBlock dataBlocks := by
  refine ⟨image_superblock sb, hmagic, ?_⟩
  simp only [List.pairwise_cons, List.mem_cons, List.not_mem_nil, or_false, forall_eq_or_imp,
    forall_eq, IsEmpty.forall_iff, implies_true, List.Pairwise.nil, and_true]
  refine ⟨⟨?_, ?_, ?_⟩, ⟨?_, ?_⟩, ?_⟩
  all_goals
    intro b hb hb'
  · have := iblock_toNat hn hs hb'
    have := hb.1
    have := hb.2
    omega
  · have : b.toNat = 40 := hb'
    have := hb.1
    have := hb.2
    omega
  · have : 200 ≤ b.toNat := hb'
    have := hb.1
    have := hb.2
    omega
  · have := iblock_toNat hn hs hb
    have : b.toNat = 40 := hb'
    omega
  · have := iblock_toNat hn hs hb
    have : 200 ≤ b.toNat := hb'
    omega
  · have : b.toNat = 40 := hb
    have : 200 ≤ b.toNat := hb'
    omega

/-- With the layout that is expected, the log stays in its region. -/
theorem log_in_region_iff_expected :
    expectedLayout.Covers (image expectedLayout) ∧
      ∀ env, RegionKept env (image expectedLayout) expectedLayout dataBlocks := by
  have hcov : expectedLayout.Covers (image expectedLayout) := by decide +kernel
  exact ⟨hcov, (log_in_region_iff (image_ok rfl rfl (by decide) (by decide))).1.mp hcov⟩

/-- With the inodes first, `fs_init` uses an inode block as the header of its log. -/
theorem log_leaves_region : ¬ ∀ (d : Disk) (sb : Superblock) (bitmap data : Set BlockNo)
    (env : Env),
    FsImage d sb bitmap data → RegionKept env d sb data := by
  intro h
  have hkept := h (image inodesFirst) inodesFirst bitmapBlock dataBlocks
    (Env.steady 1 fun _ => false) (image_ok rfl rfl (by decide) (by decide))
  have hlow := (hkept.boot fsInitLog.header List.mem_cons_self).log.1
  exact absurd hlow (by decide)

end Lithium.Wal
