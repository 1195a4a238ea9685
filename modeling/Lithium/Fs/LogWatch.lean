/-
# The disk during a commit, with many processes

The runs of the machine of `LogState.lean` beside the disk, and beside what the file system looked
like when the last commits started.  The processes use the log as `inode.c` does: a block is changed
inside an operation, by who holds its buffer, and is in the log before its buffer is given back.
`block_write` is called by `log.c` only, and its `block_read`s return a buffer.

`Watched.Inv` says what the cache and the disk are wherever the processes are; this module proves
that the steps of `commit` keep it.
-/
import Lithium.Fs.LogCrash
import Lithium.Fs.LogState

namespace Lithium.Wal

open RedoLog

/-! ## 1. What is watched -/

/-- The processes and the log, with the file system as it was seen when the last commit started,
and when the one before did. -/
structure Watched where
  run : LogRun
  latest : Disk
  previous : Disk

/-- The step starts a commit. -/
def LogRun.starts (s : LogRun) : LogStep → Bool
  | .endOp _ => s.log.endOp.2
  | .begin _ | .write .. | .commit .. | .finish _ | .block .. => false

/-- A step; what the file system sees is noted when a commit starts. -/
def Watched.step (x : Watched) (r : LogStep) : Option Watched :=
  (x.run.step r).map fun s =>
    if x.run.starts r then { run := s, latest := x.run.world.view, previous := x.latest }
    else { x with run := s }

/-- After `log_init`, over a file system `s`. -/
def Watched.start (l : Log) (w : World) (s : Disk) : Watched where
  run := { LogRun.init w l.start l.size with log := l }
  latest := s
  previous := s

/-- A block that may be given back: it is in the log, or was not changed. -/
def LogRun.Saved (s : LogRun) (b : BlockNo) : Prop :=
  b ∈ s.log.lh ∨ s.world.view b = s.world.disk b

/-- How `inode.c` calls the block layer: it assigns inside an operation, to a buffer it holds, and
gives no change back that is not in the log. -/
def LogRun.CallUses (area : LogArea) (s : LogRun) (i : Pid) : BlockCall → Prop
  | .assign b _ => s.point i = .inOp ∧ s.world.Holds i b ∧ area.layout.home b
  | .write _ => False
  | .release b => s.world.Holds i b → s.Saved b
  | .get .. | .lock _ | .unpin _ => True

/-- How the processes use the log. -/
def LogRun.Uses (area : LogArea) (s : LogRun) : LogStep → Prop
  | .begin _ | .finish _ => True
  | .write i b => s.world.Holds i b ∧ area.layout.home b
  | .endOp i => ∀ r ∈ s.refs, r.1 = i → s.world.Holds i r.2 → s.Saved r.2
  | .commit _ answer => answer ≠ .null
  | .block i c => s.CallUses area i c

instance : ∀ p : Point, Decidable (p = .inOp)
  | .inOp => isTrue rfl
  | .idle | .finish | .commit _ => isFalse Point.noConfusion

instance (area : LogArea) (b : BlockNo) : Decidable (area.layout.home b) :=
  inferInstanceAs (Decidable (¬ (_ ∧ _)))

instance (s : LogRun) (b : BlockNo) : Decidable (s.Saved b) :=
  inferInstanceAs (Decidable (_ ∨ _))

instance (area : LogArea) (s : LogRun) (i : Pid) : ∀ c, Decidable (s.CallUses area i c)
  | .assign _ _ => inferInstanceAs (Decidable (_ ∧ _ ∧ _))
  | .write _ => isFalse id
  | .release _ => inferInstanceAs (Decidable (_ → _))
  | .get .. | .lock _ | .unpin _ => isTrue trivial

instance (area : LogArea) (s : LogRun) : ∀ r, Decidable (s.Uses area r)
  | .begin _ | .finish _ => isTrue trivial
  | .write .. => inferInstanceAs (Decidable (_ ∧ _))
  | .endOp i =>
    List.decidableBAll (fun r : Pid × BlockNo => r.1 = i → s.world.Holds i r.2 → s.Saved r.2) s.refs
  | .commit _ answer => inferInstanceAs (Decidable (answer ≠ .null))
  | .block i c => inferInstanceAs (Decidable (s.CallUses area i c))

/-- A recovery of the disk `d` returns with `s` at every home block; and a crash during it leaves a
disk that leads to `s` again. -/
def Recovers (area : LogArea) (d s : Disk) : Prop :=
  ∀ (pid : Pid) (recycled : Nat → Bool), ∃ l w,
    (logInit (Env.steady pid recycled) area.start area.size).run (World.boot d) = .ok l w ∧
      (∀ b, area.layout.home b → w.disk b = s b) ∧
      Throughout (area.layout.Leads · s) d
        (writesOf (logInit (Env.steady pid recycled) area.start area.size) (World.boot d))

/-- A disk that leads to `s` recovers to `s`. -/
theorem recovers_of_leads {area : LogArea} {d s : Disk} (h : area.layout.Leads d s) :
    Recovers area d s := by
  intro pid recycled
  obtain ⟨l, w, hrun, hrest, hthrough⟩ := logInit_run (Env.steady pid recycled) (fun _ => rfl) h
  exact ⟨l, w, hrun, hrest.holds, hthrough⟩

/-- What a crash leaves.  While a commit is under way no operation is open, and the file system is
seen as it was when the commit started. -/
structure Watched.Survives (area : LogArea) (x : Watched) : Prop where
  crash : Recovers area x.run.world.disk x.latest ∨
    x.run.Committing ∧ Recovers area x.run.world.disk x.previous
  whole : x.run.Committing → (∀ i, x.run.point i ≠ .inOp) ∧
    ∀ b, area.layout.home b → x.run.world.view b = x.latest b

/-! ## 2. The invariant -/

/-- Who holds a buffer has its data. -/
def LogRun.Loaded (s : LogRun) : Prop :=
  ∀ i b, s.world.Holds i b → (s.world.bufs b).valid = true

/-- Process `i`, which is at `p`, has changed the buffer of `b` and not yet the disk. -/
def LogRun.Changes (area : LogArea) (s : LogRun) (i : Pid) (b : BlockNo) : Point → Prop
  | .inOp => s.world.Holds i b ∧ area.layout.home b
  | .commit (.entry toSlot _ (.write e)) => b = e.dst toSlot
  | .commit (.head _ (.write h)) => b = h
  | .commit _ | .idle | .finish => False

/-- What the local variables of a loop body are: the slot of `tail`, whose buffer is held once it
is read, and what is in the buffer to be written. -/
def Watched.EntryOk (x : Watched) (i : Pid) (toSlot : Bool) (tail : Nat) : EntryStage → Prop
  | .lockSlot slot => slot = x.run.log.slot tail
  | .getHome slot => slot = x.run.log.slot tail ∧ x.run.world.Holds i slot
  | .lockHome e | .copy e => e.slot = x.run.log.slot tail ∧ x.run.world.Holds i e.slot
  | .write e => e.slot = x.run.log.slot tail ∧ x.run.world.Holds i e.slot ∧
    x.run.world.view (e.dst toSlot) = x.latest e.home
  | .getSlot | .getHomeOnly | .lockHomeOnly _ | .unpin _ | .releaseSrc _ | .releaseDst _ => True

/-- What the local variables of `write_head` are. -/
def LogRun.HeaderOk (s : LogRun) (i : Pid) : HeadStage → Prop
  | .lock h => h = s.log.header
  | .fill h => h = s.log.header ∧ s.world.Holds i h
  | .write h => h = s.log.header ∧ s.world.Holds i h ∧
    getHead (s.world.view h) = some s.log.lh
  | .get | .release _ => True

/-- `write_head` has written the block. -/
def HeadStage.written : HeadStage → Bool
  | .release _ => true
  | .get | .lock _ | .fill _ | .write _ => false

/-- The disk after `t` entries of `write_log`, or of `install_trans`. -/
def Watched.DiskOk (area : LogArea) (x : Watched) (toSlot : Bool) (t : Nat) : Prop :=
  if toSlot then area.layout.Filling x.run.world.disk x.previous x.latest x.run.log.lh t
  else area.layout.Copying x.run.world.disk x.latest x.run.log.lh t

/-- The disk in `write_head`. -/
def Watched.HeadDisk (area : LogArea) (x : Watched) (written : Bool) : Bool → Prop
  | false => if written then x.DiskOk area false 0 else x.DiskOk area true x.run.log.lh.length
  | true =>
    if written then area.layout.Empty x.run.world.disk x.latest
    else ∃ as : List BlockNo, area.layout.Copying x.run.world.disk x.latest as as.length

/-- How far the disk is, where process `i` is in its commit. -/
def Watched.CommitOk (area : LogArea) (x : Watched) (i : Pid) : CommitPoint → Prop
  | .enter => area.layout.Empty x.run.world.disk x.previous
  | .loop toSlot tail => x.DiskOk area toSlot tail
  | .entry toSlot tail st =>
    x.EntryOk i toSlot tail st ∧ x.DiskOk area toSlot (if st.written then tail + 1 else tail)
  | .head cleared st => x.run.HeaderOk i st ∧ x.HeadDisk area st.written cleared
  | .clear => x.DiskOk area false x.run.log.lh.length

/-- The same for every place: in a commit the file system is seen as it is to be made durable. -/
def Watched.PhaseOk (area : LogArea) (x : Watched) (i : Pid) : Point → Prop
  | .idle | .inOp => True
  | .commit p => (∀ b, area.layout.home b → x.run.world.view b = x.latest b) ∧
    x.CommitOk area i p
  | .finish => area.layout.Empty x.run.world.disk x.latest

/-- The cache, the log and the disk, wherever the processes are. -/
structure Watched.Inv (area : LogArea) (x : Watched) : Prop where
  inv : x.run.Inv
  of : area.Of x.run.log
  fits : area.Fits x.run.log.lh
  loaded : x.run.Loaded
  synced : ∀ b, b ∉ x.run.pins → (∀ i, ¬ x.run.Changes area i b (x.run.point i)) →
    x.run.world.view b = x.run.world.disk b
  quiet : (∀ i, (x.run.point i).busy = false) → area.layout.Empty x.run.world.disk x.latest
  phase : ∀ i, x.PhaseOk area i (x.run.point i)

/-! ## 3. What a call does to the cache and the disk -/

/-- The calls that change neither what is seen nor the disk. -/
def BlockCall.keeps : BlockCall → Bool
  | .get .. | .lock _ | .unpin _ | .release _ => true
  | .assign .. | .write _ => false

/-- A buffer nobody references shows the disk, and nobody holds it. -/
def LogRun.Clean (s : LogRun) : Prop :=
  ∀ b, (s.world.bufs b).refcnt = 0 → s.world.view b = s.world.disk b ∧ ∀ i, ¬ s.world.Holds i b

theorem LogRun.Loaded.view_eq {s : LogRun} (h : s.Loaded) {i : Pid} {b : BlockNo}
    (hb : s.world.Holds i b) : s.world.view b = (s.world.bufs b).data := by
  rw [World.view, if_pos (h i b hb)]

/-- Replacing one buffer by one that shows the same. -/
theorem view_put_same (w : World) {b : BlockNo} {c : CachedBlock}
    (h : (if c.valid then c.data else w.disk b) = w.view b) : (w.put b c).view = w.view := by
  funext b'
  by_cases hb : b' = b
  · subst hb
    rw [World.view, put_self, put_disk]
    exact h
  · exact view_put_of_ne w hb c

section Calls

variable {s s' : LogRun} {i : Pid} {c : BlockCall}

/-- **The calls that keep what is seen.** -/
theorem LogRun.view_blockCall (hs : s.blockCall i c = some s') (hclean : s.Clean)
    (hc : c.keeps = true) : s'.world.disk = s.world.disk ∧ s'.world.view = s.world.view := by
  cases c with
  | assign b data => exact absurd hc (by simp [BlockCall.keeps])
  | write b => exact absurd hc (by simp [BlockCall.keeps])
  | get b recycled =>
    obtain rfl := Option.some.inj hs
    refine ⟨rfl, view_put_same _ ?_⟩
    by_cases hzero : (s.world.bufs b).refcnt = 0
    · have hb := (hclean b hzero).1
      simp only [hzero, bne_self_eq_false, Bool.false_or]
      cases recycled with
      | true => simpa using hb.symm
      | false => simp [World.view]
    · simp [World.view, hzero]
  | lock b =>
    rw [LogRun.blockCall, Option.map_eq_some_iff] at hs
    obtain ⟨w, hw, rfl⟩ := hs
    obtain ⟨-, rfl⟩ := lockBuf_eq hw
    exact ⟨rfl, view_put_same _ rfl⟩
  | unpin b =>
    obtain rfl := Option.some.inj hs
    exact ⟨rfl, view_put_same _ rfl⟩
  | release b =>
    obtain rfl := Option.some.inj hs
    dsimp only
    rw [blockRelease_eq]
    split
    · exact ⟨rfl, view_put_same _ rfl⟩
    · exact ⟨rfl, rfl⟩

/-- An assignment to a held buffer. -/
theorem LogRun.view_assign {b : BlockNo} {data : Block}
    (hs : s.blockCall i (.assign b data) = some s')
    (hloaded : s.Loaded) (hb : s.world.Holds i b) :
    s'.world.disk = s.world.disk ∧ s'.world.view = Function.update s.world.view b data := by
  obtain rfl := Option.some.inj hs
  refine ⟨rfl, ?_⟩
  funext b'
  by_cases hb' : b' = b
  · subst hb'
    rw [Function.update_self]
    exact view_put_self _ _ _ (hloaded i b' hb)
  · rw [Function.update_of_ne hb']
    exact view_put_of_ne _ hb' _

/-- `block_write` of a held buffer. -/
theorem LogRun.view_write {b : BlockNo} (hs : s.blockCall i (.write b) = some s')
    (hloaded : s.Loaded) (hb : s.world.Holds i b) :
    s'.world.disk = Function.update s.world.disk b (s.world.view b) ∧
      s'.world.view = s.world.view := by
  obtain rfl := Option.some.inj hs
  have hrun : (blockWrite (asPid i false) b).run s.world
      = .ok () (s.world.stored b (s.world.bufs b).data) := blockWrite_held hb
  have hdata := hloaded.view_eq hb
  simp only [hrun, finalWorld]
  refine ⟨by rw [hdata]; rfl, ?_⟩
  funext b'
  rw [World.view, World.view, stored_bufs]
  by_cases hb' : b' = b
  · subst hb'
    rw [if_pos (hloaded i b' hb), if_pos (hloaded i b' hb)]
  · simp only [World.stored, Function.update_of_ne hb']

/-- Held buffers stay loaded. -/
theorem LogRun.Loaded.blockCall (h : s.Loaded) (hs : s.blockCall i c = some s')
    (hclean : s.Clean) : s'.Loaded := by
  intro j b hj
  rcases holds_of_blockCall hs hj with ⟨hheld, -⟩ | ⟨rfl, rfl⟩
  · have hvalid := h j b hheld
    -- a change of one buffer that keeps it valid
    have hput : ∀ (b' : BlockNo) (x : CachedBlock), (b = b' → x.valid = true) →
        ((s.world.put b' x).bufs b).valid = true := by
      intro b' x hx
      by_cases hb : b = b'
      · subst hb
        rw [put_self]
        exact hx rfl
      · rw [put_of_ne _ hb]
        exact hvalid
    cases c with
    | get b' recycled =>
      obtain rfl := Option.some.inj hs
      refine hput b' _ ?_
      rintro rfl
      have hne : (s.world.bufs b).refcnt ≠ 0 := fun hzero => (hclean b hzero).2 j hheld
      simp [hvalid, hne]
    | lock b' =>
      rw [LogRun.blockCall, Option.map_eq_some_iff] at hs
      obtain ⟨w, hw, rfl⟩ := hs
      obtain ⟨-, rfl⟩ := lockBuf_eq hw
      exact hput b' _ fun _ => rfl
    | assign b' data =>
      obtain rfl := Option.some.inj hs
      refine hput b' _ ?_
      rintro rfl
      exact hvalid
    | write b' =>
      obtain rfl := Option.some.inj hs
      dsimp only
      rw [blockWrite_bufs]
      exact hvalid
    | unpin b' =>
      obtain rfl := Option.some.inj hs
      refine hput b' _ ?_
      rintro rfl
      exact hvalid
    | release b' =>
      obtain rfl := Option.some.inj hs
      dsimp only
      rw [blockRelease_eq]
      split
      · refine hput b' _ ?_
        rintro rfl
        exact hvalid
      · exact hvalid
  · rw [LogRun.blockCall, Option.map_eq_some_iff] at hs
    obtain ⟨w, hw, rfl⟩ := hs
    obtain ⟨-, rfl⟩ := lockBuf_eq hw
    rw [put_self]

/-- Who locks a buffer holds it. -/
theorem LogRun.holds_lock {b : BlockNo} (hs : s.blockCall i (.lock b) = some s') :
    s'.world.Holds i b := by
  rw [LogRun.blockCall, Option.map_eq_some_iff] at hs
  obtain ⟨w, hw, rfl⟩ := hs
  obtain ⟨-, rfl⟩ := lockBuf_eq hw
  rw [World.Holds, put_self]

end Calls

/-! ## 4. The invariant during a commit -/

section Commit

variable {area : LogArea} {x : Watched} {i : Pid}

/-- Who is changing a block holds its buffer. -/
theorem Watched.Inv.holds (h : x.Inv area) {b : BlockNo}
    (hb : x.run.Changes area i b (x.run.point i)) : x.run.world.Holds i b := by
  have hpoint := h.inv.point i
  have hphase := h.phase i
  cases hpi : x.run.point i with
  | idle => rw [hpi] at hb; exact hb.elim
  | finish => rw [hpi] at hb; exact hb.elim
  | inOp => rw [hpi] at hb; exact hb.1
  | commit p =>
    rw [hpi] at hb hpoint hphase
    cases p with
    | enter => exact hb.elim
    | loop toSlot tail => exact hb.elim
    | clear => exact hb.elim
    | head cleared st =>
      cases st with
      | write b' => exact hb ▸ hphase.2.1.2.1
      | _ => exact hb.elim
    | entry toSlot tail st =>
      cases st with
      | write e =>
        obtain rfl : b = e.dst toSlot := hb
        cases toSlot with
        | true => exact hphase.2.1.2.1
        | false => exact hpoint.2.1.2
      | _ => exact hb.elim

theorem Watched.Inv.clean (h : x.Inv area) : x.run.Clean := by
  intro b hzero
  have hcount := h.inv.refcnt b
  have hpin : b ∉ x.run.pins := by
    intro hb
    have := List.count_pos_iff.mpr hb
    omega
  have hfree : ∀ i, ¬ x.run.world.Holds i b := by
    intro i hi
    have hpos : 0 < x.run.references b :=
      List.countP_pos_iff.mpr ⟨(i, b), h.inv.held i b hi, beq_self_eq_true b⟩
    omega
  exact ⟨h.synced b hpin fun i hi => hfree i (h.holds hi), hfree⟩

/-- The invariant while process `i` is in the last part of `log_end_op`. -/
theorem Watched.Inv.of_busy (hinv : x.run.Inv) (hof : area.Of x.run.log)
    (hfits : area.Fits x.run.log.lh) (hloaded : x.run.Loaded) {p : Point}
    (hpi : x.run.point i = p) (hp : p.busy = true)
    (hsynced : ∀ b, b ∉ x.run.pins → ¬ x.run.Changes area i b p →
      x.run.world.view b = x.run.world.disk b)
    (hphase : x.PhaseOk area i p) : x.Inv area where
  inv := hinv
  of := hof
  fits := hfits
  loaded := hloaded
  synced b hb hch := hsynced b hb (hpi ▸ hch i)
  quiet hq := absurd (hq i) (by rw [hpi, hp]; simp)
  phase j := by
    by_cases hj : j = i
    · rw [hj, hpi]
      exact hphase
    · rw [(hinv.alone i (by rw [hpi]; exact hp)).2 j hj]
      exact trivial

/-- Only the process in the commit changes anything. -/
theorem Watched.Inv.synced_busy (h : x.Inv area) {p : Point} (hpi : x.run.point i = p)
    (hp : p.busy = true) {b : BlockNo} (hb : b ∉ x.run.pins) (hch : ¬ x.run.Changes area i b p) :
    x.run.world.view b = x.run.world.disk b := by
  refine h.synced b hb ?_
  intro j
  by_cases hj : j = i
  · rw [hj, hpi]
    exact hch
  · rw [(h.inv.alone i (by rw [hpi]; exact hp)).2 j hj]
    exact id

/-- The pins of a commit are home blocks. -/
theorem Watched.Inv.pins_home (h : x.Inv area) {p : CommitPoint}
    (hpi : x.run.point i = .commit p) {b : BlockNo} (hb : b ∈ x.run.pins) :
    area.layout.home b := by
  refine h.fits.homes b ?_
  have hpoint := h.inv.point i
  rw [hpi] at hpoint
  cases p with
  | enter => exact hpoint ▸ hb
  | clear =>
    rw [hpoint.1] at hb
    exact absurd hb List.not_mem_nil
  | head cleared st => exact hpoint.1 ▸ hb
  | loop toSlot tail =>
    rw [hpoint.2.pins] at hb
    exact List.mem_of_mem_drop hb
  | entry toSlot tail st =>
    rw [hpoint.2.2.pins] at hb
    exact List.mem_of_mem_drop hb

variable {y : Watched} {toSlot : Bool} {t : Nat}

/-- The disk is as far as it was. -/
theorem Watched.DiskOk.congr (h : x.DiskOk area toSlot t)
    (hdisk : y.run.world.disk = x.run.world.disk) (hlh : y.run.log.lh = x.run.log.lh)
    (hlatest : y.latest = x.latest) (hprevious : y.previous = x.previous) :
    y.DiskOk area toSlot t := by
  rw [Watched.DiskOk, hdisk, hlh, hlatest, hprevious]
  exact h

/-- One entry more has been written. -/
theorem Watched.DiskOk.write (h : x.DiskOk area toSlot t) (hfits : area.Fits x.run.log.lh)
    {e : Entry} (ht : x.run.log.lh[t]? = some e.home) (hslot : e.slot = area.layout.slot t)
    (hdisk : y.run.world.disk
      = Function.update x.run.world.disk (e.dst toSlot) (x.latest e.home))
    (hlh : y.run.log.lh = x.run.log.lh)
    (hlatest : y.latest = x.latest) (hprevious : y.previous = x.previous) :
    y.DiskOk area toSlot (t + 1) := by
  rw [Watched.DiskOk, hdisk, hlh, hlatest, hprevious]
  cases toSlot with
  | true =>
    rw [Entry.dst, if_pos rfl, hslot]
    exact Layout.Filling.fill h ht hfits.length_le
  | false => exact Layout.Copying.copy h ht

/-- `y` is `x` with what process `i` has called done, which left `s`, and the process at `p`. -/
structure Watched.Goes (x : Watched) (s : LogRun) (i : Pid) (p : Point) (y : Watched) : Prop where
  inv : y.run.Inv
  point : y.run.point i = p
  log : y.run.log = x.run.log
  world : y.run.world = s.world
  pins : y.run.pins = s.pins
  latest : y.latest = x.latest
  previous : y.previous = x.previous

variable {s : LogRun} {c : BlockCall} {p : Point}

/-- What a process in its commit is changing is a matter of where it is. -/
theorem LogRun.changes_busy {s s' : LogRun} {p : Point} {b : BlockNo} (hp : p.busy = true)
    (h : s.Changes area i b p) : s'.Changes area i b p := by
  cases p with
  | idle => exact h
  | finish => exact h
  | inOp => exact absurd hp (by simp [Point.busy])
  | commit p =>
    cases p with
    | entry toSlot tail st => cases st <;> exact h
    | head cleared st => cases st <;> exact h
    | _ => exact h

/-- **A call in a commit**: what is left to see is what is seen and on the disk afterwards. -/
theorem Watched.Inv.goes (h : x.Inv area) (hs : x.run.blockCall i c = some s)
    (hy : x.Goes s i p y) (hp : p.busy = true)
    (hsynced : ∀ b, b ∉ s.pins → ¬ s.Changes area i b p → s.world.view b = s.world.disk b)
    (hphase : y.PhaseOk area i p) : y.Inv area := by
  have hloaded := h.loaded.blockCall hs h.clean
  refine Watched.Inv.of_busy hy.inv ?_ ?_ ?_ hy.point hp ?_ hphase
  · rw [hy.log]
    exact h.of
  · rw [hy.log]
    exact h.fits
  · rw [LogRun.Loaded, hy.world]
    exact hloaded
  · rw [hy.world, hy.pins]
    exact fun b hb hch => hsynced b hb fun hch' => hch (LogRun.changes_busy hp hch')

/-- A call that changes neither what is seen nor the disk, nor a pin. -/
theorem Watched.Inv.goes_keeps (h : x.Inv area) {q : CommitPoint}
    (hpi : x.run.point i = .commit q) (hq : ∀ b, ¬ x.run.Changes area i b (.commit q))
    (hs : x.run.blockCall i c = some s) (hc : c.keeps = true) (hunpin : ∀ b, c ≠ .unpin b)
    (hy : x.Goes s i p y) (hp : p.busy = true)
    (hphase : y.run.world.view = x.run.world.view → y.run.world.disk = x.run.world.disk →
      y.PhaseOk area i p) : y.Inv area := by
  obtain ⟨hdisk, hview⟩ := LogRun.view_blockCall hs h.clean hc
  refine h.goes hs hy hp ?_ (hphase (hy.world ▸ hview) (hy.world ▸ hdisk))
  intro b hb _
  rw [LogRun.blockCall_pins hs hunpin] at hb
  rw [hview, hdisk]
  exact h.synced_busy hpi rfl hb (hq b)

/-- In a commit, seen from the same disk. -/
theorem Watched.Goes.target (h : x.Inv area) {q : CommitPoint} (hpi : x.run.point i = .commit q)
    (hy : x.Goes s i p y) (hview : y.run.world.view = x.run.world.view) :
    ∀ b, area.layout.home b → y.run.world.view b = y.latest b := by
  intro b hb
  have hphase := h.phase i
  rw [hpi] at hphase
  rw [hview, hy.latest]
  exact hphase.1 b hb

theorem Watched.Goes.disk {q : Point} (hy : x.Goes s i q y)
    (hdisk : y.run.world.disk = x.run.world.disk) (h : x.DiskOk area toSlot t) :
    y.DiskOk area toSlot t :=
  h.congr hdisk (by rw [hy.log]) hy.latest hy.previous

theorem Watched.Goes.holds (hs : x.run.blockCall i c = some s) (hy : x.Goes s i p y)
    {b : BlockNo} (hb : x.run.world.Holds i b) (hc : c ≠ .release b) : y.run.world.Holds i b := by
  rw [hy.world]
  exact LogRun.Holds.blockCall hs hb (Or.inr hc)

/-- What an entry copies: the new contents of its home block. -/
theorem Watched.Inv.source (h : x.Inv area) {tail : Nat} {e : Entry}
    (hpi : x.run.point i = .commit (.entry toSlot tail (.copy e))) :
    x.run.world.view (e.src toSlot) = x.latest e.home := by
  have hpoint := h.inv.point i
  have hphase := h.phase i
  rw [hpi] at hpoint hphase
  obtain ⟨htail, ⟨hhome, -⟩, -⟩ := hpoint
  obtain ⟨htarget, ⟨hslot, -⟩, hdisk⟩ := hphase
  have hmem := h.fits.homes _ (List.mem_of_getElem? hhome)
  cases toSlot with
  | true => exact htarget _ hmem
  | false =>
    -- the buffer of the slot shows the slot
    have hcap : tail < area.layout.capacity := Nat.lt_of_lt_of_le htail h.fits.length_le
    rw [h.of.slot] at hslot
    have hpin : e.slot ∉ x.run.pins := by
      intro hb
      exact area.layout.slot_not_home tail hcap (hslot ▸ h.pins_home hpi hb)
    have hcopying : area.layout.Copying x.run.world.disk x.latest x.run.log.lh tail := hdisk
    change x.run.world.view e.slot = _
    rw [h.synced_busy hpi rfl hpin id, hslot, ← hcopying.announces.replayed_entry hhome]
    exact hcopying.replayed _ hmem

/-- The block of an entry is home, or is a slot. -/
theorem Watched.Inv.dst_of_home (h : x.Inv area) {tail : Nat} {e : Entry}
    (htail : x.run.log.lh[tail]? = some e.home) (hslot : e.slot = x.run.log.slot tail)
    {b : BlockNo} (hb : area.layout.home b) (hdst : b = e.dst toSlot) : b = e.home := by
  cases toSlot with
  | false => exact hdst
  | true =>
    have hlt := (List.getElem?_eq_some_iff.mp htail).1
    have hcap : tail < area.layout.capacity := Nat.lt_of_lt_of_le hlt h.fits.length_le
    rw [h.of.slot] at hslot
    exact absurd (hdst.trans hslot) (area.layout.home_ne_slot hb hcap)

/-- The block of an entry is assigned the other one, which is what is to be made durable. -/
theorem Watched.Inv.entry_copy (h : x.Inv area) {tail : Nat} {e : Entry}
    (hpi : x.run.point i = .commit (.entry toSlot tail (.copy e)))
    (hs : x.run.blockCall i (.assign (e.dst toSlot) (x.run.world.bufs (e.src toSlot)).data)
      = some s)
    (hy : x.Goes s i (.commit (.entry toSlot tail (.write e))) y) : y.Inv area := by
  have hpoint := h.inv.point i
  have hphase := h.phase i
  rw [hpi] at hpoint hphase
  obtain ⟨-, hstage, -⟩ := hpoint
  obtain ⟨htarget, hentry, hdiskOk⟩ := hphase
  have hslot : y.run.log.slot tail = x.run.log.slot tail := by rw [hy.log]
  have hsrc : x.run.world.Holds i (e.src toSlot) := by
    cases toSlot with
    | true => exact hstage.2
    | false => exact hentry.2
  have hdst : x.run.world.Holds i (e.dst toSlot) := by
    cases toSlot with
    | true => exact hentry.2
    | false => exact hstage.2
  obtain ⟨hdisk, hview⟩ := LogRun.view_assign hs h.loaded hdst
  rw [← h.loaded.view_eq hsrc, h.source hpi] at hview
  refine h.goes hs hy rfl ?_ ⟨?_, ⟨hentry.1.trans hslot.symm, hy.holds hs hentry.2 (by simp), ?_⟩,
    hy.disk (hy.world ▸ hdisk) hdiskOk⟩
  · intro b hb hch
    rw [LogRun.blockCall_pins hs (by simp)] at hb
    have hne : b ≠ e.dst toSlot := hch
    rw [hview, hdisk, Function.update_of_ne hne]
    exact h.synced_busy hpi rfl hb id
  · intro b hb
    rw [hy.world, hview, hy.latest]
    by_cases hne : b = e.dst toSlot
    · rw [h.dst_of_home hstage.1 hentry.1 hb hne, ← hne,
        h.dst_of_home hstage.1 hentry.1 hb hne, Function.update_self]
    · rw [Function.update_of_ne hne]
      exact htarget b hb
  · rw [hy.world, hview, hy.latest, Function.update_self]

/-- The block of an entry is written, and the disk is one entry further. -/
theorem Watched.Inv.entry_write (h : x.Inv area) {tail : Nat} {e : Entry}
    (hpi : x.run.point i = .commit (.entry toSlot tail (.write e)))
    (hs : x.run.blockCall i (.write (e.dst toSlot)) = some s)
    (hy : x.Goes s i (.commit (.entry toSlot tail
      (if toSlot then .releaseSrc e else .unpin e))) y) : y.Inv area := by
  have hpoint := h.inv.point i
  have hphase := h.phase i
  rw [hpi] at hpoint hphase
  obtain ⟨-, hstage, -⟩ := hpoint
  obtain ⟨-, hentry, hdiskOk⟩ := hphase
  have hdst : x.run.world.Holds i (e.dst toSlot) := by
    cases toSlot with
    | true => exact hentry.2.1
    | false => exact hstage.2
  obtain ⟨hdisk, hview⟩ := LogRun.view_write hs h.loaded hdst
  rw [hentry.2.2] at hdisk
  have hnext : y.DiskOk area toSlot (tail + 1) :=
    hdiskOk.write h.fits hstage.1 (hentry.1.trans (h.of.slot tail)) (hy.world ▸ hdisk)
      (by rw [hy.log]) hy.latest hy.previous
  refine h.goes hs hy rfl ?_ ⟨hy.target h hpi (hy.world ▸ hview), ?_⟩
  · intro b hb _
    rw [LogRun.blockCall_pins hs (by simp)] at hb
    rw [hview, hdisk]
    by_cases hne : b = e.dst toSlot
    · rw [hne, Function.update_self]
      exact hentry.2.2
    · rw [Function.update_of_ne hne]
      exact h.synced_busy hpi rfl hb hne
  · cases toSlot with
    | true => exact ⟨trivial, hnext⟩
    | false => exact ⟨trivial, hnext⟩

/-- An installed block loses its pin. -/
theorem Watched.Inv.entry_unpin (h : x.Inv area) {tail : Nat} {e : Entry}
    (hpi : x.run.point i = .commit (.entry toSlot tail (.unpin e)))
    (hs : x.run.blockCall i (.unpin e.home) = some s)
    (hy : x.Goes s i (.commit (.entry toSlot tail (.releaseSrc e))) y) : y.Inv area := by
  have hpoint := h.inv.point i
  have hphase := h.phase i
  rw [hpi] at hpoint hphase
  obtain ⟨-, hstage, -⟩ := hpoint
  obtain ⟨htarget, -, hdiskOk⟩ := hphase
  obtain ⟨hdisk, hview⟩ := LogRun.view_blockCall hs h.clean rfl
  obtain ⟨hhome, rfl⟩ := hstage
  refine h.goes hs hy rfl ?_ ⟨hy.target h hpi (hy.world ▸ hview), trivial,
    hy.disk (hy.world ▸ hdisk) hdiskOk⟩
  intro b hb _
  have hpins : s.pins = x.run.pins.erase e.home := by
    obtain rfl := Option.some.inj hs
    rfl
  rw [hview, hdisk]
  by_cases hne : b = e.home
  · -- its copy has just been written
    have hcopying : area.layout.Copying x.run.world.disk x.latest x.run.log.lh (tail + 1) :=
      hdiskOk
    rw [hne, hcopying.copied tail e.home (Nat.lt_succ_self _) hhome]
    exact htarget _ (h.fits.homes _ (List.mem_of_getElem? hhome))
  · rw [hpins] at hb
    exact h.synced_busy hpi rfl (fun hmem => hb ((List.mem_erase_of_ne hne).mpr hmem)) id

/-- **An entry**, call by call. -/
theorem Watched.Inv.entry (h : x.Inv area) {tail : Nat} {st : EntryStage} {recycled : Bool}
    {p : CommitPoint} (hpi : x.run.point i = .commit (.entry toSlot tail st))
    (hc : x.run.entryCall (.buffer recycled) toSlot tail st = (some c, p))
    (hs : x.run.blockCall i c = some s) (hy : x.Goes s i (.commit p) y) : y.Inv area := by
  have hpoint := h.inv.point i
  have hphase := h.phase i
  rw [hpi] at hpoint hphase
  obtain ⟨-, hstage, -⟩ := hpoint
  obtain ⟨htarget, hentry, hdiskOk⟩ := hphase
  have hslot : y.run.log.slot tail = x.run.log.slot tail := by rw [hy.log]
  cases st with
  | getSlot =>
    obtain ⟨rfl, rfl⟩ := Prod.mk.inj hc |>.imp_left Option.some.inj
    refine h.goes_keeps hpi (fun _ => id) hs rfl (by simp) hy rfl fun hview hdisk => ?_
    exact ⟨hy.target h hpi hview, hslot.symm, hy.disk hdisk hdiskOk⟩
  | lockSlot slot =>
    obtain ⟨rfl, rfl⟩ := Prod.mk.inj hc |>.imp_left Option.some.inj
    refine h.goes_keeps hpi (fun _ => id) hs rfl (by simp) hy rfl fun hview hdisk => ?_
    refine ⟨hy.target h hpi hview, ⟨hentry.trans hslot.symm, ?_⟩, hy.disk hdisk hdiskOk⟩
    rw [hy.world]
    exact LogRun.holds_lock hs
  | getHome slot =>
    obtain ⟨rfl, rfl⟩ := Prod.mk.inj hc |>.imp_left Option.some.inj
    refine h.goes_keeps hpi (fun _ => id) hs rfl (by simp) hy rfl fun hview hdisk => ?_
    exact ⟨hy.target h hpi hview, ⟨hentry.1.trans hslot.symm, hy.holds hs hentry.2 (by simp)⟩,
      hy.disk hdisk hdiskOk⟩
  | lockHome e =>
    obtain ⟨rfl, rfl⟩ := Prod.mk.inj hc |>.imp_left Option.some.inj
    refine h.goes_keeps hpi (fun _ => id) hs rfl (by simp) hy rfl fun hview hdisk => ?_
    exact ⟨hy.target h hpi hview, ⟨hentry.1.trans hslot.symm, hy.holds hs hentry.2 (by simp)⟩,
      hy.disk hdisk hdiskOk⟩
  | getHomeOnly => exact hstage.elim
  | lockHomeOnly home => exact hstage.elim
  | copy e =>
    obtain ⟨rfl, rfl⟩ := Prod.mk.inj hc |>.imp_left Option.some.inj
    exact h.entry_copy hpi hs hy
  | write e =>
    obtain ⟨rfl, rfl⟩ := Prod.mk.inj hc |>.imp_left Option.some.inj
    exact h.entry_write hpi hs hy
  | unpin e =>
    obtain ⟨rfl, rfl⟩ := Prod.mk.inj hc |>.imp_left Option.some.inj
    exact h.entry_unpin hpi hs hy
  | releaseSrc e =>
    obtain ⟨rfl, rfl⟩ := Prod.mk.inj hc |>.imp_left Option.some.inj
    refine h.goes_keeps hpi (fun _ => id) hs rfl (by simp) hy rfl fun hview hdisk => ?_
    exact ⟨hy.target h hpi hview, trivial, hy.disk hdisk hdiskOk⟩
  | releaseDst e =>
    obtain ⟨rfl, rfl⟩ := Prod.mk.inj hc |>.imp_left Option.some.inj
    refine h.goes_keeps hpi (fun _ => id) hs rfl (by simp) hy rfl fun hview hdisk => ?_
    exact ⟨hy.target h hpi hview, hy.disk hdisk hdiskOk⟩

/-- The disk of `write_head` is as it was. -/
theorem Watched.Goes.headDisk {q : Point} (hy : x.Goes s i q y)
    (hdisk : y.run.world.disk = x.run.world.disk) {written cleared : Bool}
    (h : x.HeadDisk area written cleared) : y.HeadDisk area written cleared := by
  cases cleared with
  | false =>
    cases written with
    | false =>
      have hfull : x.DiskOk area true x.run.log.lh.length := h
      rw [Watched.HeadDisk, hy.log]
      exact hy.disk hdisk hfull
    | true =>
      have hannounced : x.DiskOk area false 0 := h
      exact hy.disk hdisk hannounced
  | true => rwa [Watched.HeadDisk, hdisk, hy.latest]

/-- **The header is written**: the commit point, and its end. -/
theorem Watched.Inv.headWritten (h : x.Inv area) {cleared : Bool} {b : BlockNo}
    (hpi : x.run.point i = .commit (.head cleared (.write b))) {q : Point} (hy : x.Goes s i q y)
    (hdisk : y.run.world.disk = Function.update x.run.world.disk b (x.run.world.view b)) :
    y.HeadDisk area true cleared := by
  have hpoint := h.inv.point i
  have hphase := h.phase i
  rw [hpi] at hpoint hphase
  obtain ⟨hpins, hnil, -⟩ := hpoint
  obtain ⟨htarget, ⟨hb, -, hget⟩, hold⟩ := hphase
  rw [h.of.header] at hb
  rw [hb] at hdisk hget
  cases cleared with
  | false =>
    have hfill : area.layout.Filling x.run.world.disk x.previous x.latest x.run.log.lh
        x.run.log.lh.length := hold
    have hnew : ∀ a, area.layout.home a → a ∉ x.run.log.lh → x.previous a = x.latest a := by
      intro a ha hmem
      have hne : a ≠ b := hb ▸ area.layout.home_ne_header ha
      have hsync := h.synced_busy hpi rfl (hpins ▸ hmem) hne
      rw [← htarget a ha, hsync, hfill.home a ha]
    have hcopying := hfill.announce h.fits.nodup h.fits.length_le h.fits.homes hnew hget
    rw [← hdisk, ← hy.log, ← hy.latest] at hcopying
    exact hcopying
  | true =>
    obtain ⟨as, has⟩ : ∃ as : List BlockNo,
      area.layout.Copying x.run.world.disk x.latest as as.length := hold
    rw [hnil rfl] at hget
    have hempty := has.clear hget
    rw [← hdisk, ← hy.latest] at hempty
    exact hempty

/-- **`write_head`**, call by call. -/
theorem Watched.Inv.head (h : x.Inv area) {cleared : Bool} {st : HeadStage} {recycled : Bool}
    (hpi : x.run.point i = .commit (.head cleared st))
    (hc : x.run.headCall (.buffer recycled) cleared st = (some c, p))
    (hs : x.run.blockCall i c = some s) (hy : x.Goes s i p y) : y.Inv area := by
  have hpoint := h.inv.point i
  have hphase := h.phase i
  rw [hpi] at hpoint hphase
  obtain ⟨htarget, hhead, hdiskOk⟩ := hphase
  have hheader : y.run.log.header = x.run.log.header := by rw [hy.log]
  cases st with
  | get =>
    obtain ⟨rfl, rfl⟩ := Prod.mk.inj hc |>.imp_left Option.some.inj
    refine h.goes_keeps hpi (fun _ => id) hs rfl (by simp) hy rfl fun hview hdisk => ?_
    exact ⟨hy.target h hpi hview, hheader.symm, hy.headDisk hdisk hdiskOk⟩
  | lock b =>
    obtain ⟨rfl, rfl⟩ := Prod.mk.inj hc |>.imp_left Option.some.inj
    refine h.goes_keeps hpi (fun _ => id) hs rfl (by simp) hy rfl fun hview hdisk => ?_
    refine ⟨hy.target h hpi hview, ⟨hhead.trans hheader.symm, ?_⟩, hy.headDisk hdisk hdiskOk⟩
    rw [hy.world]
    exact LogRun.holds_lock hs
  | fill b =>
    obtain ⟨rfl, rfl⟩ := Prod.mk.inj hc |>.imp_left Option.some.inj
    obtain ⟨hdisk, hview⟩ := LogRun.view_assign hs h.loaded hhead.2
    have hb : b = area.layout.header := hhead.1.trans h.of.header
    refine h.goes hs hy rfl ?_ ⟨?_, ⟨hhead.1.trans hheader.symm, hy.holds hs hhead.2 (by simp), ?_⟩,
      hy.headDisk (hy.world ▸ hdisk) hdiskOk⟩
    · intro b' hb' hch
      rw [LogRun.blockCall_pins hs (by simp)] at hb'
      have hne : b' ≠ b := hch
      rw [hview, hdisk, Function.update_of_ne hne]
      exact h.synced_busy hpi rfl hb' id
    · intro a ha
      rw [hy.world, hview, hy.latest,
        Function.update_of_ne (hb ▸ area.layout.home_ne_header ha)]
      exact htarget a ha
    · rw [hy.world, hview, Function.update_self, hy.log]
      exact getHead_putHead _ h.fits.length_le_logSize
  | write b =>
    obtain ⟨rfl, rfl⟩ := Prod.mk.inj hc |>.imp_left Option.some.inj
    obtain ⟨hdisk, hview⟩ := LogRun.view_write hs h.loaded hhead.2.1
    refine h.goes hs hy rfl ?_ ⟨hy.target h hpi (hy.world ▸ hview), trivial,
      h.headWritten hpi hy (hy.world ▸ hdisk)⟩
    intro b' hb' _
    rw [LogRun.blockCall_pins hs (by simp)] at hb'
    rw [hview, hdisk]
    by_cases hne : b' = b
    · rw [hne, Function.update_self]
    · rw [Function.update_of_ne hne]
      exact h.synced_busy hpi rfl hb' hne
  | release b =>
    obtain ⟨rfl, rfl⟩ := Prod.mk.inj hc |>.imp_left Option.some.inj
    have hbusy : (LogRun.afterHead cleared).busy = true := by cases cleared <;> rfl
    refine h.goes_keeps hpi (fun _ => id) hs rfl (by simp) hy hbusy fun hview hdisk => ?_
    have hnext := hy.headDisk hdisk hdiskOk
    cases cleared with
    | false => exact ⟨hy.target h hpi hview, hnext⟩
    | true => exact hnext

/-- A process goes on in its commit, and nothing else changes but the list of the log, when it is
emptied. -/
theorem Watched.Inv.moves (h : x.Inv area) {q : CommitPoint}
    (hpi : x.run.point i = .commit q) (hq : ∀ b, ¬ x.run.Changes area i b (.commit q))
    (hinv : y.run.Inv) (hpoint : y.run.point i = p) (hp : p.busy = true)
    (hof : area.Of y.run.log) (hfits : area.Fits y.run.log.lh)
    (hworld : y.run.world = x.run.world) (hpins : y.run.pins = x.run.pins)
    (hphase : y.PhaseOk area i p) : y.Inv area := by
  refine Watched.Inv.of_busy hinv hof hfits ?_ hpoint hp ?_ hphase
  · rw [LogRun.Loaded, hworld]
    exact h.loaded
  · intro b hb _
    rw [hpins] at hb
    rw [hworld]
    exact h.synced_busy hpi rfl hb (hq b)

/-- What is noted in a step does not matter to a call. -/
theorem LogRun.blockCall_noted {s s' : LogRun} {l : List (Nat × BlockNo)}
    (hs : { s with installed := l }.blockCall i c = some s') :
    ∃ s'', s.blockCall i c = some s'' ∧ s'.world = s''.world ∧ s'.pins = s''.pins := by
  cases c with
  | lock b =>
    rw [LogRun.blockCall, Option.map_eq_some_iff] at hs
    obtain ⟨w, hw, rfl⟩ := hs
    exact ⟨{ s with world := w }, by rw [LogRun.blockCall, hw]; rfl, rfl, rfl⟩
  | _ => exact ⟨_, rfl, Option.some.inj hs ▸ ⟨rfl, rfl⟩⟩

/-- **A step of a commit.** -/
theorem Watched.Inv.commitStep (h : x.Inv area) {answer : ReadAnswer} {q : CommitPoint}
    {s' : LogRun} (hanswer : answer ≠ .null) (hpi : x.run.point i = .commit q)
    (hs : x.run.commitStep i answer q = some s') (hinv : s'.Inv) :
    ({ x with run := s' } : Watched).Inv area := by
  have hpoint := h.inv.point i
  have hphase := h.phase i
  rw [hpi] at hpoint hphase
  obtain ⟨htarget, hok⟩ := hphase
  obtain ⟨recycled, rfl⟩ : ∃ recycled, answer = .buffer recycled := by
    cases answer with
    | null => exact absurd rfl hanswer
    | buffer recycled => exact ⟨recycled, rfl⟩
  cases q with
  | enter =>
    rw [LogRun.commitStep] at hs
    split at hs
    case isTrue =>
      obtain rfl := Option.some.inj hs
      refine h.moves hpi (fun _ => id) hinv (LogRun.go_point_self ..) rfl h.of h.fits rfl rfl
        ⟨htarget, ?_⟩
      exact Layout.Empty.filling hok x.latest x.run.log.lh
    case isFalse hnil =>
      -- nothing is in the log, and so nothing was changed
      obtain rfl := Option.some.inj hs
      have hlh : x.run.log.lh = [] := List.eq_nil_of_length_eq_zero (by omega)
      refine h.moves hpi (fun _ => id) hinv (LogRun.go_point_self ..) rfl h.of h.fits rfl rfl
        ⟨hok.announces, fun b hb => ?_⟩
      have hpins : x.run.pins = [] := Eq.trans hpoint hlh
      exact (h.synced_busy hpi rfl (by simp [hpins]) id).symm.trans (htarget b hb)
  | loop toSlot tail =>
    rw [LogRun.commitStep] at hs
    split at hs
    case isTrue =>
      obtain rfl := Option.some.inj hs
      exact h.moves hpi (fun _ => id) hinv (LogRun.go_point_self ..) rfl h.of h.fits rfl rfl
        ⟨htarget, trivial, hok⟩
    case isFalse hend =>
      obtain rfl := Option.some.inj hs
      have htail : tail = x.run.log.lh.length := Nat.le_antisymm hpoint.1 (Nat.not_lt.mp hend)
      subst htail
      cases toSlot with
      | true =>
        exact h.moves hpi (fun _ => id) hinv (LogRun.go_point_self ..) rfl h.of h.fits rfl rfl
          ⟨htarget, trivial, hok⟩
      | false =>
        exact h.moves hpi (fun _ => id) hinv (LogRun.go_point_self ..) rfl h.of h.fits rfl rfl
          ⟨htarget, hok⟩
  | entry toSlot tail st =>
    obtain ⟨c, p, hc⟩ := x.run.entryCall_some toSlot tail st hanswer
    simp only [LogRun.commitStep, hc, LogRun.optCall, Option.map_eq_some_iff] at hs
    obtain ⟨s₂, hs₂, rfl⟩ := hs
    rw [LogRun.noteInstall_frame] at hs₂
    have hlog := congrArg LogRun.log (LogRun.blockCall_frame hs₂)
    obtain ⟨s, hs, hworld, hpins⟩ := LogRun.blockCall_noted hs₂
    exact h.entry hpi hc hs ⟨hinv, LogRun.go_point_self .., hlog, hworld, hpins, rfl, rfl⟩
  | head cleared st =>
    obtain ⟨c, p, hc⟩ := x.run.headCall_some cleared st hanswer
    simp only [LogRun.commitStep, hc, LogRun.optCall, Option.map_eq_some_iff] at hs
    obtain ⟨s₂, hs₂, rfl⟩ := hs
    have hlog := congrArg LogRun.log (LogRun.blockCall_frame hs₂)
    refine h.head hpi hc hs₂ ⟨hinv, LogRun.go_point_self .., ?_, ?_, ?_, rfl, rfl⟩
    all_goals cases p <;> first | exact hlog | rfl
  | clear =>
    obtain rfl := Option.some.inj hs
    refine h.moves hpi (fun _ => id) hinv (LogRun.go_point_self ..) rfl ⟨h.of.start, h.of.size⟩
      ⟨List.nodup_nil, Nat.zero_le _, by simp [LogRun.go, emptied]⟩ rfl rfl
      ⟨htarget, trivial, x.run.log.lh, hok⟩

end Commit

end Lithium.Wal
