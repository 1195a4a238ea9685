/-
# The log under many processes, commit included

`log.c` with every process at its own point of the code: the critical sections of `log_begin_op`,
`log_write` and `log_end_op`, and the steps of `commit`, which runs without `log.lock`, each of
its calls of the block layer taken by itself.  All of them interleave freely, with each other and
with the processes that use the blocks for something else.  `block_read` is split where it can
sleep, after `buf_get` and before the sleeplock.

A process in `commit` carries its local variables: the pass, `tail`, and the buffers it has read.
Sections 4 to 9 are about the runs in which its `block_read` never returns `NULL`.
-/
import Lithium.Fs.LogCommit
import Lithium.Lib.Transition

namespace Lithium.Wal

/-! ## 1. Where a process is -/

/-- Inside the loop body of `write_log` and of `install_trans`. -/
inductive EntryStage where
  | getSlot
  | lockSlot (slot : BlockNo)
  | getHome (slot : BlockNo)
  | lockHome (e : Entry)
  /-- The buffer of the slot is `NULL`. -/
  | getHomeOnly
  | lockHomeOnly (home : BlockNo)
  | copy (e : Entry)
  | write (e : Entry)
  | unpin (e : Entry)
  | releaseSrc (e : Entry)
  | releaseDst (e : Entry)

/-- Inside `write_head`. -/
inductive HeadStage where
  | get
  | lock (h : BlockNo)
  | fill (h : BlockNo)
  | write (h : BlockNo)
  | release (h : BlockNo)

/-- Inside `commit`.  `toSlot` tells `write_log` from `install_trans`, and `cleared` the second
`write_head` from the first. -/
inductive CommitPoint where
  | enter
  | loop (toSlot : Bool) (tail : Nat)
  | entry (toSlot : Bool) (tail : Nat) (st : EntryStage)
  | head (cleared : Bool) (st : HeadStage)
  | clear

/-- Where a process is. -/
inductive Point where
  /-- Outside any operation. -/
  | idle
  /-- Between `log_begin_op` and `log_end_op`. -/
  | inOp
  /-- In the `commit` of its `log_end_op`. -/
  | commit (p : CommitPoint)
  /-- After that `commit`, before the last section of `log_end_op`. -/
  | finish

/-- In the part of `log_end_op` that runs with `log.committing` set. -/
def Point.busy : Point → Bool
  | .commit _ | .finish => true
  | .idle | .inOp => false

/-! ## 2. The calls of the block layer -/

/-- A call of the block layer, `block_read` in its two halves. -/
inductive BlockCall where
  | get (b : BlockNo) (recycled : Bool)
  | lock (b : BlockNo)
  | assign (b : BlockNo) (data : Block)
  | write (b : BlockNo)
  | unpin (b : BlockNo)
  | release (b : BlockNo)

/-- `block_read` up to the sleeplock; an unreferenced buffer may have been recycled. -/
def World.getBuf (w : World) (b : BlockNo) (recycled : Bool) : World :=
  let c := w.bufs b
  w.put b { c with
    valid := c.valid && (c.refcnt != 0 || !recycled)
    refcnt := c.refcnt + 1 }

/-- The rest of `block_read`; `none` when the caller sleeps. -/
def World.lockBuf (w : World) (i : Pid) (b : BlockNo) : Option World :=
  let c := w.bufs b
  (sleeplockAcquire c.lock (some i)).map fun lk =>
    w.put b { c with valid := true, data := if c.valid then c.data else w.disk b, lock := lk }

/-- Process `i`, for which `block_read` never returns `NULL`. -/
def asPid (i : Pid) (recycled : Bool) : Env := ⟨i, fun _ => false, fun _ => recycled⟩

/-- The two halves are `block_read`. -/
theorem lockBuf_getBuf {w w' : World} {i : Pid} {b : BlockNo} {recycled : Bool}
    (h : (w.getBuf b recycled).lockBuf i b = some w') :
    (blockRead (asPid i recycled) b).run w = .ok (some b) (w'.tick 1) := by
  rw [World.lockBuf, Option.map_eq_some_iff] at h
  obtain ⟨lk, hlk, rfl⟩ := h
  rw [World.getBuf, put_self] at hlk
  rw [EStateM.run, blockRead]
  simp only [asPid, Bool.false_eq_true, if_false, tick_bufs, tick_disk]
  simp only at hlk
  rw [hlk]
  simp only [World.getBuf, put_self, put_put, put_disk, put_tick]
  rfl

/-- Process `i` has the sleeplock of the buffer of `b`. -/
def World.Holds (w : World) (i : Pid) (b : BlockNo) : Prop := (w.bufs b).lock = ⟨true, i⟩

instance (w : World) (i : Pid) (b : BlockNo) : Decidable (w.Holds i b) :=
  inferInstanceAs (Decidable (_ = _))

/-! ## 3. The machine -/

/-- The log, the block layer, the references `block_read` has taken for a process, and where each
process is.  The rest is history: the pins `log_write` has taken and `install_trans` has not given
back; the operations begun, each with the number of commits before it, and the one each process is
in; the blocks accepted, each with its operation; the commits returned from, and the blocks
installed, each with the number of its commit. -/
structure LogRun where
  log : Log
  world : World
  refs : List (Pid × BlockNo)
  point : Pid → Point
  pins : List BlockNo
  ops : Nat
  began : Nat → Nat
  opOf : Pid → Nat
  accepted : List (Nat × BlockNo)
  commits : Nat
  installed : List (Nat × BlockNo)

/-- What `buf_get` answers, when the step calls it. -/
inductive ReadAnswer where
  /-- A buffer; one that nobody references may have been recycled since its last use. -/
  | buffer (recycled : Bool)
  /-- `NULL`. -/
  | null
  deriving DecidableEq

/-- One step of one process. -/
inductive LogStep where
  | begin (i : Pid)
  | write (i : Pid) (b : BlockNo)
  | endOp (i : Pid)
  | commit (i : Pid) (answer : ReadAnswer)
  | finish (i : Pid)
  | block (i : Pid) (c : BlockCall)

namespace LogRun

/-- Move a process. -/
def go (s : LogRun) (i : Pid) (p : Point) : LogRun :=
  { s with point := Function.update s.point i p }

/-- The references to the buffer of a block. -/
def references (s : LogRun) (b : BlockNo) : Nat := s.refs.countP fun r => r.2 == b

/-- The effect of a call of the block layer; `none` when the caller sleeps. -/
def blockCall (s : LogRun) (i : Pid) : BlockCall → Option LogRun
  | .get b recycled => some { s with world := s.world.getBuf b recycled, refs := (i, b) :: s.refs }
  | .lock b => (s.world.lockBuf i b).map fun w => { s with world := w }
  | .assign b data => some { s with world := finalWorld ((setData b data).run s.world) }
  | .write b => some { s with world := finalWorld ((blockWrite (asPid i false) b).run s.world) }
  | .unpin b =>
    some { s with world := finalWorld ((bufUnpin b).run s.world), pins := s.pins.erase b }
  | .release b =>
    some { s with
      world := finalWorld ((blockRelease (asPid i false) b).run s.world)
      refs := if s.world.Holds i b then s.refs.erase (i, b) else s.refs }

/-- A call, if there is one. -/
def optCall (s : LogRun) (i : Pid) : Option BlockCall → Option LogRun
  | some c => s.blockCall i c
  | none => some s

/-- The call a process makes in the loop bodies, if any, and where it is afterwards; where
`buf_get` answers `NULL`, nothing is given back. -/
def entryCall (s : LogRun) (answer : ReadAnswer) (toSlot : Bool) (tail : Nat) :
    EntryStage → Option BlockCall × CommitPoint
  | .getSlot =>
    let slot := s.log.slot tail
    match answer with
    | .buffer recycled => (some (.get slot recycled), .entry toSlot tail (.lockSlot slot))
    | .null => (none, .entry toSlot tail .getHomeOnly)
  | .lockSlot slot => (some (.lock slot), .entry toSlot tail (.getHome slot))
  | .getHome slot =>
    let home := s.log.lh.getD tail 0
    match answer with
    | .buffer recycled => (some (.get home recycled), .entry toSlot tail (.lockHome ⟨slot, home⟩))
    | .null => (none, .loop toSlot (tail + 1))
  | .lockHome e => (some (.lock e.home), .entry toSlot tail (.copy e))
  | .getHomeOnly =>
    let home := s.log.lh.getD tail 0
    match answer with
    | .buffer recycled => (some (.get home recycled), .entry toSlot tail (.lockHomeOnly home))
    | .null => (none, .loop toSlot (tail + 1))
  | .lockHomeOnly home => (some (.lock home), .loop toSlot (tail + 1))
  | .copy e =>
    (some (.assign (e.dst toSlot) (s.world.bufs (e.src toSlot)).data),
      .entry toSlot tail (.write e))
  | .write e =>
    (some (.write (e.dst toSlot)),
      .entry toSlot tail (if toSlot then .releaseSrc e else .unpin e))
  | .unpin e => (some (.unpin e.home), .entry toSlot tail (.releaseSrc e))
  | .releaseSrc e => (some (.release (e.src toSlot)), .entry toSlot tail (.releaseDst e))
  | .releaseDst e => (some (.release (e.dst toSlot)), .loop toSlot (tail + 1))

/-- Where a process is after `write_head`. -/
def afterHead (cleared : Bool) : Point := if cleared then .finish else .commit (.loop false 0)

/-- The call a process makes in `write_head`, if any, and where it is afterwards. -/
def headCall (s : LogRun) (answer : ReadAnswer) (cleared : Bool) :
    HeadStage → Option BlockCall × Point
  | .get =>
    let h := s.log.header
    match answer with
    | .buffer recycled => (some (.get h recycled), .commit (.head cleared (.lock h)))
    | .null => (none, afterHead cleared)
  | .lock h => (some (.lock h), .commit (.head cleared (.fill h)))
  | .fill h =>
    (some (.assign h (putHead (s.world.bufs h).data s.log.lh)), .commit (.head cleared (.write h)))
  | .write h => (some (.write h), .commit (.head cleared (.release h)))
  | .release h => (some (.release h), afterHead cleared)

/-- Note the `block_write` of `install_trans`. -/
def noteInstall (s : LogRun) (i : Pid) (toSlot : Bool) : EntryStage → LogRun
  | .write e =>
    if toSlot = false ∧ s.world.Holds i e.home then
      { s with installed := (s.commits, e.home) :: s.installed }
    else s
  | _ => s

/-- Count a `commit` that returns. -/
def noteReturn (s : LogRun) : Point → LogRun
  | .finish => { s with commits := s.commits + 1 }
  | _ => s

/-- A step of `commit`. -/
def commitStep (s : LogRun) (i : Pid) (answer : ReadAnswer) : CommitPoint → Option LogRun
  | .enter =>
    if 0 < s.log.lh.length then some (s.go i (.commit (.loop true 0)))
    else some ((s.noteReturn .finish).go i .finish)
  | .loop toSlot tail =>
    if tail < s.log.lh.length then some (s.go i (.commit (.entry toSlot tail .getSlot)))
    else some (s.go i (.commit (if toSlot then .head false .get else .clear)))
  | .entry toSlot tail st =>
    let (c, p) := s.entryCall answer toSlot tail st
    ((s.noteInstall i toSlot st).optCall i c).map fun s => s.go i (.commit p)
  | .head cleared st =>
    let (c, p) := s.headCall answer cleared st
    (s.optCall i c).map fun s => (s.noteReturn p).go i p
  | .clear => some ({ s with log := emptied s.log }.go i (.commit (.head true .get)))

/-- What a process outside `commit` may call: it locks what it has a reference to, and takes no
pin back. -/
def callable (s : LogRun) (i : Pid) : BlockCall → Bool
  | .lock b => s.refs.contains (i, b)
  | .unpin _ => false
  | .get .. | .assign .. | .write _ | .release _ => true

/-- One step of one process; `none` when the process is not at that point of the code, or
sleeps. -/
def step (s : LogRun) : LogStep → Option LogRun
  | .begin i =>
    match s.point i with
    | .idle => s.log.beginOp.map fun l =>
      { s with
        log := l
        ops := s.ops + 1
        began := Function.update s.began s.ops s.commits
        opOf := Function.update s.opOf i s.ops }.go i .inOp
    | _ => none
  | .write i b =>
    match s.point i with
    | .inOp =>
      if s.refs.contains (i, b) then
        let (l, answer) := s.log.write b
        some { s with
          log := l
          world := if answer = .recorded then finalWorld ((bufPin b).run s.world) else s.world
          pins := if answer = .recorded then s.pins ++ [b] else s.pins
          accepted := if answer.accepted then (s.opOf i, b) :: s.accepted else s.accepted }
      else none
    | _ => none
  | .endOp i =>
    match s.point i with
    | .inOp =>
      let (l, doCommit) := s.log.endOp
      some ({ s with log := l }.go i (if doCommit then .commit .enter else .idle))
    | _ => none
  | .commit i answer =>
    match s.point i with
    | .commit p => s.commitStep i answer p
    | _ => none
  | .finish i =>
    match s.point i with
    | .finish => some ({ s with log := s.log.endCommit }.go i .idle)
    | _ => none
  | .block i c => if !(s.point i).busy && s.callable i c then s.blockCall i c else none

/-- After `log_init`. -/
def init (w : World) (start size : Nat) : LogRun where
  log := { start := start, size := size, outstanding := 0, committing := false, lh := [] }
  world := w
  refs := []
  point := fun _ => .idle
  pins := []
  ops := 0
  began := fun _ => 0
  opOf := fun _ => 0
  accepted := []
  commits := 0
  installed := []

/-! ## 4. What holds of the log -/

/-- `commit` is running. -/
def Committing (s : LogRun) : Prop := ∃ i p, s.point i = .commit p

/-- The log is closed: no operation is open, `log_write` accepts nothing, and no process can
return from `log_begin_op` or come to `log_end_op`, where a commit would start. -/
structure Closed (s : LogRun) : Prop where
  outstanding : s.log.outstanding = 0
  noWrite : ∀ b, (s.log.write b).2.accepted = false
  noBegin : s.log.beginOp = none
  noWriteStep : ∀ i b, s.step (.write i b) = none
  noBeginStep : ∀ i, s.step (.begin i) = none
  noEndOpStep : ∀ i, s.step (.endOp i) = none
  alone : ∀ i j, (s.point i).busy = true → (s.point j).busy = true → i = j

/-- Commit number `c` has installed `b`, or is the next one, and `b` is in its log. -/
def InstalledBy (s : LogRun) (c : Nat) (b : BlockNo) : Prop :=
  (c, b) ∈ s.installed ∨ c = s.commits ∧ b ∈ s.log.lh

/-- `block_read` does not return `NULL` to `commit`. -/
def NoNull : LogStep → Prop
  | .commit _ answer => answer ≠ .null
  | _ => True

instance : ∀ r, Decidable (NoNull r)
  | .commit _ answer => inferInstanceAs (Decidable (answer ≠ .null))
  | .begin _ | .write .. | .endOp _ | .finish _ | .block .. => isTrue trivial

/-- The log as the operations rely on it. -/
structure LogOk (s : LogRun) : Prop where
  closed : s.log.committing = true ∨ s.Committing → s.Closed
  distinct : s.log.lh.Nodup
  bounded : (s.log.lh.length : Int) ≤ s.log.size - 1
  pinned : ¬ s.Committing → ∀ b ∈ s.log.lh, (s.world.bufs b).refcnt = s.references b + 1
  unpinned : ¬ s.Committing → ∀ b ∉ s.log.lh, (s.world.bufs b).refcnt = s.references b
  returned : ∀ i, s.point i = .finish → ∀ b, (s.world.bufs b).refcnt = s.references b
  together : ∀ o b, (o, b) ∈ s.accepted → s.InstalledBy (s.began o) b

/-! ## 5. The invariant -/

/-- The reference counter of a buffer counts the references and the pins. -/
def Refcnt (s : LogRun) : Prop :=
  ∀ b, (s.world.bufs b).refcnt = s.references b + s.pins.count b

/-- Who holds a sleeplock has a reference. -/
def HeldOk (s : LogRun) : Prop := ∀ i b, s.world.Holds i b → (i, b) ∈ s.refs

/-- The entries before number `k` have been unpinned, those before number `m` installed. -/
structure Progress (s : LogRun) (toSlot : Bool) (k m : Nat) : Prop where
  pins : s.pins = s.log.lh.drop (if toSlot then 0 else k)
  installed : toSlot = false → ∀ b ∈ s.log.lh.take m, (s.commits, b) ∈ s.installed

end LogRun

/-- The pin of the entry is gone. -/
def EntryStage.unpinned : EntryStage → Bool
  | .releaseSrc _ | .releaseDst _ => true
  | _ => false

/-- The block of the entry has been written. -/
def EntryStage.written : EntryStage → Bool
  | .unpin _ | .releaseSrc _ | .releaseDst _ => true
  | _ => false

namespace LogRun

/-- What the local variables of a loop body are. -/
def StageOk (s : LogRun) (i : Pid) (toSlot : Bool) (tail : Nat) : EntryStage → Prop
  | .lockSlot slot => (i, slot) ∈ s.refs
  | .lockHome e => s.log.lh[tail]? = some e.home ∧ (i, e.home) ∈ s.refs
  | .copy e | .write e => s.log.lh[tail]? = some e.home ∧ s.world.Holds i e.home
  | .unpin e => s.log.lh[tail]? = some e.home ∧ toSlot = false
  | .getSlot | .getHome _ | .releaseSrc _ | .releaseDst _ => True
  | .getHomeOnly | .lockHomeOnly _ => False

/-- What the local variables of `write_head` are. -/
def HeadOk (s : LogRun) (i : Pid) : HeadStage → Prop
  | .lock h => (i, h) ∈ s.refs
  | .get | .fill _ | .write _ | .release _ => True

/-- How far `commit` has got. -/
def PointOk (s : LogRun) (i : Pid) : Point → Prop
  | .idle | .inOp => True
  | .commit .enter => s.pins = s.log.lh
  | .commit (.loop toSlot tail) => tail ≤ s.log.lh.length ∧ s.Progress toSlot tail tail
  | .commit (.entry toSlot tail st) => tail < s.log.lh.length ∧ s.StageOk i toSlot tail st ∧
    s.Progress toSlot (if st.unpinned then tail + 1 else tail)
      (if st.written then tail + 1 else tail)
  | .commit (.head cleared st) =>
    s.pins = s.log.lh ∧ (cleared = true → s.log.lh = []) ∧ s.HeadOk i st
  | .commit .clear => s.pins = [] ∧ ∀ b ∈ s.log.lh, (s.commits, b) ∈ s.installed
  | .finish => s.pins = [] ∧ s.log.lh = []

/-- Which processes are where, and what the log and the pins are worth there. -/
structure Inv (s : LogRun) : Prop where
  counted : ∃ is : List Pid, is.Nodup ∧ (∀ i, i ∈ is ↔ s.point i = .inOp) ∧
    s.log.outstanding = is.length
  alone : ∀ i, (s.point i).busy = true →
    s.log.committing = true ∧ ∀ j, j ≠ i → s.point j = .idle
  busy : s.log.committing = true → ∃ i, (s.point i).busy = true
  nodup : s.log.lh.Nodup
  bounded : s.log.lh.length < s.log.size
  refcnt : s.Refcnt
  held : s.HeldOk
  point : ∀ i, s.PointOk i (s.point i)
  quiet : (∀ i, (s.point i).busy = false) → s.pins = s.log.lh
  numbered : ∀ i, s.point i = .inOp → s.opOf i < s.ops ∧ s.began (s.opOf i) = s.commits
  accepted : ∀ o b, (o, b) ∈ s.accepted → o < s.ops ∧ s.InstalledBy (s.began o) b

/-! ## 6. What a call of the block layer does -/

theorem holds_iff_held (w : World) (i : Pid) (b : BlockNo) :
    sleeplockHeld (w.bufs b).lock (some i) = true ↔ w.Holds i b := by
  rw [World.Holds, sleeplockHeld, Bool.and_eq_true, beq_iff_eq, Option.some.injEq]
  constructor
  · rintro ⟨hlocked, rfl⟩
    rw [← hlocked]
  · intro h
    rw [h]
    exact ⟨rfl, rfl⟩

/-- `block_write` leaves the buffers alone. -/
theorem blockWrite_bufs (env : Env) (b : BlockNo) (w : World) :
    (finalWorld ((blockWrite env b).run w)).bufs = w.bufs := by
  rw [EStateM.run, blockWrite]
  split <;> rfl

/-- `block_release`, for who holds the buffer and for who does not. -/
theorem blockRelease_eq (i : Pid) (b : BlockNo) (w : World) :
    finalWorld ((blockRelease (asPid i false) b).run w)
      = if w.Holds i b then w.put b (w.bufs b).release else w := by
  rw [EStateM.run, blockRelease]
  have hiff : sleeplockHeld (w.bufs b).lock (some (asPid i false).pid) = true ↔ w.Holds i b :=
    holds_iff_held w i b
  by_cases h : w.Holds i b
  · rw [if_pos h, if_pos (hiff.mpr h)]
    rfl
  · rw [if_neg h, if_neg (fun hheld => h (hiff.mp hheld))]
    rfl

/-- A sleeplock is taken when nobody has it. -/
theorem lockBuf_eq {w w' : World} {i : Pid} {b : BlockNo} (h : w.lockBuf i b = some w') :
    (w.bufs b).lock.locked = false ∧ w' = w.put b { w.bufs b with
      valid := true
      data := if (w.bufs b).valid then (w.bufs b).data else w.disk b
      lock := ⟨true, i⟩ } := by
  rw [World.lockBuf, Option.map_eq_some_iff] at h
  obtain ⟨lk, hlk, rfl⟩ := h
  rw [sleeplockAcquire] at hlk
  split at hlk
  case isTrue => exact absurd hlk (by simp)
  case isFalse hfree =>
    rw [Option.some.injEq] at hlk
    subst hlk
    exact ⟨by simpa using hfree, rfl⟩

theorem Holds.locked {w : World} {i : Pid} {b : BlockNo} (h : w.Holds i b) :
    (w.bufs b).lock.locked = true := by
  rw [World.Holds] at h
  rw [h]

theorem countP_erase {refs : List (Pid × BlockNo)} {i : Pid} {b : BlockNo} (h : (i, b) ∈ refs)
    (b' : BlockNo) : refs.countP (fun r => r.2 == b')
      = (refs.erase (i, b)).countP (fun r => r.2 == b') + if b == b' then 1 else 0 := by
  rw [(List.perm_cons_erase h).countP_eq, List.countP_cons]

/-- What a call leaves alone, whoever makes it; only an unpin changes the pins. -/
theorem blockCall_changes {s s' : LogRun} {i : Pid} {c : BlockCall}
    (hs : s.blockCall i c = some s') :
    s' = { s with world := s'.world, refs := s'.refs, pins := s'.pins } ∧
      ((∀ b, c ≠ .unpin b) → s'.pins = s.pins) := by
  cases c with
  | lock b =>
    rw [blockCall, Option.map_eq_some_iff] at hs
    obtain ⟨w, -, rfl⟩ := hs
    exact ⟨rfl, fun _ => rfl⟩
  | unpin b => exact ⟨Option.some.inj hs ▸ rfl, fun hc => absurd rfl (hc b)⟩
  | get b recycled => exact Option.some.inj hs ▸ ⟨rfl, fun _ => rfl⟩
  | assign b data => exact Option.some.inj hs ▸ ⟨rfl, fun _ => rfl⟩
  | write b => exact Option.some.inj hs ▸ ⟨rfl, fun _ => rfl⟩
  | release b => exact Option.some.inj hs ▸ ⟨rfl, fun _ => rfl⟩

theorem blockCall_frame {s s' : LogRun} {i : Pid} {c : BlockCall} (hs : s.blockCall i c = some s') :
    s' = { s with world := s'.world, refs := s'.refs, pins := s'.pins } := (blockCall_changes hs).1

theorem blockCall_pins {s s' : LogRun} {i : Pid} {c : BlockCall} (hs : s.blockCall i c = some s')
    (hc : ∀ b, c ≠ .unpin b) : s'.pins = s.pins := (blockCall_changes hs).2 hc

/-- What a call does not touch: the log, the points of the processes, and what is noted. -/
theorem optCall_frame {s s' : LogRun} {i : Pid} {c : Option BlockCall}
    (hs : s.optCall i c = some s') : s'.log = s.log ∧ s'.point = s.point := by
  cases c with
  | none => exact Option.some.inj hs ▸ ⟨rfl, rfl⟩
  | some c =>
    rw [blockCall_frame hs]
    exact ⟨rfl, rfl⟩

/-- Noting a write of `install_trans` changes nothing else. -/
theorem noteInstall_frame (s : LogRun) (i : Pid) (toSlot : Bool) (st : EntryStage) :
    s.noteInstall i toSlot st = { s with installed := (s.noteInstall i toSlot st).installed } := by
  cases st with
  | write e => rw [noteInstall]; split <;> rfl
  | _ => rfl

/-- What is noted stays so. -/
theorem mem_noteInstall {s : LogRun} {x : Nat × BlockNo} (i : Pid) (toSlot : Bool)
    (st : EntryStage) (h : x ∈ s.installed) : x ∈ (s.noteInstall i toSlot st).installed := by
  cases st with
  | write e =>
    rw [noteInstall]
    split
    · exact List.mem_cons_of_mem _ h
    · exact h
  | _ => exact h

/-- **Every call keeps the reference counters right**, when a pin taken back was there. -/
theorem Refcnt.blockCall {s s' : LogRun} {i : Pid} {c : BlockCall} (hs : s.blockCall i c = some s')
    (hr : s.Refcnt) (hh : s.HeldOk) (hunpin : ∀ b, c = .unpin b → b ∈ s.pins) : s'.Refcnt := by
  intro b'
  have hold := hr b'
  rw [references] at hold ⊢
  cases c with
  | get b recycled =>
    obtain rfl := Option.some.inj hs
    simp only [World.getBuf, List.countP_cons]
    by_cases hb : b' = b
    · subst hb
      rw [put_self, beq_self_eq_true, if_pos rfl]
      simp only
      omega
    · rw [put_of_ne _ hb, if_neg (by simpa using fun e : b = b' => hb e.symm)]
      exact hold
  | lock b =>
    rw [LogRun.blockCall, Option.map_eq_some_iff] at hs
    obtain ⟨w, hw, rfl⟩ := hs
    obtain ⟨-, rfl⟩ := lockBuf_eq hw
    by_cases hb : b' = b
    · subst hb
      simp only [put_self]
      exact hold
    · simp only [put_of_ne _ hb]
      exact hold
  | assign b data =>
    obtain rfl := Option.some.inj hs
    simp only [setData_run, finalWorld]
    by_cases hb : b' = b
    · subst hb
      rw [put_self]
      exact hold
    · rw [put_of_ne _ hb]
      exact hold
  | write b =>
    obtain rfl := Option.some.inj hs
    simp only [blockWrite_bufs]
    exact hold
  | unpin b =>
    obtain rfl := Option.some.inj hs
    simp only [bufUnpin_run, finalWorld]
    have hpin := List.count_pos_iff.mpr (hunpin b rfl)
    by_cases hb : b' = b
    · subst hb
      rw [put_self, List.count_erase_self, CachedBlock.unpin]
      simp only
      omega
    · rw [put_of_ne _ hb, List.count_erase_of_ne hb]
      exact hold
  | release b =>
    obtain rfl := Option.some.inj hs
    simp only [blockRelease_eq]
    by_cases hheld : s.world.Holds i b
    · rw [if_pos hheld, if_pos hheld]
      rw [countP_erase (hh i b hheld)] at hold
      by_cases hb : b' = b
      · subst hb
        rw [beq_self_eq_true, if_pos rfl] at hold
        rw [put_self, CachedBlock.release]
        simp only
        omega
      · rw [if_neg (by simpa using fun e : b = b' => hb e.symm)] at hold
        rw [put_of_ne _ hb]
        exact hold
    · rw [if_neg hheld, if_neg hheld]
      exact hold

/-- A held buffer stays held, except by who releases it. -/
theorem Holds.blockCall {s s' : LogRun} {i j : Pid} {b : BlockNo} {c : BlockCall}
    (hs : s.blockCall i c = some s') (h : s.world.Holds j b) (hc : j ≠ i ∨ c ≠ .release b) :
    s'.world.Holds j b := by
  -- a change of one buffer that is not of its lock
  have hput : ∀ (b' : BlockNo) (x : CachedBlock), x.lock = (s.world.bufs b').lock →
      (s.world.put b' x).Holds j b := by
    intro b' x hx
    rw [World.Holds]
    by_cases hb : b = b'
    · subst hb
      rw [put_self, hx]
      exact h
    · rw [put_of_ne _ hb]
      exact h
  cases c with
  | get b' recycled => exact Option.some.inj hs ▸ hput b' _ (by rfl)
  | lock b' =>
    rw [LogRun.blockCall, Option.map_eq_some_iff] at hs
    obtain ⟨w, hw, rfl⟩ := hs
    obtain ⟨hfree, rfl⟩ := lockBuf_eq hw
    have hb : b ≠ b' := by
      rintro rfl
      rw [Holds.locked h] at hfree
      exact absurd hfree (by simp)
    rw [World.Holds, put_of_ne _ hb]
    exact h
  | assign b' data => exact Option.some.inj hs ▸ hput b' _ (by rfl)
  | write b' =>
    obtain rfl := Option.some.inj hs
    rw [World.Holds, blockWrite_bufs]
    exact h
  | unpin b' => exact Option.some.inj hs ▸ hput b' _ (by rfl)
  | release b' =>
    obtain rfl := Option.some.inj hs
    rw [blockRelease_eq]
    split
    case isFalse => exact h
    case isTrue hheld =>
      have hb : b ≠ b' := by
        rintro rfl
        rw [World.Holds, h] at hheld
        rcases hc with hne | hne
        · exact hne (congrArg Sleeplock.pid hheld)
        · exact hne rfl
      rw [World.Holds, put_of_ne _ hb]
      exact h

/-- Who holds a buffer after a call held it before, unless the call was to take it. -/
theorem holds_of_blockCall {s s' : LogRun} {i j : Pid} {b : BlockNo} {c : BlockCall}
    (hs : s.blockCall i c = some s') (h : s'.world.Holds j b) :
    (s.world.Holds j b ∧ ¬ (j = i ∧ c = .release b)) ∨ j = i ∧ c = .lock b := by
  have hput : ∀ (b' : BlockNo) (x : CachedBlock), x.lock = (s.world.bufs b').lock →
      (s.world.put b' x).Holds j b → s.world.Holds j b := by
    intro b' x hx h'
    rw [World.Holds] at h'
    by_cases hb : b = b'
    · subst hb
      rw [put_self, hx] at h'
      exact h'
    · rw [put_of_ne _ hb] at h'
      exact h'
  cases c with
  | get b' recycled => exact Or.inl ⟨hput b' _ (by rfl) (Option.some.inj hs ▸ h), by simp⟩
  | lock b' =>
    rw [LogRun.blockCall, Option.map_eq_some_iff] at hs
    obtain ⟨w, hw, rfl⟩ := hs
    obtain ⟨-, rfl⟩ := lockBuf_eq hw
    rw [World.Holds] at h
    by_cases hb : b = b'
    · subst hb
      rw [put_self] at h
      exact Or.inr ⟨(congrArg Sleeplock.pid h).symm, rfl⟩
    · rw [put_of_ne _ hb] at h
      exact Or.inl ⟨h, by simp⟩
  | assign b' data => exact Or.inl ⟨hput b' _ (by rfl) (Option.some.inj hs ▸ h), by simp⟩
  | write b' =>
    obtain rfl := Option.some.inj hs
    rw [World.Holds, blockWrite_bufs] at h
    exact Or.inl ⟨h, by simp⟩
  | unpin b' => exact Or.inl ⟨hput b' _ (by rfl) (Option.some.inj hs ▸ h), by simp⟩
  | release b' =>
    obtain rfl := Option.some.inj hs
    rw [blockRelease_eq] at h
    refine Or.inl ?_
    split at h
    case isFalse hheld =>
      refine ⟨h, ?_⟩
      rintro ⟨rfl, hc⟩
      cases hc
      exact hheld h
    case isTrue hheld =>
      have hb : b ≠ b' := by
        rintro rfl
        rw [World.Holds, put_self] at h
        exact absurd (congrArg Sleeplock.locked h) (by simp [CachedBlock.release, sleeplockRelease])
      rw [World.Holds, put_of_ne _ hb] at h
      refine ⟨h, ?_⟩
      rintro ⟨-, hc⟩
      cases hc
      exact hb rfl

/-- A reference stays, except for who releases the buffer. -/
theorem mem_refs_blockCall {s s' : LogRun} {i j : Pid} {b : BlockNo} {c : BlockCall}
    (hs : s.blockCall i c = some s') (h : (j, b) ∈ s.refs) (hc : ¬ (j = i ∧ c = .release b)) :
    (j, b) ∈ s'.refs := by
  cases c with
  | get b' recycled => exact Option.some.inj hs ▸ List.mem_cons_of_mem _ h
  | lock b' =>
    rw [blockCall, Option.map_eq_some_iff] at hs
    obtain ⟨w, -, rfl⟩ := hs
    exact h
  | assign b' data => exact Option.some.inj hs ▸ h
  | write b' => exact Option.some.inj hs ▸ h
  | unpin b' => exact Option.some.inj hs ▸ h
  | release b' =>
    obtain rfl := Option.some.inj hs
    dsimp only
    split
    case isFalse => exact h
    case isTrue =>
      refine (List.mem_erase_of_ne ?_).mpr h
      rintro e
      rw [Prod.mk.injEq] at e
      exact hc ⟨e.1, by rw [e.2]⟩

/-- **Every call leaves who holds a buffer with a reference**, when a buffer is locked by who has
one. -/
theorem HeldOk.blockCall {s s' : LogRun} {i : Pid} {c : BlockCall} (hs : s.blockCall i c = some s')
    (hh : s.HeldOk) (hlock : ∀ b, c = .lock b → (i, b) ∈ s.refs) : s'.HeldOk := by
  intro j b h
  rcases holds_of_blockCall hs h with ⟨hold, hc⟩ | ⟨rfl, rfl⟩
  · exact mem_refs_blockCall hs (hh j b hold) hc
  · exact mem_refs_blockCall hs (hlock b rfl) (by simp)

/-! ## 7. What a step keeps -/

@[simp] theorem go_point_self (s : LogRun) (i : Pid) (p : Point) : (s.go i p).point i = p :=
  Function.update_self _ _ _

theorem go_point_of_ne (s : LogRun) {i j : Pid} (h : j ≠ i) (p : Point) :
    (s.go i p).point j = s.point j := Function.update_of_ne h _ _

theorem pointOk_of_not_busy (s : LogRun) (i : Pid) {p : Point} (h : p.busy = false) :
    s.PointOk i p := by
  cases p with
  | idle => exact trivial
  | inOp => exact trivial
  | commit p => exact absurd h (by simp [Point.busy])
  | finish => exact absurd h (by simp [Point.busy])

/-- What a process knows of its own commit outlives what other processes do. -/
theorem PointOk.congr {s s' : LogRun} {i : Pid} {p : Point} (h : s.PointOk i p)
    (hlh : s'.log.lh = s.log.lh) (hpins : s'.pins = s.pins) (hcommits : s'.commits = s.commits)
    (hinst : s'.installed = s.installed) (hrefs : ∀ b, (i, b) ∈ s.refs → (i, b) ∈ s'.refs)
    (hheld : ∀ b, s.world.Holds i b → s'.world.Holds i b) : s'.PointOk i p := by
  have hprog : ∀ {toSlot : Bool} {k m : Nat}, s.Progress toSlot k m → s'.Progress toSlot k m := by
    rintro toSlot k m ⟨hp, hi⟩
    exact ⟨by rw [hpins, hlh]; exact hp, by rw [hlh, hcommits, hinst]; exact hi⟩
  cases p with
  | idle => exact trivial
  | inOp => exact trivial
  | finish => exact ⟨hpins.trans h.1, hlh.trans h.2⟩
  | commit p =>
    cases p with
    | enter => exact (hpins.trans h).trans hlh.symm
    | loop toSlot tail => exact ⟨hlh ▸ h.1, hprog h.2⟩
    | entry toSlot tail st =>
      refine ⟨hlh ▸ h.1, ?_, hprog h.2.2⟩
      have hst := h.2.1
      cases st with
      | lockSlot slot => exact hrefs _ hst
      | lockHome e => exact ⟨hlh ▸ hst.1, hrefs _ hst.2⟩
      | copy e => exact ⟨hlh ▸ hst.1, hheld _ hst.2⟩
      | write e => exact ⟨hlh ▸ hst.1, hheld _ hst.2⟩
      | unpin e => exact ⟨hlh ▸ hst.1, hst.2⟩
      | getHomeOnly => exact hst
      | lockHomeOnly home => exact hst
      | _ => exact trivial
    | head cleared st =>
      refine ⟨by rw [hpins, hlh]; exact h.1, fun hc => hlh.trans (h.2.1 hc), ?_⟩
      have hst := h.2.2
      cases st with
      | lock b => exact hrefs _ hst
      | _ => exact trivial
    | clear => exact ⟨hpins.trans h.1, by rw [hlh, hcommits, hinst]; exact h.2⟩

theorem PointOk.go {s : LogRun} {i : Pid} {p : Point} (h : s.PointOk i p) (q : Point) :
    (s.go i q).PointOk i p :=
  h.congr rfl rfl rfl rfl (fun _ hb => hb) fun _ hb => hb

/-- While an operation is open, no process is in the last part of `log_end_op`. -/
theorem Inv.not_busy {s : LogRun} (h : Inv s) {i : Pid} (hi : s.point i = .inOp) (j : Pid) :
    (s.point j).busy = false := by
  by_contra hj
  rw [Bool.not_eq_false] at hj
  by_cases hij : i = j
  · rw [← hij, hi] at hj
    exact absurd hj (by simp [Point.busy])
  · rw [(h.alone j hj).2 i hij] at hi
    exact absurd hi (by simp)

/-- The blocks installed stay so, and the log of the next commit only grows. -/
theorem InstalledBy.mono {s s' : LogRun} {c : Nat} {b : BlockNo} (h : s.InstalledBy c b)
    (hinst : ∀ x ∈ s.installed, x ∈ s'.installed)
    (hlog : b ∈ s.log.lh → s'.InstalledBy s.commits b) : s'.InstalledBy c b := by
  rcases h with h | ⟨rfl, h⟩
  · exact Or.inl (hinst _ h)
  · exact hlog h

/-- The invariant while no process is in the last part of `log_end_op`. -/
theorem Inv.of_quiet {s : LogRun} (hquiet : ∀ i, (s.point i).busy = false)
    (hcom : s.log.committing = false)
    (hcounted : ∃ is : List Pid, is.Nodup ∧ (∀ i, i ∈ is ↔ s.point i = .inOp) ∧
      s.log.outstanding = is.length)
    (hnodup : s.log.lh.Nodup) (hbounded : s.log.lh.length < s.log.size) (hrefcnt : s.Refcnt)
    (hheld : s.HeldOk) (hpins : s.pins = s.log.lh)
    (hnumbered : ∀ i, s.point i = .inOp → s.opOf i < s.ops ∧ s.began (s.opOf i) = s.commits)
    (haccepted : ∀ o b, (o, b) ∈ s.accepted → o < s.ops ∧ s.InstalledBy (s.began o) b) :
    Inv s where
  counted := hcounted
  alone i hi := absurd hi (by rw [hquiet i]; simp)
  busy hc := absurd hc (by rw [hcom]; simp)
  nodup := hnodup
  bounded := hbounded
  refcnt := hrefcnt
  held := hheld
  point i := pointOk_of_not_busy s i (hquiet i)
  quiet _ := hpins
  numbered := hnumbered
  accepted := haccepted

/-- The invariant while process `i` is in the last part of `log_end_op`. -/
theorem Inv.of_busy {s : LogRun} {i : Pid} (hi : (s.point i).busy = true)
    (hidle : ∀ j, j ≠ i → s.point j = .idle) (hcom : s.log.committing = true)
    (hout : s.log.outstanding = 0) (hnodup : s.log.lh.Nodup)
    (hbounded : s.log.lh.length < s.log.size) (hrefcnt : s.Refcnt) (hheld : s.HeldOk)
    (hpoint : s.PointOk i (s.point i))
    (haccepted : ∀ o b, (o, b) ∈ s.accepted → o < s.ops ∧ s.InstalledBy (s.began o) b) :
    Inv s := by
  have honly : ∀ j, (s.point j).busy = true → j = i := by
    intro j hj
    by_contra hne
    rw [hidle j hne] at hj
    exact absurd hj (by simp [Point.busy])
  have hnoOp : ∀ j, s.point j ≠ .inOp := by
    intro j hj
    by_cases hji : j = i
    · rw [← hji, hj] at hi
      exact absurd hi (by simp [Point.busy])
    · rw [hidle j hji] at hj
      exact absurd hj (by simp)
  exact
    { counted := ⟨[], List.nodup_nil, fun j => iff_of_false List.not_mem_nil (hnoOp j), hout⟩
      alone := fun j hj => ⟨hcom, fun k hk => hidle k (honly j hj ▸ hk)⟩
      busy := fun _ => ⟨i, hi⟩
      nodup := hnodup
      bounded := hbounded
      refcnt := hrefcnt
      held := hheld
      point := fun j => by
        by_cases hj : j = i
        · rw [hj]
          exact hpoint
        · rw [hidle j hj]
          exact trivial
      quiet := fun hq => absurd hi (by rw [hq i]; simp)
      numbered := fun j hj => absurd hj (hnoOp j)
      accepted := haccepted }

/-- Nobody is in an operation while a process is in the last part of `log_end_op`. -/
theorem Inv.outstanding {s : LogRun} (h : Inv s) {i : Pid} (hi : (s.point i).busy = true) :
    s.log.outstanding = 0 := by
  obtain ⟨is, -, his, hout⟩ := h.counted
  cases is with
  | nil => exact hout
  | cons j is =>
    have hj := (his j).mp List.mem_cons_self
    rw [h.not_busy hj i] at hi
    exact absurd hi (by simp)

theorem Inv.committing_of_not_busy {s : LogRun} (h : Inv s) (hq : ∀ i, (s.point i).busy = false) :
    s.log.committing = false := by
  by_contra hc
  obtain ⟨i, hi⟩ := h.busy (by simpa using hc)
  rw [hq i] at hi
  exact absurd hi (by simp)

/-- A process that goes where no commit is. -/
theorem not_busy_go {s : LogRun} {i : Pid} {p : Point} (hq : ∀ j, (s.point j).busy = false)
    (hp : p.busy = false) (j : Pid) : ((s.go i p).point j).busy = false := by
  by_cases hj : j = i
  · rw [hj, go_point_self]
    exact hp
  · rw [go_point_of_ne _ hj]
    exact hq j

/-- `log_begin_op`. -/
theorem Inv.begin {s s' : LogRun} {i : Pid} (h : Inv s) (hs : s.step (.begin i) = some s') :
    Inv s' := by
  unfold step at hs
  cases hpi : s.point i with
  | inOp => simp [hpi] at hs
  | commit p => simp [hpi] at hs
  | finish => simp [hpi] at hs
  | idle =>
    simp only [hpi, Option.map_eq_some_iff] at hs
    obtain ⟨l, hl, rfl⟩ := hs
    obtain ⟨hcom, rfl⟩ := Log.beginOp_cases hl
    obtain ⟨is, hnd, his, hout⟩ := h.counted
    have hquiet : ∀ j, (s.point j).busy = false := by
      intro j
      by_contra hj
      rw [Bool.not_eq_false] at hj
      rw [(h.alone j hj).1] at hcom
      exact absurd hcom (by simp)
    refine Inv.of_quiet (not_busy_go hquiet rfl) hcom ⟨i :: is, ?_, ?_, ?_⟩ h.nodup h.bounded
      h.refcnt h.held (h.quiet hquiet) ?_ ?_
    · refine List.nodup_cons.mpr ⟨fun hi => ?_, hnd⟩
      rw [his, hpi] at hi
      exact absurd hi (by simp)
    · intro j
      by_cases hj : j = i
      · rw [hj, go_point_self]
        simp
      · rw [go_point_of_ne _ hj, List.mem_cons, or_iff_right hj]
        exact his j
    · rw [List.length_cons]
      change s.log.outstanding + 1 = _
      rw [hout]
      omega
    · intro j hj
      by_cases hji : j = i
      · subst hji
        simp only [go, Function.update_self]
        exact ⟨Nat.lt_succ_self _, trivial⟩
      · rw [go_point_of_ne _ hji] at hj
        obtain ⟨hlt, hbegan⟩ := h.numbered j hj
        simp only [go, Function.update_of_ne hji, Function.update_of_ne (Nat.ne_of_lt hlt)]
        exact ⟨Nat.lt_succ_of_lt hlt, hbegan⟩
    · intro o b hob
      obtain ⟨hlt, hinst⟩ := h.accepted o b hob
      simp only [go, Function.update_of_ne (Nat.ne_of_lt hlt)]
      exact ⟨Nat.lt_succ_of_lt hlt, hinst.mono (fun _ hx => hx) fun hb => Or.inr ⟨rfl, hb⟩⟩

/-- `buf_pin` adds to `refcnt` what it adds to the pins. -/
theorem Refcnt.pin {s s' : LogRun} {b : BlockNo} (h : s.Refcnt)
    (hworld : s'.world = s.world.put b (s.world.bufs b).pin) (hrefs : s'.refs = s.refs)
    (hpins : s'.pins = s.pins ++ [b]) : s'.Refcnt := by
  intro b'
  have hold := h b'
  rw [references, hrefs, hworld, hpins, List.count_append]
  change _ = s.references b' + _
  by_cases hb : b' = b
  · subst hb
    rw [put_self, CachedBlock.pin, List.count_singleton_self]
    simp only
    omega
  · have hne : ¬ (b == b') = true := by simpa using fun e : b = b' => hb e.symm
    rw [put_of_ne _ hb, List.count_singleton, if_neg hne]
    exact hold

/-- It takes no sleeplock. -/
theorem HeldOk.pin {s s' : LogRun} {b : BlockNo} (h : s.HeldOk)
    (hworld : s'.world = s.world.put b (s.world.bufs b).pin) (hrefs : s'.refs = s.refs) :
    s'.HeldOk := by
  intro j b' hj
  rw [hrefs]
  refine h j b' ?_
  rw [World.Holds, hworld] at hj
  by_cases hb : b' = b
  · subst hb
    rw [put_self] at hj
    exact hj
  · rw [put_of_ne _ hb] at hj
    exact hj

/-- `log_write`. -/
theorem Inv.write {s s' : LogRun} {i : Pid} {b : BlockNo} (h : Inv s)
    (hs : s.step (.write i b) = some s') : Inv s' := by
  unfold step at hs
  cases hpi : s.point i with
  | idle => simp [hpi] at hs
  | commit p => simp [hpi] at hs
  | finish => simp [hpi] at hs
  | inOp =>
    simp only [hpi, Option.ite_none_right_eq_some, Option.some.injEq] at hs
    obtain ⟨-, rfl⟩ := hs
    have hquiet := h.not_busy hpi
    have hcom := h.committing_of_not_busy hquiet
    have hpins := h.quiet hquiet
    obtain ⟨hop, hbegan⟩ := h.numbered i hpi
    rcases s.log.write_cases b with ⟨hl, hno⟩ | ⟨hmem, heq⟩ | ⟨hmem, hroom, heq⟩
    · -- refused
      have hne : (s.log.write b).2 ≠ .recorded := by
        intro e
        rw [e] at hno
        exact absurd hno (by simp [LogWritten.accepted])
      rw [hl, hno, if_neg hne, if_neg hne, if_neg Bool.false_ne_true]
      exact h
    · -- absorbed
      rw [heq]
      refine Inv.of_quiet hquiet hcom h.counted h.nodup h.bounded h.refcnt h.held hpins
        h.numbered ?_
      intro o b' hob
      rcases List.mem_cons.mp hob with e | hob
      · rw [Prod.mk.injEq] at e
        obtain ⟨rfl, rfl⟩ := e
        exact ⟨hop, Or.inr ⟨hbegan, hmem⟩⟩
      · exact h.accepted o b' hob
    · -- recorded, and its buffer pinned
      rw [heq]
      simp only [if_true, bufPin_run, finalWorld]
      refine Inv.of_quiet hquiet hcom h.counted ?_ ?_ (h.refcnt.pin rfl rfl rfl)
        (h.held.pin rfl rfl) ?_ h.numbered ?_
      · exact List.nodup_append.mpr ⟨h.nodup, List.nodup_singleton b, fun x hx y hy e =>
          hmem (List.mem_singleton.mp hy ▸ e ▸ hx)⟩
      · simpa using hroom
      · simp only
        rw [hpins]
      · intro o b' hob
        rcases List.mem_cons.mp hob with e | hob
        · rw [Prod.mk.injEq] at e
          obtain ⟨rfl, rfl⟩ := e
          exact ⟨hop, Or.inr ⟨hbegan, List.mem_append_right _ (List.mem_singleton_self _)⟩⟩
        · obtain ⟨hlt, hinst⟩ := h.accepted o b' hob
          exact ⟨hlt, hinst.mono (fun _ hx => hx)
            fun hb => Or.inr ⟨rfl, List.mem_append_left _ hb⟩⟩

/-- `log_end_op`, up to the start of a commit. -/
theorem Inv.endOp {s s' : LogRun} {i : Pid} (h : Inv s) (hs : s.step (.endOp i) = some s') :
    Inv s' := by
  unfold step at hs
  cases hpi : s.point i with
  | idle => simp [hpi] at hs
  | commit p => simp [hpi] at hs
  | finish => simp [hpi] at hs
  | inOp =>
    simp only [hpi, Option.some.injEq] at hs
    have hquiet := h.not_busy hpi
    have hcom := h.committing_of_not_busy hquiet
    have hpins := h.quiet hquiet
    obtain ⟨is, hnd, his, hout⟩ := h.counted
    have hi : i ∈ is := (his i).mpr hpi
    have hpos := List.length_pos_of_mem hi
    have hlen := List.length_erase_of_mem hi
    have hmem : ∀ j, j ∈ is.erase i ↔ j ≠ i ∧ s.point j = .inOp := by
      intro j
      rw [hnd.mem_erase_iff, his]
    unfold Log.endOp at hs
    by_cases hzero : s.log.outstanding - 1 = 0
    · -- the last operation: the commit starts
      simp only [hzero, if_true] at hs
      subst hs
      have hnil : is.erase i = [] := List.eq_nil_of_length_eq_zero (by omega)
      have hidle : ∀ j, j ≠ i → s.point j = .idle := by
        intro j hj
        have hbusy := hquiet j
        cases hp : s.point j with
        | idle => rfl
        | inOp => exact absurd (hnil ▸ (hmem j).mpr ⟨hj, hp⟩) List.not_mem_nil
        | commit p => rw [hp] at hbusy; exact absurd hbusy (by simp [Point.busy])
        | finish => rw [hp] at hbusy; exact absurd hbusy (by simp [Point.busy])
      refine @Inv.of_busy _ i (by rw [go_point_self]; rfl)
        (fun j hj => (go_point_of_ne _ hj _).trans (hidle j hj)) rfl rfl h.nodup h.bounded
        h.refcnt h.held ?_ h.accepted
      rw [go_point_self]
      exact hpins
    · simp only [hzero, if_false, Bool.false_eq_true] at hs
      subst hs
      refine Inv.of_quiet (not_busy_go hquiet rfl) hcom ⟨is.erase i, hnd.erase i, ?_, ?_⟩ h.nodup
        h.bounded h.refcnt h.held hpins ?_ h.accepted
      · intro j
        rw [hmem]
        by_cases hj : j = i
        · rw [hj, go_point_self]
          simp
        · rw [go_point_of_ne _ hj]
          exact and_iff_right hj
      · change s.log.outstanding - 1 = _
        omega
      · intro j hj
        refine h.numbered j ?_
        by_cases hji : j = i
        · rw [hji]
          exact hpi
        · rwa [go_point_of_ne _ hji] at hj

/-- The last section of `log_end_op`. -/
theorem Inv.finish {s s' : LogRun} {i : Pid} (h : Inv s) (hs : s.step (.finish i) = some s') :
    Inv s' := by
  unfold step at hs
  cases hpi : s.point i with
  | idle => simp [hpi] at hs
  | inOp => simp [hpi] at hs
  | commit p => simp [hpi] at hs
  | finish =>
    simp only [hpi, Option.some.injEq] at hs
    subst hs
    have hbusy : (s.point i).busy = true := by rw [hpi]; rfl
    obtain ⟨-, hidle⟩ := h.alone i hbusy
    have hpoint : ∀ j, (({ s with log := s.log.endCommit }.go i .idle).point j) = .idle := by
      intro j
      by_cases hj : j = i
      · rw [hj, go_point_self]
      · rw [go_point_of_ne _ hj]
        exact hidle j hj
    have hfin := h.point i
    rw [hpi] at hfin
    refine Inv.of_quiet (fun j => by rw [hpoint]; rfl) rfl
      ⟨[], List.nodup_nil, fun j => iff_of_false List.not_mem_nil (by rw [hpoint]; simp),
        h.outstanding hbusy⟩ h.nodup h.bounded h.refcnt h.held (hfin.1.trans hfin.2.symm) ?_
      h.accepted
    intro j hj
    rw [hpoint] at hj
    exact absurd hj (by simp)

/-! ## 8. What `commit` keeps -/

/-- The list from one of its elements on. -/
theorem drop_of_getElem? {l : List BlockNo} {k : Nat} {b : BlockNo} (h : l[k]? = some b) :
    l.drop k = b :: l.drop (k + 1) := by
  obtain ⟨hk, rfl⟩ := List.getElem?_eq_some_iff.mp h
  exact List.drop_eq_getElem_cons hk

theorem take_of_getElem? {l : List BlockNo} {k : Nat} {b : BlockNo} (h : l[k]? = some b) :
    l.take (k + 1) = l.take k ++ [b] := by
  rw [List.take_add_one, h]
  rfl

/-- A call that takes no pin back is not about how far `commit` has got. -/
theorem Progress.blockCall {s s' : LogRun} {i : Pid} {c : BlockCall} {toSlot : Bool} {k m : Nat}
    (h : s.Progress toSlot k m) (hs : s.blockCall i c = some s') (hc : ∀ b, c ≠ .unpin b) :
    s'.log = s.log ∧ s'.Progress toSlot k m := by
  have hpins := blockCall_pins hs hc
  rw [blockCall_frame hs]
  exact ⟨rfl, hpins.trans h.pins, h.installed⟩

/-- The block of the entry is noted as installed. -/
theorem Progress.noted {s : LogRun} {tail : Nat} {home : BlockNo} (h : s.Progress false tail tail)
    (hhome : s.log.lh[tail]? = some home) :
    { s with installed := (s.commits, home) :: s.installed }.Progress false tail (tail + 1) := by
  refine ⟨h.pins, fun _ b hb => ?_⟩
  rw [take_of_getElem? hhome, List.mem_append, List.mem_singleton] at hb
  rcases hb with hb | rfl
  · exact List.mem_cons_of_mem _ (h.installed rfl b hb)
  · exact List.mem_cons_self

/-- **One call in a loop body**: what the local variables say stays true. -/
theorem pointOk_entry {s s' : LogRun} {i : Pid} {answer : ReadAnswer} {toSlot : Bool} {tail : Nat}
    {st : EntryStage} {c : BlockCall} {p : CommitPoint} (hanswer : answer ≠ .null)
    (h : s.PointOk i (.commit (.entry toSlot tail st)))
    (hc : s.entryCall answer toSlot tail st = (some c, p))
    (hs : (s.noteInstall i toSlot st).blockCall i c = some s') : s'.PointOk i (.commit p) := by
  obtain ⟨htail, hst, hprog⟩ := h
  cases st with
  | getSlot =>
    cases answer with
    | null => exact absurd rfl hanswer
    | buffer recycled =>
      cases hc
      obtain rfl := Option.some.inj hs
      exact ⟨htail, List.mem_cons_self, hprog.pins, hprog.installed⟩
  | lockSlot slot =>
    cases hc
    obtain ⟨hl, hp⟩ := hprog.blockCall hs (by simp)
    exact ⟨hl ▸ htail, trivial, hp⟩
  | getHome slot =>
    cases answer with
    | null => exact absurd rfl hanswer
    | buffer recycled =>
      cases hc
      obtain rfl := Option.some.inj hs
      refine ⟨htail, ⟨?_, List.mem_cons_self⟩, hprog.pins, hprog.installed⟩
      simp [noteInstall, htail]
  | lockHome e =>
    cases hc
    obtain ⟨hl, hp⟩ := hprog.blockCall hs (by simp)
    have hholds : s'.world.Holds i e.home := by
      simp only [blockCall, Option.map_eq_some_iff] at hs
      obtain ⟨w, hw, rfl⟩ := hs
      obtain ⟨-, rfl⟩ := lockBuf_eq hw
      rw [World.Holds, put_self]
    exact ⟨hl ▸ htail, ⟨hl ▸ hst.1, hholds⟩, hp⟩
  | getHomeOnly => exact hst.elim
  | lockHomeOnly home => exact hst.elim
  | copy e =>
    cases hc
    obtain ⟨hl, hp⟩ := hprog.blockCall hs (by simp)
    exact ⟨hl ▸ htail, ⟨hl ▸ hst.1, Holds.blockCall hs hst.2 (Or.inr (by simp))⟩, hp⟩
  | write e =>
    cases hc
    cases toSlot with
    | true =>
      have hnote : s.noteInstall i true (.write e) = s := by simp [noteInstall]
      rw [hnote] at hs
      obtain ⟨hl, hp⟩ := hprog.blockCall hs (by simp)
      exact ⟨hl ▸ htail, trivial, hp.pins, by simp⟩
    | false =>
      have hnote : s.noteInstall i false (.write e)
          = { s with installed := (s.commits, e.home) :: s.installed } := if_pos ⟨rfl, hst.2⟩
      rw [hnote] at hs
      obtain ⟨hl, hp⟩ := (Progress.noted hprog hst.1).blockCall hs (by simp)
      exact ⟨hl ▸ htail, ⟨hl ▸ hst.1, rfl⟩, hp⟩
  | unpin e =>
    cases hc
    obtain rfl := Option.some.inj hs
    obtain ⟨hhome, rfl⟩ := hst
    refine ⟨htail, trivial, ?_, hprog.installed⟩
    change s.pins.erase e.home = s.log.lh.drop (tail + 1)
    have hdrop : s.pins = s.log.lh.drop tail := hprog.pins
    rw [hdrop, drop_of_getElem? hhome, List.erase_cons_head]
  | releaseSrc e =>
    cases hc
    obtain ⟨hl, hp⟩ := hprog.blockCall hs (by simp)
    exact ⟨hl ▸ htail, trivial, hp⟩
  | releaseDst e =>
    cases hc
    obtain ⟨hl, hp⟩ := hprog.blockCall hs (by simp)
    exact ⟨hl ▸ htail, hp⟩

/-- **One call in `write_head`.** -/
theorem pointOk_head {s s' : LogRun} {i : Pid} {answer : ReadAnswer} {cleared : Bool}
    {st : HeadStage} {c : BlockCall} {p : Point} (hanswer : answer ≠ .null)
    (h : s.PointOk i (.commit (.head cleared st)))
    (hc : s.headCall answer cleared st = (some c, p)) (hs : s.blockCall i c = some s') :
    s'.PointOk i p := by
  obtain ⟨hpins, hcleared, hst⟩ := h
  cases st with
  | get =>
    cases answer with
    | null => exact absurd rfl hanswer
    | buffer recycled =>
      cases hc
      obtain rfl := Option.some.inj hs
      exact ⟨hpins, hcleared, List.mem_cons_self⟩
  | lock b =>
    cases hc
    have hp := blockCall_pins hs (by simp)
    rw [blockCall_frame hs]
    exact ⟨hp.trans hpins, hcleared, trivial⟩
  | fill b =>
    cases hc
    obtain rfl := Option.some.inj hs
    exact ⟨hpins, hcleared, trivial⟩
  | write b =>
    cases hc
    obtain rfl := Option.some.inj hs
    exact ⟨hpins, hcleared, trivial⟩
  | release b =>
    cases hc
    obtain rfl := Option.some.inj hs
    cases cleared with
    | true =>
      have hnil : s.log.lh = [] := hcleared rfl
      exact ⟨hpins.trans hnil, hnil⟩
    | false => exact ⟨Nat.zero_le _, hpins, fun _ b hb => absurd hb (by simp)⟩

/-- Where `buf_get` gives a buffer, every stage makes a call. -/
theorem entryCall_some (s : LogRun) {answer : ReadAnswer} (toSlot : Bool) (tail : Nat)
    (st : EntryStage) (hanswer : answer ≠ .null) :
    ∃ c p, s.entryCall answer toSlot tail st = (some c, p) := by
  cases answer with
  | null => exact absurd rfl hanswer
  | buffer recycled => cases st <;> exact ⟨_, _, rfl⟩

theorem headCall_some (s : LogRun) {answer : ReadAnswer} (cleared : Bool) (st : HeadStage)
    (hanswer : answer ≠ .null) : ∃ c p, s.headCall answer cleared st = (some c, p) := by
  cases answer with
  | null => exact absurd rfl hanswer
  | buffer recycled => cases st <;> exact ⟨_, _, rfl⟩

/-- In a loop body, a process locks what it has a reference to. -/
theorem entryCall_lock {s : LogRun} {i : Pid} {answer : ReadAnswer} {toSlot : Bool} {tail : Nat}
    {st : EntryStage} {b : BlockNo} {p : CommitPoint} (hst : s.StageOk i toSlot tail st)
    (hc : s.entryCall answer toSlot tail st = (some (.lock b), p)) : (i, b) ∈ s.refs := by
  cases st with
  | lockSlot slot => cases hc; exact hst
  | lockHome e => cases hc; exact hst.2
  | lockHomeOnly home => exact hst.elim
  | _ => cases answer <;> exact absurd hc (by simp [entryCall])

/-- In a loop body, a process takes back a pin that is there. -/
theorem entryCall_unpin {s : LogRun} {i : Pid} {answer : ReadAnswer} {toSlot : Bool} {tail : Nat}
    {st : EntryStage} {b : BlockNo} {p : CommitPoint}
    (h : s.PointOk i (.commit (.entry toSlot tail st)))
    (hc : s.entryCall answer toSlot tail st = (some (.unpin b), p)) : b ∈ s.pins := by
  obtain ⟨-, hst, hprog⟩ := h
  cases st with
  | unpin e =>
    cases hc
    obtain ⟨hhome, rfl⟩ := hst
    have hdrop : s.pins = s.log.lh.drop tail := hprog.pins
    rw [hdrop, drop_of_getElem? hhome]
    exact List.mem_cons_self
  | _ => cases answer <;> exact absurd hc (by simp [entryCall])

/-- In `write_head`, a process locks what it has a reference to. -/
theorem headCall_lock {s : LogRun} {i : Pid} {answer : ReadAnswer} {cleared : Bool} {st : HeadStage}
    {b : BlockNo} {p : Point} (hst : s.HeadOk i st)
    (hc : s.headCall answer cleared st = (some (.lock b), p)) : (i, b) ∈ s.refs := by
  cases st with
  | lock b' => cases hc; exact hst
  | _ => cases answer <;> exact absurd hc (by simp [headCall])

theorem headCall_ne_unpin {s : LogRun} {answer : ReadAnswer} {cleared : Bool} {st : HeadStage}
    {b : BlockNo} {p : Point} : s.headCall answer cleared st ≠ (some (.unpin b), p) := by
  cases st <;> cases answer <;> simp [headCall]

theorem headCall_busy (s : LogRun) (answer : ReadAnswer) (cleared : Bool) (st : HeadStage) :
    (s.headCall answer cleared st).2.busy = true := by
  cases st with
  | get => cases answer <;> cases cleared <;> rfl
  | release b => cases cleared <;> rfl
  | _ => rfl

/-- `commit` returns after the `write_head` that clears the header. -/
theorem headCall_finish {s : LogRun} {answer : ReadAnswer} {cleared : Bool} {st : HeadStage}
    (h : (s.headCall answer cleared st).2 = .finish) : cleared = true := by
  cases cleared with
  | true => rfl
  | false => cases st <;> cases answer <;> exact absurd h (by simp [headCall, afterHead])

/-- A step of `commit` that leaves the log, the references and the counters alone. -/
theorem Inv.commit_of {s s' : LogRun} {i : Pid} {p : Point} (h : Inv s)
    (hi : (s.point i).busy = true) (hpoint : s'.point = Function.update s.point i p)
    (hp : p.busy = true) (hcom : s'.log.committing = s.log.committing)
    (hout : s'.log.outstanding = s.log.outstanding) (hnodup : s'.log.lh.Nodup)
    (hbounded : s'.log.lh.length < s'.log.size) (hrefcnt : s'.Refcnt) (hheld : s'.HeldOk)
    (hok : s'.PointOk i p) (hops : s'.ops = s.ops) (hbegan : s'.began = s.began)
    (haccepted : s'.accepted = s.accepted)
    (hinst : ∀ c b, s.InstalledBy c b → s'.InstalledBy c b) : Inv s' := by
  obtain ⟨hc, hidle⟩ := h.alone i hi
  have hself : s'.point i = p := by rw [hpoint, Function.update_self]
  refine Inv.of_busy (hself ▸ hp) ?_ (hcom.trans hc) (hout.trans (h.outstanding hi)) hnodup
    hbounded hrefcnt hheld (hself ▸ hok) ?_
  · intro j hj
    rw [hpoint, Function.update_of_ne hj]
    exact hidle j hj
  · intro o b hob
    rw [haccepted] at hob
    obtain ⟨hlt, hby⟩ := h.accepted o b hob
    rw [hops, hbegan]
    exact ⟨hlt, hinst _ _ hby⟩

/-- The invariant after a call of the block layer made inside `commit`. -/
theorem Inv.commitCall {s s₁ s₂ : LogRun} {i : Pid} {c : BlockCall} {p : Point} (h : Inv s)
    (hi : (s.point i).busy = true) (hs₁ : s₁ = { s with installed := s₁.installed })
    (hmono : ∀ x ∈ s.installed, x ∈ s₁.installed) (hs : s₁.blockCall i c = some s₂)
    (hlock : ∀ b, c = .lock b → (i, b) ∈ s.refs) (hunpin : ∀ b, c = .unpin b → b ∈ s.pins)
    (hp : p.busy = true) (hok : s₂.PointOk i p) (hlast : p = .finish → s.log.lh = []) :
    Inv ((s₂.noteReturn p).go i p) := by
  have hrefcnt₁ : s₁.Refcnt := by rw [hs₁]; exact h.refcnt
  have hheld₁ : s₁.HeldOk := by rw [hs₁]; exact h.held
  have hrefcnt := Refcnt.blockCall hs hrefcnt₁ hheld₁ (by rw [hs₁]; exact hunpin)
  have hheld := HeldOk.blockCall hs hheld₁ (by rw [hs₁]; exact hlock)
  have hf := blockCall_frame hs
  rw [hs₁] at hf
  cases p with
  | idle => exact absurd hp (by simp [Point.busy])
  | inOp => exact absurd hp (by simp [Point.busy])
  | commit q =>
    refine @Inv.commit_of s (s₂.go i (.commit q)) i (.commit q) h hi ?_ rfl ?_ ?_ ?_ ?_ hrefcnt
      hheld (hok.go _) ?_ ?_ ?_ ?_
    · rw [hf]; rfl
    · rw [hf]; rfl
    · rw [hf]; rfl
    · rw [hf]; exact h.nodup
    · rw [hf]; exact h.bounded
    · rw [hf]; rfl
    · rw [hf]; rfl
    · rw [hf]; rfl
    · intro c b hcb
      rw [hf]
      exact hcb.mono hmono fun hb => Or.inr ⟨rfl, hb⟩
  | finish =>
    refine @Inv.commit_of s ((s₂.noteReturn .finish).go i .finish) i .finish h hi ?_ rfl ?_ ?_ ?_
      ?_ hrefcnt hheld hok ?_ ?_ ?_ ?_
    · rw [hf]; rfl
    · rw [hf]; rfl
    · rw [hf]; rfl
    · rw [hf]; exact h.nodup
    · rw [hf]; exact h.bounded
    · rw [hf]; rfl
    · rw [hf]; rfl
    · rw [hf]; rfl
    · intro c b hcb
      rw [hf]
      refine hcb.mono hmono fun hb => ?_
      rw [hlast rfl] at hb
      exact absurd hb List.not_mem_nil

/-- A step of `commit` that only moves on. -/
theorem Inv.commitMove {s : LogRun} {i : Pid} {p : CommitPoint} (h : Inv s)
    (hi : (s.point i).busy = true) (hok : s.PointOk i (.commit p)) :
    Inv (s.go i (.commit p)) :=
  @Inv.commit_of s (s.go i (.commit p)) i (.commit p) h hi rfl rfl rfl rfl h.nodup h.bounded
    h.refcnt h.held (hok.go _) rfl rfl rfl fun _ _ hcb => hcb

/-- **A step of `commit`.** -/
theorem Inv.commitStep {s s' : LogRun} {i : Pid} {answer : ReadAnswer} {p : CommitPoint}
    (h : Inv s) (hanswer : answer ≠ .null) (hpi : s.point i = .commit p)
    (hs : s.commitStep i answer p = some s') : Inv s' := by
  have hi : (s.point i).busy = true := by rw [hpi]; rfl
  have hok := h.point i
  rw [hpi] at hok
  cases p with
  | enter =>
    have hpins : s.pins = s.log.lh := hok
    rw [LogRun.commitStep] at hs
    split at hs
    case isTrue =>
      obtain rfl := Option.some.inj hs
      exact h.commitMove hi ⟨Nat.zero_le _, hpins, by simp⟩
    case isFalse hn =>
      -- nothing to do: `commit` returns
      obtain rfl := Option.some.inj hs
      have hnil : s.log.lh = [] := List.eq_nil_of_length_eq_zero (by omega)
      refine @Inv.commit_of s ((s.noteReturn .finish).go i .finish) i .finish h hi rfl rfl rfl rfl
        h.nodup h.bounded h.refcnt h.held ⟨hpins.trans hnil, hnil⟩ rfl rfl rfl ?_
      intro c b hcb
      refine hcb.mono (fun _ hx => hx) fun hb => ?_
      rw [hnil] at hb
      exact absurd hb List.not_mem_nil
  | loop toSlot tail =>
    obtain ⟨htail, hprog⟩ := hok
    rw [LogRun.commitStep] at hs
    split at hs
    case isTrue hlt =>
      obtain rfl := Option.some.inj hs
      exact h.commitMove hi ⟨hlt, trivial, hprog.pins, hprog.installed⟩
    case isFalse hge =>
      obtain rfl := Option.some.inj hs
      cases toSlot with
      | true => exact h.commitMove hi ⟨hprog.pins, by simp, trivial⟩
      | false =>
        have htail' : tail = s.log.lh.length := by omega
        have hpins := hprog.pins
        have hinst := hprog.installed rfl
        rw [htail'] at hpins hinst
        rw [List.take_length] at hinst
        refine h.commitMove hi ⟨?_, hinst⟩
        rw [hpins]
        exact List.drop_length
  | entry toSlot tail st =>
    obtain ⟨c, p, hc⟩ := s.entryCall_some toSlot tail st hanswer
    simp only [LogRun.commitStep, hc, optCall, Option.map_eq_some_iff] at hs
    obtain ⟨s₂, hs₂, rfl⟩ := hs
    refine @Inv.commitCall s (s.noteInstall i toSlot st) s₂ i c (.commit p) h hi
      (s.noteInstall_frame i toSlot st) (fun _ hx => mem_noteInstall i toSlot st hx) hs₂ ?_ ?_ rfl
      (pointOk_entry hanswer hok hc hs₂) (by simp)
    · rintro b rfl
      exact entryCall_lock hok.2.1 hc
    · rintro b rfl
      exact entryCall_unpin hok hc
  | head cleared st =>
    obtain ⟨c, p, hc⟩ := s.headCall_some cleared st hanswer
    simp only [LogRun.commitStep, hc, optCall, Option.map_eq_some_iff] at hs
    obtain ⟨s₂, hs₂, rfl⟩ := hs
    have hp : (s.headCall answer cleared st).2 = p := congrArg Prod.snd hc
    refine @Inv.commitCall s s s₂ i c p h hi rfl (fun _ hx => hx) hs₂ ?_ ?_
      (hp ▸ s.headCall_busy answer cleared st) (pointOk_head hanswer hok hc hs₂) ?_
    · rintro b rfl
      exact headCall_lock hok.2.2 hc
    · rintro b rfl
      exact absurd hc headCall_ne_unpin
    · rintro rfl
      exact hok.2.1 (headCall_finish hp)
  | clear =>
    obtain ⟨hpins, hinst⟩ := hok
    obtain rfl := Option.some.inj hs
    refine @Inv.commit_of s ({ s with log := emptied s.log }.go i (.commit (.head true .get))) i
      (.commit (.head true .get)) h hi rfl rfl rfl rfl List.nodup_nil
      (Nat.lt_of_le_of_lt (Nat.zero_le _) h.bounded) h.refcnt h.held
      ⟨hpins, fun _ => rfl, trivial⟩ rfl rfl rfl ?_
    intro c b hcb
    exact hcb.mono (fun _ hx => hx) fun hb => Or.inl (hinst b hb)

/-- A call of the block layer outside `commit`. -/
theorem Inv.block {s s' : LogRun} {i : Pid} {c : BlockCall} (h : Inv s)
    (hs : s.step (.block i c) = some s') : Inv s' := by
  rw [step, Option.ite_none_right_eq_some, Bool.and_eq_true, Bool.not_eq_true'] at hs
  obtain ⟨⟨hi, hcall⟩, hs⟩ := hs
  have hnounpin : ∀ b, c ≠ .unpin b := by
    rintro b rfl
    exact absurd hcall (by simp [callable])
  have hlock : ∀ b, c = .lock b → (i, b) ∈ s.refs := by
    rintro b rfl
    exact List.contains_iff_mem.mp hcall
  have hrefcnt := Refcnt.blockCall hs h.refcnt h.held fun b e => absurd e (hnounpin b)
  have hheld := HeldOk.blockCall hs h.held hlock
  have hpins := blockCall_pins hs hnounpin
  have hpoint : ∀ j, s'.PointOk j (s.point j) := by
    intro j
    by_cases hj : j = i
    · exact pointOk_of_not_busy s' j (hj ▸ hi)
    · have hf := blockCall_frame hs
      exact (h.point j).congr (by rw [hf]) hpins (by rw [hf]) (by rw [hf])
        (fun b hb => mem_refs_blockCall hs hb fun e => hj e.1)
        fun b hb => Holds.blockCall hs hb (Or.inl hj)
  have hf := blockCall_frame hs
  rw [hpins] at hf
  rw [hf] at hrefcnt hheld hpoint ⊢
  exact { h with refcnt := hrefcnt, held := hheld, point := hpoint }

/-- **Every step of every process keeps the invariant.** -/
theorem Inv.step (s : LogRun) (r : LogStep) (s' : LogRun) (h : Inv s) (hr : NoNull r)
    (hs : s.step r = some s') : Inv s' := by
  cases r with
  | begin i => exact h.begin hs
  | write i b => exact h.write hs
  | endOp i => exact h.endOp hs
  | commit i answer =>
    rw [LogRun.step] at hs
    cases hpi : s.point i with
    | idle => simp [hpi] at hs
    | inOp => simp [hpi] at hs
    | finish => simp [hpi] at hs
    | commit p =>
      simp only [hpi] at hs
      exact h.commitStep hr hpi hs
  | finish i => exact h.finish hs
  | block i c => exact h.block hs

/-! ## 9. The log of every run -/

theorem Inv.closed {s : LogRun} (h : Inv s) {i : Pid} (hi : (s.point i).busy = true) :
    s.Closed := by
  obtain ⟨hcom, hidle⟩ := h.alone i hi
  have hout := h.outstanding hi
  have hnoBegin : s.log.beginOp = none := by rw [Log.beginOp, if_pos hcom]
  have hnoOp : ∀ j, s.point j ≠ .inOp := by
    intro j hj
    rw [h.not_busy hj i] at hi
    exact absurd hi (by simp)
  refine ⟨hout, Log.write_refused hout, hnoBegin, ?_, ?_, ?_, ?_⟩
  · intro j b
    rw [LogRun.step]
    cases hp : s.point j with
    | inOp => exact absurd hp (hnoOp j)
    | _ => rfl
  · intro j
    rw [LogRun.step, hnoBegin]
    cases s.point j <;> rfl
  · intro j
    rw [LogRun.step]
    cases hp : s.point j with
    | inOp => exact absurd hp (hnoOp j)
    | _ => rfl
  · intro j k hj hk
    by_contra hne
    rw [(h.alone k hk).2 j hne] at hj
    exact absurd hj (by simp [Point.busy])

/-- Outside `commit` the pins are the log. -/
theorem Inv.pins_of_not_committing {s : LogRun} (h : Inv s) (hno : ¬ s.Committing) :
    s.pins = s.log.lh := by
  by_cases hq : ∀ i, (s.point i).busy = false
  · exact h.quiet hq
  · obtain ⟨i, hi⟩ := not_forall.mp hq
    rw [Bool.not_eq_false] at hi
    have hok := h.point i
    cases hp : s.point i with
    | idle => rw [hp] at hi; exact absurd hi (by simp [Point.busy])
    | inOp => rw [hp] at hi; exact absurd hi (by simp [Point.busy])
    | commit p => exact absurd ⟨i, p, hp⟩ hno
    | finish =>
      rw [hp] at hok
      exact hok.1.trans hok.2.symm

theorem Inv.logOk {s : LogRun} (h : Inv s) : LogOk s where
  closed hc := by
    obtain ⟨i, hi⟩ : ∃ i, (s.point i).busy = true := by
      rcases hc with hc | ⟨i, p, hp⟩
      · exact h.busy hc
      · exact ⟨i, by rw [hp]; rfl⟩
    exact h.closed hi
  distinct := h.nodup
  bounded := by
    have := h.bounded
    omega
  pinned hno b hb := by
    rw [h.refcnt b, h.pins_of_not_committing hno, List.count_eq_one_of_mem h.nodup hb]
  unpinned hno b hb := by
    rw [h.refcnt b, h.pins_of_not_committing hno, List.count_eq_zero_of_not_mem hb, Nat.add_zero]
  returned i hi b := by
    have hok := h.point i
    rw [hi] at hok
    rw [h.refcnt b, hok.1, List.count_nil, Nat.add_zero]
  together o b hob := (h.accepted o b hob).2

/-- Nobody references or holds a buffer. -/
def Unused (w : World) : Prop := ∀ b, (w.bufs b).refcnt = 0 ∧ (w.bufs b).lock.locked = false

theorem init_inv {w : World} (hw : Unused w) (start : Nat) {size : Nat} (hsize : 0 < size) :
    Inv (init w start size) := by
  refine Inv.of_quiet (fun _ => rfl) rfl
    ⟨[], List.nodup_nil, fun i => iff_of_false List.not_mem_nil (by simp [init]), rfl⟩
    List.nodup_nil hsize ?_ ?_ rfl ?_ ?_
  · intro b
    exact (hw b).1
  · intro i b hi
    have hlocked : (w.bufs b).lock.locked = true := Holds.locked hi
    rw [(hw b).2] at hlocked
    exact absurd hlocked (by simp)
  · intro i hi
    exact absurd hi (by simp [init])
  · intro o b hob
    exact absurd hob List.not_mem_nil

/-- **In every run, with any number of processes, the log is as the operations rely on it**: it is
closed while a commit is under way, its blocks are distinct and within its size, each of them has
one pin until the commit takes it back, and the blocks of one operation are installed together. -/
theorem log_ok_always {w : World} (hw : Unused w) (start : Nat) {size : Nat} (hsize : 0 < size)
    {rs : List LogStep}
    (hrs : Transition.EachStep step (fun _ r => NoNull r) (init w start size) rs) :
    Transition.Always step LogOk (init w start size) rs :=
  (Transition.always_of_eachStep Inv.step rs _ (init_inv hw start hsize) hrs).mono
    fun _ h => h.logOk

/-- A process reads block 100, logs it and ends its operation: the steps up to the commit. -/
def oneWrite (i : Pid) : List LogStep :=
  [.begin i, .block i (.get 100 false), .block i (.lock 100), .write i 100,
    .block i (.release 100), .endOp i]

/-- The log `fs_init` makes, with two processes. -/
theorem log_ok_always_boot : Transition.Always step LogOk
    (init (World.boot fun _ _ => 0) 2 logSize)
    (oneWrite 1 ++ List.replicate 33 (.commit 1 (.buffer true)) ++ .finish 1 :: oneWrite 2) :=
  log_ok_always (fun _ => ⟨rfl, rfl⟩) 2 (by decide) (by decide +kernel)

end LogRun

end Lithium.Wal
