/-
# The block cache under many processes, and its starvation by completed writes

`block.c` over `buffer.c` over `virtio_disk.c`.  Any number of processes call `block_read`,
`block_write`, `block_release`, `buf_pin` and `buf_unpin`; a call is cut into the sections the
code runs under a spinlock, and these interleave freely.  What a process is doing with a buffer is
a `Ref`: it exists from the moment `buf_get` counted it in `refcnt` to the moment `buf_release`
takes it out again.

`block_write` sets `B_DIRTY`, and neither `virtio_disk_rw` nor `virtio_disk_intr` clears it: the
only assignment that could is the `flags = 0` of a recycling, which `buf_get` refuses to a dirty
buffer.  So a written buffer keeps its block for ever.  Section 4 says exactly which runs do not
starve the cache: those in which no written buffer ever loses its last reference.
-/
import Lithium.Fs.Buffer
import Lithium.Lib.Transition
import Mathlib.Data.List.Perm.Basic

namespace Lithium

/-! ## 1. What a disk request does to the flags -/

/-- The part of `virtio_disk_rw` before the request is submitted that touches the buffer. -/
def virtioDiskRw (b : Buf) : Buf := { b with flags := b.flags &&& ~~~bValid }

/-- What `virtio_disk_intr` does to the buffer of a completed request, for any status. -/
def virtioDiskIntr (b : Buf) : Buf := { b with flags := b.flags ||| bValid }

/-- `block_write` up to the submission: mark the buffer, then start the request. -/
def blockWrite (b : Buf) (cur : Option Pid) : Option Buf :=
  if sleeplockHeld b.lock cur then some (virtioDiskRw { b with flags := b.flags ||| bDirty })
  else none

theorem and_bDirty_eq_zero_iff (x : BitVec 32) :
    x &&& bDirty = 0 ↔ x.getLsbD 2 = false := by
  rw [show bDirty = BitVec.twoPow 32 2 from rfl, BitVec.and_twoPow]
  cases x.getLsbD 2 <;> decide

theorem Buf.dirty_eq (b : Buf) : b.dirty = b.flags.getLsbD 2 := by
  rw [Buf.dirty]
  cases h : b.flags.getLsbD 2 with
  | false => simpa using (and_bDirty_eq_zero_iff _).mpr h
  | true =>
    have : b.flags &&& bDirty ≠ 0 := fun e => by
      rw [(and_bDirty_eq_zero_iff _).mp e] at h
      exact absurd h (by simp)
    simpa using this

@[simp] theorem virtioDiskRw_dirty (b : Buf) : (virtioDiskRw b).dirty = b.dirty := by
  simp only [Buf.dirty_eq, virtioDiskRw, BitVec.getLsbD_and]
  rw [show (~~~bValid).getLsbD 2 = true by decide, Bool.and_true]

@[simp] theorem virtioDiskIntr_dirty (b : Buf) : (virtioDiskIntr b).dirty = b.dirty := by
  simp only [Buf.dirty_eq, virtioDiskIntr, BitVec.getLsbD_or]
  rw [show bValid.getLsbD 2 = false by decide, Bool.or_false]

@[simp] theorem virtioDiskRw_refcnt (b : Buf) : (virtioDiskRw b).refcnt = b.refcnt := rfl

@[simp] theorem virtioDiskIntr_refcnt (b : Buf) : (virtioDiskIntr b).refcnt = b.refcnt := rfl

/-! ## 2. The machine -/

/-- How far a process has got with a buffer it references. -/
inductive Stage where
  /-- `buf_get` returned from `bcache.lock`, the sleeplock is still to be taken. -/
  | waiting
  /-- The sleeplock is taken; `block_read` is about to look at `B_VALID`. -/
  | locked
  /-- Inside `virtio_disk_rw(b, 0)`. -/
  | reading
  /-- `block_read` has returned the buffer. -/
  | holding
  /-- Inside `virtio_disk_rw(b, 1)`. -/
  | writing
  /-- `buf_release` gave the sleeplock back and has still to drop the reference. -/
  | unlocked
  deriving DecidableEq

/-- A process with a reference to a buffer. -/
structure Ref where
  pid : Pid
  buf : Fin nbuf
  stage : Stage
  deriving DecidableEq

/-- The cache, the disk, the references held and the pins not yet taken back. -/
structure CacheState where
  cache : Bcache
  disk : Disk
  refs : List Ref
  pins : Fin nbuf → Nat

/-- One section of one call. -/
inductive CacheOp where
  | bufGet (pid : Pid) (dev : BitVec 32) (blockno : BlockNo)
  | lock (r : Ref)
  | blockRead (r : Ref)
  | modify (r : Ref) (data : Block)
  | blockWrite (r : Ref)
  | complete (r : Ref) (status : BitVec 8)
  | unlock (r : Ref)
  | drop (r : Ref)
  | bufPin (r : Ref)
  | bufUnpin (i : Fin nbuf)

namespace CacheState

/-- The buffer a reference is about. -/
abbrev bufOf (s : CacheState) (r : Ref) : Buf := s.cache.bufs r.buf

/-- Replace the buffer of a reference and move the reference on to another stage. -/
def advance (s : CacheState) (r : Ref) (st : Stage) (b : Buf) : CacheState :=
  { s with cache := s.cache.set r.buf b, refs := { r with stage := st } :: s.refs.erase r }

/-- The transfer of a completed request: only status 0 moves data. -/
def transfer (s : CacheState) (r : Ref) (status : BitVec 8) : CacheState :=
  let b := virtioDiskIntr (s.bufOf r)
  match r.stage with
  | .reading => s.advance r .holding
      (if status = 0 then { b with data := s.disk b.blockno } else b)
  | _ => { s.advance r .holding b with
      disk := if status = 0 then Function.update s.disk b.blockno b.data else s.disk }

/-- One section of one call; `none` when the process is not at that point, sleeps on the
sleeplock, or runs for ever.  `block_write` and `buf_release` return at once, without effect,
when `sleeplock_held` says no. -/
def step (s : CacheState) : CacheOp → Option CacheState
  | .bufGet pid dev blockno =>
    (Lithium.bufGet s.cache dev blockno).map fun
      | (c, some i) => { s with cache := c, refs := ⟨pid, i, .waiting⟩ :: s.refs }
      | (c, none) => { s with cache := c }
  | .lock r =>
    if r ∈ s.refs ∧ r.stage = .waiting then
      (sleeplockAcquire (s.bufOf r).lock (some r.pid)).map fun lk =>
        s.advance r .locked { s.bufOf r with lock := lk }
    else none
  | .blockRead r =>
    if r ∈ s.refs ∧ r.stage = .locked then
      if (s.bufOf r).valid then some (s.advance r .holding (s.bufOf r))
      else some (s.advance r .reading (virtioDiskRw (s.bufOf r)))
    else none
  | .modify r data =>
    if r ∈ s.refs ∧ r.stage = .holding then
      some (s.advance r .holding { s.bufOf r with data := data })
    else none
  | .blockWrite r =>
    if r ∈ s.refs ∧ r.stage = .holding then
      match Lithium.blockWrite (s.bufOf r) (some r.pid) with
      | some b => some (s.advance r .writing b)
      | none => some s
    else none
  | .complete r status =>
    if r ∈ s.refs ∧ (r.stage = .reading ∨ r.stage = .writing) then some (s.transfer r status)
    else none
  | .unlock r =>
    if r ∈ s.refs ∧ r.stage = .holding then
      if sleeplockHeld (s.bufOf r).lock (some r.pid) then
        some (s.advance r .unlocked
          { s.bufOf r with lock := sleeplockRelease (s.bufOf r).lock })
      else some s
    else none
  | .drop r =>
    if r ∈ s.refs ∧ r.stage = .unlocked then
      some { s with cache := bufDrop s.cache r.buf, refs := s.refs.erase r }
    else none
  | .bufPin r =>
    if r ∈ s.refs ∧ r.stage = .holding then
      some { s with
        cache := Lithium.bufPin s.cache r.buf
        pins := Function.update s.pins r.buf (s.pins r.buf + 1) }
    else none
  | .bufUnpin i =>
    if 0 < s.pins i then
      some { s with
        cache := Lithium.bufUnpin s.cache i
        pins := Function.update s.pins i (s.pins i - 1) }
    else none

/-- The cache as `buf_cache_init` leaves it, over any disk. -/
def init (disk : Disk) : CacheState :=
  { cache := bufCacheInit, disk := disk, refs := [], pins := fun _ => 0 }

/-- **No starvation**: `buf_get` answers `NULL` only when every buffer is referenced, and every
unreferenced buffer passes its test for recycling. -/
structure NoStarvation (s : CacheState) : Prop where
  onlyBusy : ∀ dev blockno c, Lithium.bufGet s.cache dev blockno = some (c, none) →
    ∀ i, 0 < (s.cache.bufs i).refcnt
  reusable : ∀ i, (s.cache.bufs i).refcnt = 0 → s.cache.recyclable (some i) = true

/-- The condition on a step: the last reference to a buffer is dropped, by `block_release` or by
`buf_unpin`, only while the buffer is not marked as written. -/
def DropsClean (s : CacheState) : CacheOp → Prop
  | .drop r => (s.bufOf r).refcnt = 1 → (s.bufOf r).dirty = false
  | .bufUnpin i => (s.cache.bufs i).refcnt = 1 → (s.cache.bufs i).dirty = false
  | _ => True

/-- What a section does, and when: one case for each way through the code. -/
inductive StepTo (s : CacheState) : CacheOp → CacheState → Prop
  | got (pid : Pid) {dev : BitVec 32} {blockno : BlockNo} {c : Bcache} {i : Fin nbuf}
      (hget : Lithium.bufGet s.cache dev blockno = some (c, some i)) :
      StepTo s (.bufGet pid dev blockno)
        { s with cache := c, refs := ⟨pid, i, .waiting⟩ :: s.refs }
  | missed (pid : Pid) {dev : BitVec 32} {blockno : BlockNo} {c : Bcache}
      (hget : Lithium.bufGet s.cache dev blockno = some (c, none)) :
      StepTo s (.bufGet pid dev blockno) { s with cache := c }
  | locked (r : Ref) (hr : r ∈ s.refs) (hst : r.stage = .waiting) {lk : Sleeplock}
      (hlk : sleeplockAcquire (s.bufOf r).lock (some r.pid) = some lk) :
      StepTo s (.lock r) (s.advance r .locked { s.bufOf r with lock := lk })
  | hit (r : Ref) (hr : r ∈ s.refs) (hst : r.stage = .locked)
      (hvalid : (s.bufOf r).valid = true) :
      StepTo s (.blockRead r) (s.advance r .holding (s.bufOf r))
  | readStarted (r : Ref) (hr : r ∈ s.refs) (hst : r.stage = .locked)
      (hvalid : ¬ (s.bufOf r).valid = true) :
      StepTo s (.blockRead r) (s.advance r .reading (virtioDiskRw (s.bufOf r)))
  | modified (r : Ref) (data : Block) (hr : r ∈ s.refs) (hst : r.stage = .holding) :
      StepTo s (.modify r data) (s.advance r .holding { s.bufOf r with data := data })
  | writeStarted (r : Ref) (hr : r ∈ s.refs) (hst : r.stage = .holding) {b : Buf}
      (hb : Lithium.blockWrite (s.bufOf r) (some r.pid) = some b) :
      StepTo s (.blockWrite r) (s.advance r .writing b)
  | notWritten (r : Ref) (hr : r ∈ s.refs) (hst : r.stage = .holding) : StepTo s (.blockWrite r) s
  | readDone (r : Ref) (status : BitVec 8) (hr : r ∈ s.refs) (hst : r.stage = .reading) :
      StepTo s (.complete r status) (s.advance r .holding
        (if status = 0 then
          { virtioDiskIntr (s.bufOf r) with data := s.disk (virtioDiskIntr (s.bufOf r)).blockno }
        else virtioDiskIntr (s.bufOf r)))
  | writeDone (r : Ref) (status : BitVec 8) (hr : r ∈ s.refs) (hst : r.stage = .writing) :
      StepTo s (.complete r status) { s.advance r .holding (virtioDiskIntr (s.bufOf r)) with
        disk := if status = 0 then
            Function.update s.disk (virtioDiskIntr (s.bufOf r)).blockno
              (virtioDiskIntr (s.bufOf r)).data
          else s.disk }
  | unlocked (r : Ref) (hr : r ∈ s.refs) (hst : r.stage = .holding)
      (hheld : sleeplockHeld (s.bufOf r).lock (some r.pid) = true) :
      StepTo s (.unlock r) (s.advance r .unlocked
        { s.bufOf r with lock := sleeplockRelease (s.bufOf r).lock })
  | notUnlocked (r : Ref) (hr : r ∈ s.refs) (hst : r.stage = .holding) : StepTo s (.unlock r) s
  | dropped (r : Ref) (hr : r ∈ s.refs) (hst : r.stage = .unlocked) :
      StepTo s (.drop r) { s with cache := bufDrop s.cache r.buf, refs := s.refs.erase r }
  | pinned (r : Ref) (hr : r ∈ s.refs) (hst : r.stage = .holding) :
      StepTo s (.bufPin r) { s with
        cache := Lithium.bufPin s.cache r.buf
        pins := Function.update s.pins r.buf (s.pins r.buf + 1) }
  | unpinned (i : Fin nbuf) (hi : 0 < s.pins i) :
      StepTo s (.bufUnpin i) { s with
        cache := Lithium.bufUnpin s.cache i
        pins := Function.update s.pins i (s.pins i - 1) }

/-- **A section ends in one of these ways.** -/
theorem step_to {s s' : CacheState} {o : CacheOp} (hs : s.step o = some s') : StepTo s o s' := by
  cases o with
  | bufGet pid dev blockno =>
    obtain ⟨⟨c, o⟩, hget, rfl⟩ := Option.map_eq_some_iff.mp hs
    cases o with
    | some i => exact .got pid hget
    | none => exact .missed pid hget
  | lock r =>
    simp only [step, Option.ite_none_right_eq_some, Option.map_eq_some_iff] at hs
    obtain ⟨⟨hr, hst⟩, lk, hlk, rfl⟩ := hs
    exact .locked r hr hst hlk
  | blockRead r =>
    simp only [step, Option.ite_none_right_eq_some] at hs
    obtain ⟨⟨hr, hst⟩, hs⟩ := hs
    split at hs <;> rw [Option.some.injEq] at hs <;> subst hs
    case isTrue hvalid => exact .hit r hr hst hvalid
    case isFalse hvalid => exact .readStarted r hr hst hvalid
  | modify r data =>
    simp only [step, Option.ite_none_right_eq_some, Option.some.injEq] at hs
    obtain ⟨⟨hr, hst⟩, rfl⟩ := hs
    exact .modified r data hr hst
  | blockWrite r =>
    simp only [step, Option.ite_none_right_eq_some] at hs
    obtain ⟨⟨hr, hst⟩, hs⟩ := hs
    split at hs <;> rw [Option.some.injEq] at hs <;> subst hs
    case h_1 b hb => exact .writeStarted r hr hst hb
    case h_2 => exact .notWritten r hr hst
  | complete r status =>
    simp only [step, Option.ite_none_right_eq_some, Option.some.injEq] at hs
    obtain ⟨⟨hr, hst⟩, rfl⟩ := hs
    rcases hst with hst | hst
    · rw [transfer, hst]
      exact .readDone r status hr hst
    · rw [transfer, hst]
      exact .writeDone r status hr hst
  | unlock r =>
    simp only [step, Option.ite_none_right_eq_some] at hs
    obtain ⟨⟨hr, hst⟩, hs⟩ := hs
    split at hs <;> rw [Option.some.injEq] at hs <;> subst hs
    case isTrue hheld => exact .unlocked r hr hst hheld
    case isFalse => exact .notUnlocked r hr hst
  | drop r =>
    simp only [step, Option.ite_none_right_eq_some, Option.some.injEq] at hs
    obtain ⟨⟨hr, hst⟩, rfl⟩ := hs
    exact .dropped r hr hst
  | bufPin r =>
    simp only [step, Option.ite_none_right_eq_some, Option.some.injEq] at hs
    obtain ⟨⟨hr, hst⟩, rfl⟩ := hs
    exact .pinned r hr hst
  | bufUnpin i =>
    simp only [step, Option.ite_none_right_eq_some, Option.some.injEq] at hs
    obtain ⟨hi, rfl⟩ := hs
    exact .unpinned i hi

/-! ## 3. Counting references -/

/-- Every buffer is in the list, and `refcnt` counts the references and the pins. -/
structure RefsOk (s : CacheState) : Prop where
  linked : s.cache.AllLinked
  counted : ∀ i, (s.cache.bufs i).refcnt = s.refs.countP (fun r => r.buf == i) + s.pins i

/-- Every unreferenced buffer is clean. -/
def FreeClean (s : CacheState) : Prop :=
  ∀ i, (s.cache.bufs i).refcnt = 0 → (s.cache.bufs i).dirty = false

theorem init_refsOk (disk : Disk) : RefsOk (init disk) where
  linked := bufCacheInit_allLinked
  counted := fun _ => rfl

theorem init_freeClean (disk : Disk) : FreeClean (init disk) := fun _ _ => by
  simp [init, bufCacheInit, Buf.zero, Buf.dirty]

/-- A referenced buffer is counted. -/
theorem RefsOk.refcnt_pos {s : CacheState} (h : RefsOk s) {r : Ref} (hr : r ∈ s.refs) :
    0 < (s.bufOf r).refcnt := by
  rw [bufOf, h.counted]
  have : 0 < s.refs.countP (fun q => q.buf == r.buf) :=
    List.countP_pos_iff.mpr ⟨r, hr, by simp⟩
  omega

theorem countP_erase {refs : List Ref} {r : Ref} (hr : r ∈ refs) (i : Fin nbuf) :
    refs.countP (fun q => q.buf == i)
      = (refs.erase r).countP (fun q => q.buf == i) + if r.buf == i then 1 else 0 := by
  rw [(List.perm_cons_erase hr).countP_eq, List.countP_cons]

/-- On a well-formed list, the cache does not starve exactly when every unreferenced buffer is
clean. -/
theorem noStarvation_iff {s : CacheState} (h : RefsOk s) : NoStarvation s ↔ FreeClean s := by
  constructor
  · intro hns i hi
    simpa [Bcache.recyclable, hi] using hns.reusable i hi
  · intro hfc
    have hre : ∀ i, (s.cache.bufs i).refcnt = 0 → s.cache.recyclable (some i) = true :=
      fun i hi => by simp [Bcache.recyclable, hi, hfc i hi]
    refine ⟨fun dev blockno c hget i => ?_, hre⟩
    obtain ⟨xs, hxs, hall⟩ := h.linked
    rw [bufGet, searchNext_eq hxs hxs.length_le, searchPrev_eq hxs hxs.length_le] at hget
    by_contra hi
    -- the loop would have found the unreferenced buffer `i`
    have hfound : (xs.reverse.find? fun j => s.cache.recyclable (some j)).isSome := by
      rw [List.find?_isSome]
      exact ⟨i, by simpa using hall i, hre i (by omega)⟩
    obtain ⟨j, hj⟩ := Option.isSome_iff_exists.mp hfound
    simp only [Option.bind_eq_bind, Option.bind_some, hj] at hget
    split at hget <;> simp at hget

/-- Moving a reference on keeps the counting, as long as the buffer keeps its `refcnt`. -/
theorem RefsOk.advance {s : CacheState} (h : RefsOk s) {r : Ref} (hr : r ∈ s.refs) {st : Stage}
    {b : Buf} (hb : b.refcnt = (s.bufOf r).refcnt) : RefsOk (s.advance r st b) where
  linked := h.linked.congr rfl
  counted := fun i => by
    have hc := h.counted i
    rw [countP_erase hr] at hc
    simp only [CacheState.advance, List.countP_cons]
    by_cases hi : i = r.buf
    · subst hi
      simpa [hb] using hc
    · rw [Bcache.set_bufs_of_ne _ hi]
      exact hc

/-- Moving a reference on keeps the unreferenced buffers clean: its own buffer is referenced. -/
theorem FreeClean.advance {s : CacheState} (h : FreeClean s) (ho : RefsOk s) {r : Ref}
    (hr : r ∈ s.refs) {st : Stage} {b : Buf} (hb : b.refcnt = (s.bufOf r).refcnt) :
    FreeClean (s.advance r st b) := by
  intro i hi
  by_cases hir : i = r.buf
  · subst hir
    have hpos := ho.refcnt_pos hr
    simp only [CacheState.advance, Bcache.set_bufs_self] at hi
    omega
  · simp only [CacheState.advance, Bcache.set_bufs_of_ne _ hir] at hi ⊢
    exact h i hi

/-- The two facts a step keeps, packed for the steps that only move a reference on. -/
theorem advance_keeps {s : CacheState} (ho : RefsOk s) (h : FreeClean s) {r : Ref}
    (hr : r ∈ s.refs) {st : Stage} {b : Buf} (hb : b.refcnt = (s.bufOf r).refcnt) :
    RefsOk (s.advance r st b) ∧ FreeClean (s.advance r st b) :=
  ⟨ho.advance hr hb, h.advance ho hr hb⟩

theorem blockWrite_refcnt {b b' : Buf} {cur : Option Pid} (h : blockWrite b cur = some b') :
    b'.refcnt = b.refcnt := by
  rw [Lithium.blockWrite] at h
  split at h
  · rw [Option.some.injEq] at h
    subst h
    rfl
  · exact absurd h (by simp)

/-- One more reference to buffer `i`, counted in it. -/
theorem RefsOk.reference {s : CacheState} (ho : RefsOk s) {i : Fin nbuf} {b : Buf}
    (hb : b.refcnt = (s.cache.bufs i).refcnt + 1) (pid : Pid) :
    RefsOk { s with cache := s.cache.set i b, refs := ⟨pid, i, .waiting⟩ :: s.refs } where
  linked := ho.linked.congr rfl
  counted := fun j => by
    have hc := ho.counted j
    by_cases hij : j = i
    · subst hij
      simp only [Bcache.set_bufs_self, List.countP_cons, beq_self_eq_true, if_true]
      omega
    · have hij' : (i == j) = false := by simpa using fun e : i = j => hij e.symm
      simp only [Bcache.set_bufs_of_ne _ hij, List.countP_cons, hij']
      simpa using hc

/-- A buffer that gets a reference is not an unreferenced one. -/
theorem FreeClean.set {s : CacheState} (h : FreeClean s) {i : Fin nbuf} {b : Buf}
    (hb : 0 < b.refcnt) {j : Fin nbuf} (hj : ((s.cache.set i b).bufs j).refcnt = 0) :
    ((s.cache.set i b).bufs j).dirty = false := by
  by_cases hij : j = i
  · subst hij
    rw [Bcache.set_bufs_self] at hj
    omega
  · rw [Bcache.set_bufs_of_ne _ hij] at hj ⊢
    exact h j hj

/-- `buf_get` references the buffer it returns and leaves the others alone. -/
theorem bufGet_keeps {s : CacheState} (ho : RefsOk s) (h : FreeClean s) {pid : Pid}
    {dev : BitVec 32} {blockno : BlockNo} {s' : CacheState}
    (hs : s.step (.bufGet pid dev blockno) = some s') : RefsOk s' ∧ FreeClean s' := by
  obtain ⟨xs, hxs, hall⟩ := ho.linked
  simp only [step, Lithium.bufGet, searchNext_eq hxs hxs.length_le,
    searchPrev_eq hxs hxs.length_le, Option.bind_eq_bind, Option.bind_some] at hs
  -- what the two successful cases share: one buffer gets one more reference
  have key : ∀ (i : Fin nbuf) (b : Buf), b.refcnt = (s.cache.bufs i).refcnt + 1 →
      RefsOk { s with cache := s.cache.set i b, refs := ⟨pid, i, .waiting⟩ :: s.refs } ∧
        FreeClean { s with cache := s.cache.set i b, refs := ⟨pid, i, .waiting⟩ :: s.refs } :=
    fun i b hb => ⟨ho.reference hb pid, fun j hj => h.set (by omega) hj⟩
  cases hhit : xs.find? (fun i => s.cache.hasKey dev blockno (some i)) with
  | some i =>
    simp only [hhit, Option.map_some, Option.some.injEq] at hs
    subst hs
    exact key i _ rfl
  | none =>
    cases hmiss : xs.reverse.find? (fun i => s.cache.recyclable (some i)) with
    | some i =>
      simp only [hhit, hmiss, Option.map_some, Option.some.injEq] at hs
      subst hs
      have hfree : (s.cache.bufs i).refcnt = 0 := by
        have := List.find?_some hmiss
        simp only [Bcache.recyclable, Bool.and_eq_true, beq_iff_eq] at this
        exact this.1
      exact key i _ (by rw [hfree])
    | none =>
      simp only [hhit, hmiss, Option.map_some, Option.some.injEq] at hs
      subst hs
      exact ⟨⟨ho.linked, ho.counted⟩, h⟩

/-! ## 4. Which runs do not starve the cache -/

/-- A pin is counted like a reference. -/
theorem bufPin_refsOk {s : CacheState} (ho : RefsOk s) (i : Fin nbuf) :
    RefsOk { s with
      cache := Lithium.bufPin s.cache i
      pins := Function.update s.pins i (s.pins i + 1) } where
  linked := ho.linked.congr rfl
  counted := fun j => by
    have hc := ho.counted j
    by_cases hij : j = i
    · subst hij
      simp only [Lithium.bufPin, Bcache.set_bufs_self, Function.update_self]
      omega
    · simpa only [Lithium.bufPin, Bcache.set_bufs_of_ne _ hij, Function.update_of_ne hij] using hc

/-- Taking one reference away from buffer `i` keeps the unreferenced buffers clean exactly when
it was not the last one, or the buffer is clean. -/
theorem freeClean_release_iff {s : CacheState} {c : Bcache} {i : Fin nbuf} (h : FreeClean s)
    (hpos : 0 < (s.cache.bufs i).refcnt)
    (hi : (c.bufs i).refcnt = (s.cache.bufs i).refcnt - 1 ∧
      (c.bufs i).dirty = (s.cache.bufs i).dirty)
    (hne : ∀ j, j ≠ i → c.bufs j = s.cache.bufs j) :
    (∀ j, (c.bufs j).refcnt = 0 → (c.bufs j).dirty = false) ↔
      ((s.cache.bufs i).refcnt = 1 → (s.cache.bufs i).dirty = false) := by
  constructor
  · intro hall hone
    rw [← hi.2]
    exact hall i (by omega)
  · intro hlast j hj
    by_cases hij : j = i
    · subst hij
      rw [hi.2]
      exact hlast (by omega)
    · rw [hne j hij] at hj ⊢
      exact h j hj

theorem bufDrop_bufs (c : Bcache) (i j : Fin nbuf) : (bufDrop c i).bufs j
    = (c.set i { c.bufs i with refcnt := (c.bufs i).refcnt - 1 }).bufs j := by
  rw [bufDrop]
  split <;> rfl

theorem bufDrop_allLinked {c : Bcache} (h : c.AllLinked) (i : Fin nbuf) :
    (bufDrop c i).AllLinked := by
  rw [bufDrop]
  split
  · exact h.moveFront i rfl
  · exact h.congr rfl

/-- Dropping a reference keeps the counting. -/
theorem drop_refsOk {s : CacheState} (ho : RefsOk s) {r : Ref} (hr : r ∈ s.refs) :
    RefsOk { s with cache := bufDrop s.cache r.buf, refs := s.refs.erase r } where
  linked := bufDrop_allLinked ho.linked r.buf
  counted := fun j => by
    have hc := ho.counted j
    rw [countP_erase hr] at hc
    rw [bufDrop_bufs]
    by_cases hij : j = r.buf
    · subst hij
      simp only [beq_self_eq_true, if_true] at hc
      simp only [Bcache.set_bufs_self]
      omega
    · have hij' : (r.buf == j) = false := by simpa using fun e : r.buf = j => hij e.symm
      simp only [hij', Bool.false_eq_true, if_false, Nat.add_zero] at hc
      rw [Bcache.set_bufs_of_ne _ hij]
      exact hc

/-- Taking a pin back keeps the counting. -/
theorem bufUnpin_refsOk {s : CacheState} (ho : RefsOk s) {i : Fin nbuf} (hi : 0 < s.pins i) :
    RefsOk { s with
      cache := Lithium.bufUnpin s.cache i
      pins := Function.update s.pins i (s.pins i - 1) } where
  linked := ho.linked.congr rfl
  counted := fun j => by
    have hc := ho.counted j
    by_cases hij : j = i
    · subst hij
      simp only [Lithium.bufUnpin, Bcache.set_bufs_self, Function.update_self]
      omega
    · simpa only [Lithium.bufUnpin, Bcache.set_bufs_of_ne _ hij, Function.update_of_ne hij] using hc

/-- **One step.**  The counting is kept, and the unreferenced buffers stay clean exactly when the
step drops no last reference to a written buffer. -/
theorem step_spec {s s' : CacheState} {o : CacheOp} (ho : RefsOk s) (h : FreeClean s)
    (hs : s.step o = some s') : RefsOk s' ∧ (FreeClean s' ↔ DropsClean s o) := by
  -- every section but the last drop of a reference keeps both facts
  have keep : RefsOk s' ∧ FreeClean s' → DropsClean s o →
      RefsOk s' ∧ (FreeClean s' ↔ DropsClean s o) := fun hk hd => ⟨hk.1, iff_of_true hk.2 hd⟩
  cases step_to hs with
  | got => exact keep (bufGet_keeps ho h hs) trivial
  | missed => exact keep (bufGet_keeps ho h hs) trivial
  | locked r hr => exact keep (advance_keeps ho h hr rfl) trivial
  | hit r hr => exact keep (advance_keeps ho h hr rfl) trivial
  | readStarted r hr => exact keep (advance_keeps ho h hr rfl) trivial
  | modified r data hr => exact keep (advance_keeps ho h hr rfl) trivial
  | writeStarted r hr _ hb => exact keep (advance_keeps ho h hr (blockWrite_refcnt hb)) trivial
  | notWritten => exact keep ⟨ho, h⟩ trivial
  | readDone r status hr => exact keep (advance_keeps ho h hr (by split <;> rfl)) trivial
  | writeDone r status hr =>
    have hk : RefsOk (s.advance r .holding (virtioDiskIntr (s.bufOf r))) ∧
        FreeClean (s.advance r .holding (virtioDiskIntr (s.bufOf r))) :=
      advance_keeps ho h hr rfl
    exact keep ⟨⟨hk.1.linked, hk.1.counted⟩, hk.2⟩ trivial
  | unlocked r hr => exact keep (advance_keeps ho h hr rfl) trivial
  | notUnlocked => exact keep ⟨ho, h⟩ trivial
  | dropped r hr =>
    refine ⟨drop_refsOk ho hr, freeClean_release_iff h (ho.refcnt_pos hr) ?_ fun j hj => ?_⟩
    · simp [bufDrop_bufs, Buf.dirty]
    · rw [bufDrop_bufs, Bcache.set_bufs_of_ne _ hj]
  | pinned r => exact keep ⟨bufPin_refsOk ho r.buf, fun j hj => h.set (Nat.succ_pos _) hj⟩ trivial
  | unpinned i hi =>
    have hpos : 0 < (s.cache.bufs i).refcnt := by
      rw [ho.counted]
      omega
    refine ⟨bufUnpin_refsOk ho hi, freeClean_release_iff h hpos ?_ fun j hj => ?_⟩
    · simp [Lithium.bufUnpin, Buf.dirty]
    · rw [Lithium.bufUnpin, Bcache.set_bufs_of_ne _ hj]

/-- **The cache starves exactly in the runs that drop the last reference to a written buffer.**
In every other run `buf_get` answers `NULL` only when all buffers are referenced, and every
unreferenced buffer can be recycled. -/
theorem noStarvation_iff_dropsClean (disk : Disk) (os : List CacheOp) :
    Transition.Always step NoStarvation (init disk) os ↔
      Transition.EachStep step DropsClean (init disk) os := by
  have hstep : ∀ s o s', RefsOk s → NoStarvation s → step s o = some s' →
      (NoStarvation s' ↔ DropsClean s o) ∧ (NoStarvation s' → RefsOk s') := by
    intro s o s' ho hns hs
    obtain ⟨ho', hiff⟩ := step_spec ho ((noStarvation_iff ho).mp hns) hs
    exact ⟨(noStarvation_iff ho').trans hiff, fun _ => ho'⟩
  have hns : NoStarvation (init disk) :=
    (noStarvation_iff (init_refsOk disk)).mpr (init_freeClean disk)
  exact Transition.always_iff_eachStep hstep os _ (init_refsOk disk) hns

/-- One whole use of buffer `i`: read the block of that number, write it back, release it. -/
def writeBack (i : Fin nbuf) : List CacheOp :=
  [.bufGet 1 1 (BitVec.ofNat 32 i.val), .lock ⟨1, i, .waiting⟩, .blockRead ⟨1, i, .locked⟩,
    .complete ⟨1, i, .reading⟩ 0, .blockWrite ⟨1, i, .holding⟩, .complete ⟨1, i, .writing⟩ 0,
    .unlock ⟨1, i, .holding⟩, .drop ⟨1, i, .unlocked⟩]

/-- Thirty blocks read, written back and released, one after the other: no buffer is referenced
any more, and `buf_get` answers `NULL` for a thirty-first block. -/
theorem thirty_writes_starve :
    ¬ ∀ (disk : Disk) (os : List CacheOp), Transition.Always step NoStarvation (init disk) os := by
  intro h
  have hrun : ((Transition.run step (init fun _ _ => 0)
      ((List.finRange nbuf).flatMap writeBack)).any fun s =>
        ((Lithium.bufGet s.cache 1 100).map fun r => r.2) == some none &&
          (s.cache.bufs 0).refcnt == 0) = true := by
    decide +kernel
  obtain ⟨s, hs, hnull⟩ := (Option.any_eq_true _ _).mp hrun
  simp only [Bool.and_eq_true, beq_iff_eq, Option.map_eq_some_iff] at hnull
  obtain ⟨⟨⟨c, r⟩, hget, rfl⟩, hfree⟩ := hnull
  have hns := (Transition.always_iff_reachable.mp (h fun _ _ => 0)) s ⟨_, hs⟩
  exact absurd (hns.onlyBusy _ _ c hget 0) (by omega)

end CacheState

end Lithium
