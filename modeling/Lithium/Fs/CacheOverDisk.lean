/-
# The cache over a disk that takes its time

In `BlockCache.lean` the disk answers when `virtio_disk_rw` returns.  The disk that the driver
implements (`AtomicDisk`, in `VirtioServe.lean`) carries a call out at some instant before that, and
meanwhile other processes call it, and go on with the cache.

Nobody sees the difference.  A buffer that is in the driver is locked, so that no section of the
cache looks at its data or at `B_VALID`, and no other call is for its block, as long as each block
is used under one device number.  `Over` relates the two disks: they differ in the blocks that are
being written and in the buffers that are in the driver, and each call says by how much.
-/
import Lithium.Fs.CacheLayer
import Lithium.Fs.VirtioServe

namespace Lithium

open Wal

/-! ## 1. Calls of the disk -/

/-- Inside `virtio_disk_rw`. -/
def Stage.inDriver : Stage → Bool
  | .reading | .writing => true
  | _ => false

namespace AtomicDisk

variable {T B : Type*} [DecidableEq T] [DecidableEq B] {a a' : AtomicDisk T B} {o : AtomicOp T B}

omit [DecidableEq T] [DecidableEq B] in
theorem op_of_called {t : T} {b : B} {write : Bool} (h : a.event? o = some (.called t b write)) :
    o = .call t b write := by
  cases o with
  | call =>
    obtain ⟨rfl, rfl, rfl⟩ := DiskEvent.called.inj (Option.some.inj h)
    rfl
  | serve => exact absurd h (by simp [event?])
  | ret t => exact absurd h (by rw [event?]; split <;> simp)
  | edit => exact absurd h (by simp [event?])

omit [DecidableEq T] [DecidableEq B] in
theorem op_of_returned {t : T} {data : Block} (h : a.event? o = some (.returned t data)) :
    o = .ret t := by
  cases o with
  | call => exact absurd h (by simp [event?])
  | serve => exact absurd h (by simp [event?])
  | ret u =>
    rw [event?] at h
    split at h
    · obtain ⟨rfl, -⟩ := DiskEvent.returned.inj (Option.some.inj h)
      rfl
    · exact absurd h (by simp)
  | edit => exact absurd h (by simp [event?])

/-- A step that nobody sees. -/
theorem op_of_quiet (hs : a.step o = some a') (h : a.event? o = none) : ∃ t, o = .serve t := by
  cases o with
  | call => exact absurd h (by simp [event?])
  | serve t => exact ⟨t, rfl⟩
  | ret t =>
    rw [event?] at h
    rw [step] at hs
    split at h
    case h_1 => exact absurd h (by simp)
    case h_2 hne =>
      split at hs
      case h_1 b hb => exact absurd hb (hne b)
      case h_2 => exact absurd hs (by simp)
  | edit => exact absurd h (by simp [event?])

end AtomicDisk

/-! ## 2. The cache over the atomic disk -/

/-- A call of `virtio_disk_rw`, between the disk that serves it at some instant and the cache that
is served when the call returns. -/
inductive InDriver (a : AtomicDisk Pid (Fin nbuf)) (c : CacheState) (r : Ref) : Prop
  | asked (hcall : a.call r.pid = .asked r.buf (r.stage == .writing))
      (hdata : a.data r.buf = (c.bufOf r).data)
      (hdisk : a.disk (c.bufOf r).blockno = c.disk (c.bufOf r).blockno)
  | read (hst : r.stage = .reading) (hcall : a.call r.pid = .served r.buf)
      (hdata : a.data r.buf = c.disk (c.bufOf r).blockno)
  | written (hst : r.stage = .writing) (hcall : a.call r.pid = .served r.buf)
      (hdata : a.data r.buf = (c.bufOf r).data)
      (hdisk : a.disk (c.bufOf r).blockno = (c.bufOf r).data)

/-- The buffer of a call. -/
def DiskCall.buf? {B : Type*} : DiskCall B → Option B
  | .idle => none
  | .asked b _ | .served b => some b

/-- The buffers that are not in the driver and the blocks that nobody writes are the same on both
sides. -/
structure Over (a : AtomicDisk Pid (Fin nbuf)) (c : CacheState) : Prop where
  blockno : ∀ i, a.blockno i = (c.cache.bufs i).blockno
  idle : ∀ i, a.busy i = false → a.data i = (c.cache.bufs i).data
  busy : ∀ i, a.busy i = true ↔ ∃ r ∈ c.refs, r.buf = i ∧ r.stage.inDriver = true
  called : ∀ t, a.call t ≠ .idle → ∃ r ∈ c.refs, r.pid = t ∧ r.stage.inDriver = true
  calls : ∀ r ∈ c.refs, r.stage.inDriver = true → InDriver a c r
  disk : ∀ n, (∀ r ∈ c.refs, r.stage = .writing → (c.bufOf r).blockno ≠ n) → a.disk n = c.disk n

/-- What the cache keeps of its keys and locks when each block is used under one device number. -/
structure OneDevice (devOf : BlockNo → BitVec 32) (c : CacheState) : Prop where
  keys : c.KeysOk
  locks : c.LocksOk
  known : ∀ i, ¬ (c.cache.bufs i).Unused → (c.cache.bufs i).dev = devOf (c.cache.bufs i).blockno

theorem Stage.holdsLock_of_inDriver {st : Stage} (h : st.inDriver = true) :
    st.holdsLock = true := by
  cases st <;> first | rfl | exact absurd h (by decide)

theorem Stage.inDriver_iff {st : Stage} : st.inDriver = true ↔ st = .reading ∨ st = .writing := by
  cases st <;> decide

variable {devOf : BlockNo → BitVec 32} {a a' : AtomicDisk Pid (Fin nbuf)} {c c' : CacheState}
  {q r : Ref}

/-- Two references to buffers for one block are to one buffer. -/
theorem OneDevice.buf_eq (h : OneDevice devOf c) (hq : q ∈ c.refs) (hr : r ∈ c.refs)
    (hno : (c.bufOf q).blockno = (c.bufOf r).blockno) : q.buf = r.buf := by
  have hposq := h.keys.refsOk.refcnt_pos hq
  have hposr := h.keys.refsOk.refcnt_pos hr
  have hdev : ∀ {r : Ref}, 0 < (c.cache.bufs r.buf).refcnt →
      (c.cache.bufs r.buf).dev = devOf (c.cache.bufs r.buf).blockno := fun hpos =>
    h.known _ fun hu => absurd hpos (hu.1 ▸ Nat.lt_irrefl 0)
  refine h.keys.keyed.eq_of_referenced hposq hposr ⟨?_, hno⟩
  rw [hdev hposq, hdev hposr]
  exact congrArg devOf hno

/-- A buffer in the driver is there for one reference only. -/
theorem OneDevice.ref_eq (h : OneDevice devOf c) (hq : q ∈ c.refs) (hr : r ∈ c.refs)
    (hbuf : q.buf = r.buf) (hqst : q.stage.holdsLock = true) (hrst : r.stage.holdsLock = true) :
    q = r := h.locks.unique hq hr hbuf hqst hrst

theorem InDriver.buf?_eq (h : InDriver a c r) : (a.call r.pid).buf? = some r.buf := by
  cases h with
  | asked hcall => rw [hcall]; rfl
  | read _ hcall => rw [hcall]; rfl
  | written _ hcall => rw [hcall]; rfl

/-- A call goes on if nothing happens to its buffer and its block. -/
theorem InDriver.congr (h : InDriver a c r) (hcall : a'.call r.pid = a.call r.pid)
    (hdata : a'.data r.buf = a.data r.buf)
    (hdisk : a'.disk (c.bufOf r).blockno = a.disk (c.bufOf r).blockno)
    (hbuf : (c'.bufOf r).blockno = (c.bufOf r).blockno ∧ (c'.bufOf r).data = (c.bufOf r).data)
    (hdisk' : c'.disk (c.bufOf r).blockno = c.disk (c.bufOf r).blockno) : InDriver a' c' r := by
  cases h with
  | asked hc hd hb =>
    refine .asked (hcall.trans hc) ((hdata.trans hd).trans hbuf.2.symm) ?_
    rw [hbuf.1, hdisk, hb, hdisk']
  | read hst hc hd =>
    refine .read hst (hcall.trans hc) ?_
    rw [hbuf.1, hdata, hd, hdisk']
  | written hst hc hd hb =>
    refine .written hst (hcall.trans hc) ((hdata.trans hd).trans hbuf.2.symm) ?_
    rw [hbuf.1, hbuf.2, hdisk, hb]

/-- A process has one call. -/
theorem Over.pid_inj (h : Over a c) (ho : OneDevice devOf c) (hq : q ∈ c.refs) (hr : r ∈ c.refs)
    (hqst : q.stage.inDriver = true) (hrst : r.stage.inDriver = true) (hpid : q.pid = r.pid) :
    q = r := by
  have hbuf := (h.calls q hq hqst).buf?_eq
  rw [hpid, (h.calls r hr hrst).buf?_eq, Option.some.injEq] at hbuf
  exact ho.ref_eq hq hr hbuf.symm (Stage.holdsLock_of_inDriver hqst)
    (Stage.holdsLock_of_inDriver hrst)

/-- Another call is of another process, with another buffer, for another block. -/
theorem Over.apart (h : Over a c) (ho : OneDevice devOf c) (hq : q ∈ c.refs) (hr : r ∈ c.refs)
    (hqst : q.stage.inDriver = true) (hrst : r.stage.inDriver = true) (hne : q ≠ r) :
    q.pid ≠ r.pid ∧ q.buf ≠ r.buf ∧ (c.bufOf q).blockno ≠ (c.bufOf r).blockno := by
  have hbuf : q.buf ≠ r.buf := fun e => hne (ho.ref_eq hq hr e (Stage.holdsLock_of_inDriver hqst)
    (Stage.holdsLock_of_inDriver hrst))
  exact ⟨fun e => hne (h.pid_inj ho hq hr hqst hrst e), hbuf, fun e => hbuf (ho.buf_eq hq hr e)⟩

/-- **The disk serves a call**, which the cache does not see. -/
theorem Over.serve (h : Over a c) (ho : OneDevice devOf c) {t : Pid}
    (hs : a.step (.serve t) = some a') : Over a' c := by
  obtain ⟨r, hr, rfl, hrst⟩ := h.called t fun e => by
    rw [AtomicDisk.step, e] at hs
    exact absurd hs (by simp)
  have hothers : ∀ q ∈ c.refs, q.stage.inDriver = true → q ≠ r → q.pid ≠ r.pid ∧ q.buf ≠ r.buf ∧
      (c.bufOf q).blockno ≠ (c.bufOf r).blockno := fun q hq hqst hne =>
    h.apart ho hq hr hqst hrst hne
  cases h.calls r hr hrst with
  | read _ hcall =>
    rw [AtomicDisk.step, hcall] at hs
    exact absurd hs (by simp)
  | written _ hcall =>
    rw [AtomicDisk.step, hcall] at hs
    exact absurd hs (by simp)
  | asked hcall hdata hdisk =>
    have hcalled : ∀ (x : DiskCall (Fin nbuf)) t, Function.update a.call r.pid x t ≠ .idle →
        ∃ r ∈ c.refs, r.pid = t ∧ r.stage.inDriver = true := fun x t ht => by
      by_cases htr : t = r.pid
      · exact ⟨r, hr, htr.symm, hrst⟩
      · rw [Function.update_of_ne htr] at ht
        exact h.called t ht
    rcases Stage.inDriver_iff.mp hrst with hst | hst
    · rw [AtomicDisk.step, hcall, hst] at hs
      obtain rfl := Option.some.inj hs
      refine ⟨h.blockno, fun i hi => ?_, h.busy, hcalled _, fun q hq hqst => ?_, h.disk⟩
      · have hi' : i ≠ r.buf := fun e => by
          rw [(h.busy i).mpr ⟨r, hr, e.symm, hrst⟩] at hi
          exact absurd hi (by decide)
        dsimp only
        rw [Function.update_of_ne hi', h.idle i hi]
      · by_cases hne : q = r
        · subst hne
          refine .read hst (Function.update_self ..) ?_
          dsimp only
          rw [Function.update_self, h.blockno, ← hdisk]
        · obtain ⟨hpid, hbuf, -⟩ := hothers q hq hqst hne
          exact (h.calls q hq hqst).congr (Function.update_of_ne hpid ..)
            (Function.update_of_ne hbuf ..) rfl ⟨rfl, rfl⟩ rfl
    · rw [AtomicDisk.step, hcall, hst] at hs
      obtain rfl := Option.some.inj hs
      refine ⟨h.blockno, h.idle, h.busy, hcalled _, fun q hq hqst => ?_, fun n hn => ?_⟩
      · by_cases hne : q = r
        · subst hne
          refine .written hst (Function.update_self ..) hdata ?_
          dsimp only
          rw [h.blockno, Function.update_self, hdata]
        · obtain ⟨hpid, -, hno⟩ := hothers q hq hqst hne
          refine (h.calls q hq hqst).congr (Function.update_of_ne hpid ..) rfl ?_ ⟨rfl, rfl⟩ rfl
          dsimp only
          rw [h.blockno, Function.update_of_ne hno]
      · have hn' : n ≠ a.blockno r.buf := fun e => hn r hr hst (e.trans (h.blockno r.buf)).symm
        dsimp only
        rw [Function.update_of_ne hn', h.disk n hn]

/-- A reference other than the one that moves on. -/
theorem mem_erase_of_inDriver {refs : List Ref} (hq : q ∈ refs) (hqst : q.stage.inDriver = true)
    (hrst : r.stage.inDriver = false) : q ∈ refs.erase r := by
  refine (List.mem_erase_of_ne ?_).mpr hq
  rintro rfl
  rw [hrst] at hqst
  exact absurd hqst (by decide)

theorem advance_bufOf_of_ne (c : CacheState) {st : Stage} {b : Buf} (h : q.buf ≠ r.buf) :
    (c.advance r st b).bufOf q = c.bufOf q := Bcache.set_bufs_of_ne _ h b

/-- **A process calls the driver.** -/
theorem Over.enter (h : Over a c) (ho : OneDevice devOf c) (hr : r ∈ c.refs)
    (hrst : r.stage.inDriver = false) {st : Stage} {b : Buf} (hst : st.inDriver = true)
    (hb : b.blockno = (c.bufOf r).blockno ∧ b.data = (c.bufOf r).data)
    (hs : a.step (.call r.pid r.buf (st == .writing)) = some a') : Over a' (c.advance r st b) := by
  rw [AtomicDisk.step] at hs
  split at hs
  case h_2 => exact absurd hs (by simp)
  case h_1 hidle =>
    rw [Option.ite_none_left_eq_some, Option.some.injEq] at hs
    obtain ⟨hbusy, rfl⟩ := hs
    have hbusy' : a.busy r.buf = false := by simpa using hbusy
    -- whoever is in the driver is another process with another buffer
    have hothers : ∀ q ∈ c.refs, q.stage.inDriver = true → q.pid ≠ r.pid ∧ q.buf ≠ r.buf :=
      fun q hq hqst => by
        refine ⟨fun e => ?_, fun e => hbusy ((h.busy r.buf).mpr ⟨q, hq, e, hqst⟩)⟩
        have hcall := (h.calls q hq hqst).buf?_eq
        rw [e, hidle] at hcall
        exact absurd hcall (by simp [DiskCall.buf?])
    have hself : (c.advance r st b).bufOf { r with stage := st } = b := Bcache.set_bufs_self _ _ _
    have hcache : ∀ i, ((c.advance r st b).cache.bufs i).blockno = (c.cache.bufs i).blockno ∧
        ((c.advance r st b).cache.bufs i).data = (c.cache.bufs i).data := fun i => by
      by_cases hi : i = r.buf
      · subst hi
        rw [show (c.advance r st b).cache.bufs r.buf = b from hself]
        exact hb
      · rw [show (c.advance r st b).cache.bufs i = c.cache.bufs i from Bcache.set_bufs_of_ne _ hi b]
        exact ⟨rfl, rfl⟩
    refine ⟨fun i => (h.blockno i).trans (hcache i).1.symm, fun i hi => ?_, fun i => ?_,
      fun t ht => ?_, fun q hq hqst => ?_, fun n hn => ?_⟩
    · by_cases hir : i = r.buf
      · subst hir
        dsimp only at hi
        rw [Function.update_self] at hi
        exact absurd hi (by decide)
      · dsimp only at hi
        rw [Function.update_of_ne hir] at hi
        exact (h.idle i hi).trans (hcache i).2.symm
    · by_cases hir : i = r.buf
      · subst hir
        dsimp only
        rw [Function.update_self]
        exact iff_of_true rfl ⟨{ r with stage := st }, List.mem_cons_self, rfl, hst⟩
      · dsimp only
        rw [Function.update_of_ne hir, h.busy i]
        constructor
        · rintro ⟨q, hq, rfl, hqst⟩
          exact ⟨q, List.mem_cons_of_mem _ (mem_erase_of_inDriver hq hqst hrst), rfl, hqst⟩
        · rintro ⟨q, hq, rfl, hqst⟩
          rcases List.mem_cons.mp hq with rfl | hq
          · exact absurd rfl hir
          · exact ⟨q, List.mem_of_mem_erase hq, rfl, hqst⟩
    · by_cases htr : t = r.pid
      · exact ⟨{ r with stage := st }, List.mem_cons_self, htr.symm, hst⟩
      · dsimp only at ht
        rw [Function.update_of_ne htr] at ht
        obtain ⟨q, hq, hpid, hqst⟩ := h.called t ht
        exact ⟨q, List.mem_cons_of_mem _ (mem_erase_of_inDriver hq hqst hrst), hpid, hqst⟩
    · rcases List.mem_cons.mp hq with rfl | hq
      · refine .asked (Function.update_self ..) ?_ ?_
        · rw [hself, hb.2]
          exact h.idle r.buf hbusy'
        · rw [hself, hb.1]
          refine h.disk _ fun q hq hqst hno => ?_
          exact (hothers q hq (hqst ▸ rfl)).2 (ho.buf_eq hq hr hno)
      · have hq' := List.mem_of_mem_erase hq
        obtain ⟨hpid, hbuf⟩ := hothers q hq' hqst
        refine (h.calls q hq' hqst).congr (Function.update_of_ne hpid ..) rfl rfl ?_ rfl
        rw [advance_bufOf_of_ne c hbuf]
        exact ⟨rfl, rfl⟩
    · refine h.disk n fun q hq hqst => ?_
      have hbuf := (hothers q hq (hqst ▸ rfl)).2
      rw [← advance_bufOf_of_ne c hbuf]
      exact hn q (List.mem_cons_of_mem _ (mem_erase_of_inDriver hq (hqst ▸ rfl) hrst)) hqst

/-- What the data of a call that returns is. -/
def returnedData (c : CacheState) (r : Ref) : Block :=
  if r.stage = .reading then c.disk (c.bufOf r).blockno else (c.bufOf r).data

/-- The disk of the cache when a call returns. -/
def returnedDisk (c : CacheState) (r : Ref) : Disk :=
  if r.stage = .reading then c.disk
  else Function.update c.disk (c.bufOf r).blockno (c.bufOf r).data

/-- That is how the cache is told. -/
theorem step_complete (hr : r ∈ c.refs) (hrst : r.stage.inDriver = true) :
    c.step (.complete r 0) = some { c.advance r .holding
      { virtioDiskIntr (c.bufOf r) with data := returnedData c r } with
        disk := returnedDisk c r } := by
  have hst := Stage.inDriver_iff.mp hrst
  rw [CacheState.step, if_pos ⟨hr, hst⟩, CacheState.transfer, returnedData, returnedDisk]
  rcases hst with hst | hst <;> rw [hst] <;> rfl

/-- A call that returns has been served. -/
theorem InDriver.served (h : InDriver a c r) (hs : a.step (.ret r.pid) = some a') :
    a.call r.pid = .served r.buf ∧ a.data r.buf = returnedData c r ∧
      (r.stage = .writing → a.disk (c.bufOf r).blockno = (c.bufOf r).data) := by
  cases h with
  | asked hcall =>
    rw [AtomicDisk.step, hcall] at hs
    exact absurd hs (by simp)
  | read hst hcall hdata =>
    refine ⟨hcall, ?_, fun e => absurd (hst.symm.trans e) (by decide)⟩
    rw [returnedData, if_pos hst, hdata]
  | written hst hcall hdata hdisk =>
    refine ⟨hcall, ?_, fun _ => hdisk⟩
    rw [returnedData, if_neg (by rw [hst]; decide), hdata]

/-- Once a call has returned, the other calls are in the list still, and only they. -/
theorem OneDevice.mem_advance (h : OneDevice devOf c) (hr : r ∈ c.refs) (b : Buf)
    (hqst : q.stage.inDriver = true) :
    q ∈ (c.advance r .holding b).refs ↔ q ∈ c.refs ∧ q ≠ r := by
  have hholding : q ≠ { r with stage := .holding } := fun e => by
    rw [e] at hqst
    exact absurd hqst Bool.false_ne_true
  rw [CacheState.advance, List.mem_cons, or_iff_right hholding]
  refine ⟨fun hq => ⟨List.mem_of_mem_erase hq, fun e => ?_⟩,
    fun hq => (List.mem_erase_of_ne hq.2).mpr hq.1⟩
  -- no process holds a lock twice
  subst e
  have hheld := Stage.holdsLock_of_inDriver hqst
  have hcalm := h.locks.calm hr (.inl hheld) q.stage
    (List.mem_map.mpr ⟨q, List.mem_filter.mpr ⟨hq, by simp⟩, rfl⟩)
  rw [hheld] at hcalm
  exact absurd hcalm (by decide)

theorem returnedDisk_of_ne {n : BlockNo} (hn : n ≠ (c.bufOf r).blockno) :
    returnedDisk c r n = c.disk n := by
  rw [returnedDisk]
  split
  · rfl
  · rw [Function.update_of_ne hn]

/-- **The disk when a call returns**: it differs where others write. -/
theorem Over.returned_disk (h : Over a c) (hrst : r.stage.inDriver = true)
    (hdisk : r.stage = .writing → a.disk (c.bufOf r).blockno = (c.bufOf r).data) {n : BlockNo}
    (hwriters : ∀ q ∈ c.refs, q.stage = .writing → q ≠ r → (c.bufOf q).blockno ≠ n) :
    a.disk n = returnedDisk c r n := by
  by_cases hnr : n = (c.bufOf r).blockno ∧ r.stage = .writing
  · obtain ⟨rfl, hst⟩ := hnr
    rw [returnedDisk, if_neg (by rw [hst]; decide), Function.update_self]
    exact hdisk hst
  · have hsame : returnedDisk c r n = c.disk n := by
      rcases Stage.inDriver_iff.mp hrst with hst | hst
      · rw [returnedDisk, if_pos hst]
      · exact returnedDisk_of_ne fun e => hnr ⟨e, hst⟩
    rw [hsame]
    refine h.disk n fun q hq hqst => ?_
    by_cases hqr : q = r
    · subst hqr
      exact fun e => hnr ⟨e.symm, hqst⟩
    · exact hwriters q hq hqst hqr

/-- **The buffers in the driver when a call returns**: those of the other calls. -/
theorem Over.returned_busy (h : Over a c) (ho : OneDevice devOf c) (hr : r ∈ c.refs)
    (hrst : r.stage.inDriver = true) (i : Fin nbuf) :
    Function.update a.busy r.buf false i = true ↔
      ∃ q ∈ c.refs, q ≠ r ∧ q.buf = i ∧ q.stage.inDriver = true := by
  by_cases hir : i = r.buf
  · subst hir
    rw [Function.update_self]
    refine iff_of_false (by decide) ?_
    rintro ⟨q, hq, hqr, hbuf, hqst⟩
    exact (h.apart ho hq hr hqst hrst hqr).2.1 hbuf
  · rw [Function.update_of_ne hir, h.busy i]
    constructor
    · rintro ⟨q, hq, rfl, hqst⟩
      exact ⟨q, hq, fun e => hir (e ▸ rfl), rfl, hqst⟩
    · rintro ⟨q, hq, -, rfl, hqst⟩
      exact ⟨q, hq, rfl, hqst⟩

/-- **A call returns**: the cache sees now what the disk did before. -/
theorem Over.leave (h : Over a c) (ho : OneDevice devOf c) (hr : r ∈ c.refs)
    (hrst : r.stage.inDriver = true) {b : Buf}
    (hb : b.blockno = (c.bufOf r).blockno ∧ b.data = returnedData c r)
    (hs : a.step (.ret r.pid) = some a') :
    a.data r.buf = returnedData c r ∧
      Over a' { c.advance r .holding b with disk := returnedDisk c r } := by
  obtain ⟨hcall, hdata, hdisk⟩ := (h.calls r hr hrst).served hs
  rw [AtomicDisk.step, hcall] at hs
  obtain rfl := Option.some.inj hs
  refine ⟨hdata, ?_⟩
  set c' : CacheState := { c.advance r .holding b with disk := returnedDisk c r }
  have hself : c'.cache.bufs r.buf = b := Bcache.set_bufs_self _ _ _
  have hne : ∀ i, i ≠ r.buf → c'.cache.bufs i = c.cache.bufs i := fun i hi =>
    Bcache.set_bufs_of_ne _ hi b
  have hrefs : ∀ q, q.stage.inDriver = true → (q ∈ c'.refs ↔ q ∈ c.refs ∧ q ≠ r) := fun q hqst =>
    ho.mem_advance hr b hqst
  constructor
  case blockno =>
    intro i
    by_cases hi : i = r.buf
    · subst hi
      rw [hself, hb.1]
      exact h.blockno r.buf
    · rw [hne i hi]
      exact h.blockno i
  case idle =>
    intro i hi
    by_cases hir : i = r.buf
    · subst hir
      rw [hself, hb.2]
      exact hdata
    · dsimp only at hi
      rw [Function.update_of_ne hir] at hi
      rw [hne i hir]
      exact h.idle i hi
  case busy =>
    intro i
    refine (h.returned_busy ho hr hrst i).trans (exists_congr fun q => ?_)
    rw [← and_assoc]
    exact and_congr_left fun hq => (hrefs q hq.2).symm
  case called =>
    intro t ht
    dsimp only at ht
    by_cases htr : t = r.pid
    · rw [htr, Function.update_self] at ht
      exact absurd rfl ht
    · rw [Function.update_of_ne htr] at ht
      obtain ⟨q, hq, rfl, hqst⟩ := h.called t ht
      exact ⟨q, (hrefs q hqst).mpr ⟨hq, fun e => htr (e ▸ rfl)⟩, rfl, hqst⟩
  case calls =>
    intro q hq hqst
    obtain ⟨hq, hqr⟩ := (hrefs q hqst).mp hq
    obtain ⟨hpid, hbuf, hno⟩ := h.apart ho hq hr hqst hrst hqr
    refine (h.calls q hq hqst).congr (Function.update_of_ne hpid ..) rfl rfl ?_
      (returnedDisk_of_ne hno)
    rw [CacheState.bufOf, hne q.buf hbuf]
    exact ⟨rfl, rfl⟩
  case disk =>
    refine fun n hn => h.returned_disk hrst hdisk fun q hq hqst hqr => ?_
    have hin : q.stage.inDriver = true := hqst ▸ rfl
    have hq' := hn q ((hrefs q hin).mpr ⟨hq, hqr⟩) hqst
    rwa [CacheState.bufOf, hne q.buf (h.apart ho hq hr hin hrst hqr).2.1] at hq'

/-! ## 3. What a cache section does not look at -/

/-- The same, but for the data and `B_VALID`. -/
structure Buf.Alike (b d : Buf) : Prop where
  dev : b.dev = d.dev
  blockno : b.blockno = d.blockno
  lock : b.lock = d.lock
  refcnt : b.refcnt = d.refcnt
  flags : b.flags ||| bValid = d.flags ||| bValid

theorem Buf.Alike.refl (b : Buf) : b.Alike b := ⟨rfl, rfl, rfl, rfl, rfl⟩

theorem Buf.Alike.trans {b d e : Buf} (h : b.Alike d) (h' : d.Alike e) : b.Alike e :=
  ⟨h.dev.trans h'.dev, h.blockno.trans h'.blockno, h.lock.trans h'.lock,
    h.refcnt.trans h'.refcnt, h.flags.trans h'.flags⟩

theorem Buf.Alike.symm {b d : Buf} (h : b.Alike d) : d.Alike b :=
  ⟨h.dev.symm, h.blockno.symm, h.lock.symm, h.refcnt.symm, h.flags.symm⟩

theorem virtioDiskRw_alike (b : Buf) : (virtioDiskRw b).Alike b := by
  refine ⟨rfl, rfl, rfl, rfl, ?_⟩
  ext i
  simp only [virtioDiskRw, BitVec.getElem_or, BitVec.getElem_and, BitVec.getElem_not]
  cases b.flags[i] <;> cases bValid[i] <;> rfl

theorem virtioDiskIntr_alike (b : Buf) : (virtioDiskIntr b).Alike b := by
  refine ⟨rfl, rfl, rfl, rfl, ?_⟩
  rw [virtioDiskIntr, BitVec.or_assoc, BitVec.or_self]

theorem Buf.flags_or_bValid {d : Buf} (hvalid : d.valid = true) :
    d.flags ||| bValid = d.flags := by
  have hbit : d.flags.getLsbD 1 = true := by
    have hne : d.flags &&& bValid ≠ 0 := by simpa [Buf.valid] using hvalid
    rw [show bValid = BitVec.twoPow 32 1 from rfl, BitVec.and_twoPow] at hne
    by_contra hbit
    rw [if_neg hbit] at hne
    exact hne rfl
  ext i hi
  rw [BitVec.getElem_or, show bValid = BitVec.twoPow 32 1 from rfl, BitVec.getElem_twoPow]
  by_cases hone : i = 1
  · subst hone
    rw [← BitVec.getLsbD_eq_getElem, hbit, Bool.true_or]
  · simp [hone]

/-- Alike, valid and with the same data is the same. -/
theorem Buf.Alike.intr_eq {b d : Buf} (h : b.Alike d) {data : Block} (hvalid : d.valid = true)
    (hdata : d.data = data) : { virtioDiskIntr b with data := data } = d := by
  have hflags := Buf.flags_or_bValid hvalid
  obtain ⟨hdev, hblockno, hlock, hrefcnt, hf⟩ := h
  cases b
  cases d
  simp only at hdev hblockno hlock hrefcnt hf hflags hdata
  subst hdata
  simp only [virtioDiskIntr, hdev, hblockno, hlock, hrefcnt, hf, hflags]

/-! The ways through `buf_get`. -/

section BufGet

variable {k : Bcache} {dev : BitVec 32} {blockno : BlockNo} {i : Fin nbuf}

theorem bufGet_hit (hn : k.searchNext (k.hasKey dev blockno) = some (some i)) :
    bufGet k dev blockno =
      some (k.set i { k.bufs i with refcnt := (k.bufs i).refcnt + 1 }, some i) := by
  rw [bufGet, hn]
  rfl

theorem bufGet_recycled (hn : k.searchNext (k.hasKey dev blockno) = some none)
    (hp : k.searchPrev k.recyclable = some (some i)) :
    bufGet k dev blockno = some (k.set i
      { k.bufs i with dev := dev, blockno := blockno, flags := 0, refcnt := 1 }, some i) := by
  rw [bufGet, hn, Option.bind_eq_bind, Option.bind_some]
  dsimp only
  rw [hp]
  rfl

theorem bufGet_null (hn : k.searchNext (k.hasKey dev blockno) = some none)
    (hp : k.searchPrev k.recyclable = some none) : bufGet k dev blockno = some (k, none) := by
  rw [bufGet, hn, Option.bind_eq_bind, Option.bind_some]
  dsimp only
  rw [hp]
  rfl

end BufGet

/-- How `buf_get` ends, whatever the keys are. -/
theorem bufGet_end {c c' : Bcache} {dev : BitVec 32} {blockno : BlockNo} {o : Option (Fin nbuf)}
    (h : c.AllLinked) (hs : bufGet c dev blockno = some (c', o)) : GetEnd c dev blockno c' o := by
  obtain ⟨xs, hxs, hall⟩ := h
  simp only [bufGet, searchNext_eq hxs hxs.length_le, searchPrev_eq hxs hxs.length_le,
    Option.bind_eq_bind, Option.bind_some] at hs
  cases hhit : xs.find? (fun i => c.hasKey dev blockno (some i)) with
  | some i =>
    simp only [hhit, Option.some.injEq, Prod.mk.injEq] at hs
    obtain ⟨rfl, rfl⟩ := hs
    have hi := List.find?_some hhit
    obtain ⟨hdev, hblockno⟩ := (Bcache.hasKey_some _ _ _ _).mp hi
    exact .hit i hdev hblockno
  | none =>
    have hmiss : ∀ j, ¬ ((c.bufs j).dev = dev ∧ (c.bufs j).blockno = blockno) := fun j => by
      rw [← Bcache.hasKey_some]
      exact List.find?_eq_none.mp hhit j (hall j)
    cases hfree : xs.reverse.find? (fun i => c.recyclable (some i)) with
    | some i =>
      simp only [hhit, hfree, Option.some.injEq, Prod.mk.injEq] at hs
      obtain ⟨rfl, rfl⟩ := hs
      have hi := List.find?_some hfree
      obtain ⟨hzero, hclean⟩ := (Bcache.recyclable_some c i).mp hi
      exact .recycled i hzero hclean hmiss
    | none =>
      simp only [hhit, hfree, Option.some.injEq, Prod.mk.injEq] at hs
      obtain ⟨rfl, rfl⟩ := hs
      exact .null

/-- Neither a section that looks for the data, nor one that starts a request or ends it. -/
def CacheOp.outside : CacheOp → Bool
  | .blockRead _ | .blockWrite _ | .complete .. => false
  | .bufGet .. | .lock _ | .modify .. | .unlock _ | .drop _ | .bufPin _ | .bufUnpin _ => true

namespace CacheState

/-- The same cache, but for what the driver does to the buffers that are in it. -/
structure Alike (busy : Fin nbuf → Bool) (c d : CacheState) : Prop where
  links : c.cache.links = d.cache.links
  refs : c.refs = d.refs
  pins : c.pins = d.pins
  same : ∀ i, busy i = false → c.cache.bufs i = d.cache.bufs i
  alike : ∀ i, (c.cache.bufs i).Alike (d.cache.bufs i)

variable {busy : Fin nbuf → Bool} {d d' : CacheState} {o : CacheOp}

theorem Alike.set (h : Alike busy c d) {i : Fin nbuf} {b b' : Buf}
    (hlinks : c'.cache.links = d'.cache.links) (hrefs : c'.refs = d'.refs)
    (hpins : c'.pins = d'.pins)
    (hc : c'.cache.bufs = Function.update c.cache.bufs i b)
    (hd : d'.cache.bufs = Function.update d.cache.bufs i b') (hb : b.Alike b')
    (hsame : busy i = false → b = b') : Alike busy c' d' := by
  refine ⟨hlinks, hrefs, hpins, fun j hj => ?_, fun j => ?_⟩
  · rw [hc, hd]
    by_cases hji : j = i
    · subst hji
      rw [Function.update_self, Function.update_self, hsame hj]
    · rw [Function.update_of_ne hji, Function.update_of_ne hji, h.same j hj]
  · rw [hc, hd]
    by_cases hji : j = i
    · subst hji
      rw [Function.update_self, Function.update_self]
      exact hb
    · rw [Function.update_of_ne hji, Function.update_of_ne hji]
      exact h.alike j

theorem Alike.advance (h : Alike busy c d) (r : Ref) (st : Stage) {b b' : Buf} (hb : b.Alike b')
    (hsame : busy r.buf = false → b = b') : Alike busy (c.advance r st b) (d.advance r st b') :=
  h.set h.links (by rw [CacheState.advance, CacheState.advance, h.refs]) h.pins rfl rfl hb hsame

/-- The two loops of `buf_get` find the same buffers. -/
theorem Alike.searches (h : Alike busy c d)
    (hcounted : ∀ i, busy i = true → (c.cache.bufs i).refcnt ≠ 0) (dev : BitVec 32)
    (blockno : BlockNo) :
    c.cache.searchNext (c.cache.hasKey dev blockno) =
        d.cache.searchNext (d.cache.hasKey dev blockno) ∧
      c.cache.searchPrev c.cache.recyclable = d.cache.searchPrev d.cache.recyclable := by
  have hkey : c.cache.hasKey dev blockno = d.cache.hasKey dev blockno := by
    funext n
    cases n with
    | none => rfl
    | some i => rw [Bcache.hasKey, Bcache.hasKey, (h.alike i).dev, (h.alike i).blockno]
  have hrec : c.cache.recyclable = d.cache.recyclable := by
    funext n
    cases n with
    | none => rfl
    | some i =>
      cases hb : busy i with
      | true =>
        have hne : ((c.cache.bufs i).refcnt == 0) = false := by simpa using hcounted i hb
        rw [Bcache.recyclable, Bcache.recyclable, ← (h.alike i).refcnt, hne]
        rfl
      | false => rw [Bcache.recyclable, Bcache.recyclable, h.same i hb]
  constructor
  · rw [Bcache.searchNext, Bcache.searchNext, h.links, hkey]
  · rw [Bcache.searchPrev, Bcache.searchPrev, h.links, hrec]

/-- **`buf_get`** looks at neither. -/
theorem Alike.bufGet (h : Alike busy c d)
    (hcounted : ∀ i, busy i = true → (c.cache.bufs i).refcnt ≠ 0) {dev : BitVec 32}
    {blockno : BlockNo} {d₁ : Bcache} {x : Option (Fin nbuf)}
    (hget : Lithium.bufGet d.cache dev blockno = some (d₁, x)) :
    ∃ c₁, Lithium.bufGet c.cache dev blockno = some (c₁, x) ∧ ∀ refs refs', refs = refs' →
      Alike busy { c with cache := c₁, refs := refs } { d with cache := d₁, refs := refs' } := by
  obtain ⟨hnext, hprev⟩ := h.searches hcounted dev blockno
  cases hn : d.cache.searchNext (d.cache.hasKey dev blockno) with
  | none => simp [Lithium.bufGet, hn] at hget
  | some y =>
    cases y with
    | some i =>
      rw [bufGet_hit hn, Option.some.injEq, Prod.mk.injEq] at hget
      obtain ⟨rfl, rfl⟩ := hget
      have ha := h.alike i
      refine ⟨_, bufGet_hit (hnext.trans hn), fun refs refs' e => ?_⟩
      exact h.set h.links e h.pins rfl rfl
        ⟨ha.dev, ha.blockno, ha.lock, congrArg (· + 1) ha.refcnt, ha.flags⟩
        fun hb => by rw [h.same i hb]
    | none =>
      cases hp : d.cache.searchPrev d.cache.recyclable with
      | none => simp [Lithium.bufGet, hn, hp] at hget
      | some y =>
        cases y with
        | some i =>
          rw [bufGet_recycled hn hp, Option.some.injEq, Prod.mk.injEq] at hget
          obtain ⟨rfl, rfl⟩ := hget
          refine ⟨_, bufGet_recycled (hnext.trans hn) (hprev.trans hp), fun refs refs' e => ?_⟩
          exact h.set h.links e h.pins rfl rfl ⟨rfl, rfl, (h.alike i).lock, rfl, rfl⟩
            fun hb => by rw [h.same i hb]
        | none =>
          rw [bufGet_null hn hp, Option.some.injEq, Prod.mk.injEq] at hget
          obtain ⟨rfl, rfl⟩ := hget
          exact ⟨_, bufGet_null (hnext.trans hn) (hprev.trans hp), fun refs refs' e =>
            ⟨h.links, e, h.pins, h.same, h.alike⟩⟩

/-- **The end of `buf_release`** looks at neither. -/
theorem Alike.dropped (h : Alike busy c d) (r : Ref) :
    Alike busy { c with cache := bufDrop c.cache r.buf, refs := c.refs.erase r }
      { d with cache := bufDrop d.cache r.buf, refs := d.refs.erase r } := by
  have ha := h.alike r.buf
  refine h.set ?_ (by rw [h.refs]) h.pins (funext (bufDrop_bufs _ _)) (funext (bufDrop_bufs _ _))
    ⟨ha.dev, ha.blockno, ha.lock, congrArg (· - 1) ha.refcnt, ha.flags⟩
    fun hb => by rw [h.same r.buf hb]
  rw [bufDrop, bufDrop]
  dsimp only
  rw [Bcache.set_bufs_self, Bcache.set_bufs_self]
  dsimp only
  rw [ha.refcnt]
  split
  · rw [Bcache.set_links, Bcache.set_links, h.links]
  · exact h.links

/-- **A section that leaves the driver alone** does the same to both. -/
theorem Alike.step (h : Alike busy c d)
    (hcounted : ∀ i, busy i = true → (c.cache.bufs i).refcnt ≠ 0)
    (hheld : ∀ r ∈ c.refs, r.stage = .holding → busy r.buf = false) (ho : o.outside = true)
    (hs : d.step o = some d') :
    ∃ c', c.step o = some c' ∧ c.event? o = d.event? o ∧ Alike busy c' d' := by
  cases o with
  | blockRead | blockWrite | complete => exact absurd ho Bool.false_ne_true
  | bufGet pid dev blockno =>
    obtain ⟨⟨d₁, x⟩, hget, rfl⟩ := Option.map_eq_some_iff.mp hs
    obtain ⟨c₁, hget', halike⟩ := h.bufGet hcounted hget
    cases x with
    | some i =>
      refine ⟨_, by rw [CacheState.step, hget']; rfl, by rw [event?, event?, hget, hget'],
        halike _ _ (congrArg _ h.refs)⟩
    | none =>
      exact ⟨_, by rw [CacheState.step, hget']; rfl, by rw [event?, event?, hget, hget'],
        halike _ _ h.refs⟩
  | lock r =>
    simp only [CacheState.step, Option.ite_none_right_eq_some, Option.map_eq_some_iff] at hs
    obtain ⟨⟨hr, hst⟩, lk, hlk, rfl⟩ := hs
    have ha := h.alike r.buf
    refine ⟨c.advance r .locked { c.bufOf r with lock := lk }, ?_, rfl,
      h.advance r .locked ⟨ha.dev, ha.blockno, rfl, ha.refcnt, ha.flags⟩ fun hb => ?_⟩
    · rw [CacheState.step, if_pos ⟨h.refs ▸ hr, hst⟩, bufOf, ha.lock, hlk]
      rfl
    · rw [bufOf, bufOf, h.same r.buf hb]
  | modify r data =>
    simp only [CacheState.step, Option.ite_none_right_eq_some, Option.some.injEq] at hs
    obtain ⟨⟨hr, hst⟩, rfl⟩ := hs
    have hr' : r ∈ c.refs := h.refs ▸ hr
    have hsame : c.bufOf r = d.bufOf r := h.same r.buf (hheld r hr' hst)
    refine ⟨_, by rw [CacheState.step, if_pos ⟨hr', hst⟩], by rw [event?, event?, hsame],
      h.advance r .holding ?_ fun _ => by rw [hsame]⟩
    rw [hsame]
    exact .refl _
  | unlock r =>
    simp only [CacheState.step, Option.ite_none_right_eq_some] at hs
    obtain ⟨⟨hr, hst⟩, hs⟩ := hs
    have hr' : r ∈ c.refs := h.refs ▸ hr
    have hsame : c.bufOf r = d.bufOf r := h.same r.buf (hheld r hr' hst)
    have hevent : c.event? (.unlock r) = d.event? (.unlock r) := by rw [event?, event?, hsame]
    rw [← hsame] at hs
    split at hs
    case isTrue hlk =>
      obtain rfl := Option.some.inj hs
      exact ⟨_, by rw [CacheState.step, if_pos ⟨hr', hst⟩, if_pos hlk], hevent,
        h.advance r .unlocked (.refl _) fun _ => rfl⟩
    case isFalse hlk =>
      obtain rfl := Option.some.inj hs
      exact ⟨_, by rw [CacheState.step, if_pos ⟨hr', hst⟩, if_neg hlk], hevent, h⟩
  | drop r =>
    simp only [CacheState.step, Option.ite_none_right_eq_some, Option.some.injEq] at hs
    obtain ⟨⟨hr, hst⟩, rfl⟩ := hs
    exact ⟨_, by rw [CacheState.step, if_pos ⟨h.refs ▸ hr, hst⟩], rfl, h.dropped r⟩
  | bufPin r =>
    simp only [CacheState.step, Option.ite_none_right_eq_some, Option.some.injEq] at hs
    obtain ⟨⟨hr, hst⟩, rfl⟩ := hs
    have ha := h.alike r.buf
    refine ⟨_, (by rw [CacheState.step, if_pos ⟨h.refs ▸ hr, hst⟩]),
      by rw [event?, event?, bufOf, bufOf, ha.blockno], ?_⟩
    exact h.set h.links h.refs (by dsimp only; rw [h.pins]) rfl rfl
        ⟨ha.dev, ha.blockno, ha.lock, congrArg (· + 1) ha.refcnt, ha.flags⟩
        fun hb => by rw [h.same r.buf hb]
  | bufUnpin i =>
    simp only [CacheState.step, Option.ite_none_right_eq_some, Option.some.injEq] at hs
    obtain ⟨hi, rfl⟩ := hs
    have ha := h.alike i
    refine ⟨_, (by rw [CacheState.step, if_pos (h.pins ▸ hi)]),
      by rw [event?, event?, ha.blockno], ?_⟩
    exact h.set h.links h.refs (by dsimp only; rw [h.pins]) rfl rfl
        ⟨ha.dev, ha.blockno, ha.lock, congrArg (· - 1) ha.refcnt, ha.flags⟩
        fun hb => by rw [h.same i hb]

/-- What a section that leaves the driver alone leaves alone. -/
structure Outside (busy : Fin nbuf → Bool) (c c' : CacheState) : Prop where
  disk : c'.disk = c.disk
  refs : ∀ q, q.stage.inDriver = true → (q ∈ c'.refs ↔ q ∈ c.refs)
  blockno : ∀ i, busy i = true → (c'.cache.bufs i).blockno = (c.cache.bufs i).blockno
  data : ∀ i, busy i = true → (c'.cache.bufs i).data = (c.cache.bufs i).data
  flags : ∀ i, busy i = true → (c'.cache.bufs i).flags = (c.cache.bufs i).flags

theorem Outside.refl (busy : Fin nbuf → Bool) (c : CacheState) : Outside busy c c :=
  ⟨rfl, fun _ _ => Iff.rfl, fun _ _ => rfl, fun _ _ => rfl, fun _ _ => rfl⟩

theorem Outside.of_update {i : Fin nbuf} {b : Buf} (hdisk : c'.disk = c.disk)
    (hrefs : ∀ q, q.stage.inDriver = true → (q ∈ c'.refs ↔ q ∈ c.refs))
    (hc : c'.cache.bufs = Function.update c.cache.bufs i b)
    (hb : busy i = true → b.blockno = (c.cache.bufs i).blockno ∧ b.data = (c.cache.bufs i).data ∧
      b.flags = (c.cache.bufs i).flags) : Outside busy c c' := by
  have hall : ∀ j, busy j = true → (c'.cache.bufs j).blockno = (c.cache.bufs j).blockno ∧
      (c'.cache.bufs j).data = (c.cache.bufs j).data ∧
      (c'.cache.bufs j).flags = (c.cache.bufs j).flags := fun j hj => by
    rw [hc]
    by_cases hji : j = i
    · subst hji
      rw [Function.update_self]
      exact hb hj
    · rw [Function.update_of_ne hji]
      exact ⟨rfl, rfl, rfl⟩
  exact ⟨hdisk, hrefs, fun j hj => (hall j hj).1, fun j hj => (hall j hj).2.1,
    fun j hj => (hall j hj).2.2⟩

theorem Outside.erase (hrst : r.stage.inDriver = false)
    (hqst : q.stage.inDriver = true) : q ∈ c.refs.erase r ↔ q ∈ c.refs :=
  ⟨List.mem_of_mem_erase, fun hq => mem_erase_of_inDriver hq hqst hrst⟩

theorem Outside.advance (hrst : r.stage.inDriver = false) {st : Stage}
    (hst : st.inDriver = false) {b : Buf}
    (hb : busy r.buf = true → b.blockno = (c.bufOf r).blockno ∧ b.data = (c.bufOf r).data ∧
      b.flags = (c.bufOf r).flags) : Outside busy c (c.advance r st b) := by
  refine .of_update rfl (fun q hq => ?_) rfl hb
  rw [CacheState.advance, List.mem_cons, or_iff_right, Outside.erase hrst hq]
  rintro rfl
  exact absurd (hq.symm.trans hst) (by decide)

theorem outside_of_step (hlinked : c.cache.AllLinked)
    (hcounted : ∀ i, busy i = true → (c.cache.bufs i).refcnt ≠ 0)
    (hheld : ∀ r ∈ c.refs, r.stage = .holding → busy r.buf = false) (ho : o.outside = true)
    (hs : c.step o = some c') : Outside busy c c' := by
  have hfree : ∀ {r}, r ∈ c.refs → r.stage = .holding → ∀ {p : Prop}, busy r.buf = true → p :=
    fun hr hst _ hb => absurd hb (by rw [hheld _ hr hst]; decide)
  cases o with
  | blockRead | blockWrite | complete => exact absurd ho Bool.false_ne_true
  | bufGet pid dev blockno =>
    obtain ⟨⟨c₁, x⟩, hget, rfl⟩ := Option.map_eq_some_iff.mp hs
    have hwaits : ∀ (i : Fin nbuf) q, q.stage.inDriver = true →
        (q ∈ (⟨pid, i, .waiting⟩ : Ref) :: c.refs ↔ q ∈ c.refs) := fun i q hq => by
      rw [List.mem_cons, or_iff_right]
      rintro rfl
      exact absurd hq Bool.false_ne_true
    cases bufGet_end hlinked hget with
    | hit i => exact .of_update rfl (hwaits i) rfl fun _ => ⟨rfl, rfl, rfl⟩
    | recycled i hfree =>
      exact .of_update rfl (hwaits i) rfl fun hb => absurd hfree (hcounted i hb)
    | null => exact .refl busy c
  | lock r =>
    simp only [CacheState.step, Option.ite_none_right_eq_some, Option.map_eq_some_iff] at hs
    obtain ⟨⟨-, hst⟩, lk, -, rfl⟩ := hs
    exact .advance (hst ▸ rfl) rfl fun _ => ⟨rfl, rfl, rfl⟩
  | modify r data =>
    simp only [CacheState.step, Option.ite_none_right_eq_some, Option.some.injEq] at hs
    obtain ⟨⟨hr, hst⟩, rfl⟩ := hs
    exact .advance (hst ▸ rfl) rfl (hfree hr hst)
  | unlock r =>
    simp only [CacheState.step, Option.ite_none_right_eq_some] at hs
    obtain ⟨⟨hr, hst⟩, hs⟩ := hs
    split at hs
    · obtain rfl := Option.some.inj hs
      exact .advance (hst ▸ rfl) rfl (hfree hr hst)
    · obtain rfl := Option.some.inj hs
      exact .refl busy c
  | drop r =>
    simp only [CacheState.step, Option.ite_none_right_eq_some, Option.some.injEq] at hs
    obtain ⟨⟨-, hst⟩, rfl⟩ := hs
    exact .of_update rfl (fun q hq => Outside.erase (hst ▸ rfl) hq) (funext (bufDrop_bufs _ _))
      fun _ => ⟨rfl, rfl, rfl⟩
  | bufPin r =>
    simp only [CacheState.step, Option.ite_none_right_eq_some, Option.some.injEq] at hs
    obtain ⟨-, rfl⟩ := hs
    exact .of_update rfl (fun _ _ => Iff.rfl) rfl fun _ => ⟨rfl, rfl, rfl⟩
  | bufUnpin i =>
    simp only [CacheState.step, Option.ite_none_right_eq_some, Option.some.injEq] at hs
    obtain ⟨-, rfl⟩ := hs
    exact .of_update rfl (fun _ _ => Iff.rfl) rfl fun _ => ⟨rfl, rfl, rfl⟩

end CacheState

/-- The disk does not see such a section. -/
theorem Over.outside (h : Over a c) (hout : CacheState.Outside a.busy c c')
    (hdisk : a'.disk = a.disk) (hbusy : a'.busy = a.busy) (hcall : a'.call = a.call)
    (hblockno : ∀ i, a'.blockno i = (c'.cache.bufs i).blockno)
    (hidle : ∀ i, a.busy i = false → a'.data i = (c'.cache.bufs i).data)
    (hdata : ∀ i, a.busy i = true → a'.data i = a.data i) : Over a' c' := by
  refine ⟨hblockno, fun i hi => hidle i (hbusy ▸ hi), fun i => ?_, fun t ht => ?_,
    fun q hq hqst => ?_, fun n hn => ?_⟩
  · rw [hbusy, h.busy]
    constructor
    · rintro ⟨q, hq, hbuf, hqst⟩
      exact ⟨q, (hout.refs q hqst).mpr hq, hbuf, hqst⟩
    · rintro ⟨q, hq, hbuf, hqst⟩
      exact ⟨q, (hout.refs q hqst).mp hq, hbuf, hqst⟩
  · obtain ⟨q, hq, hpid, hqst⟩ := h.called t (hcall ▸ ht)
    exact ⟨q, (hout.refs q hqst).mpr hq, hpid, hqst⟩
  · have hq' := (hout.refs q hqst).mp hq
    have hb := (h.busy q.buf).mpr ⟨q, hq', rfl, hqst⟩
    exact (h.calls q hq' hqst).congr (congrFun hcall _) (hdata _ hb) (congrFun hdisk _)
      ⟨hout.blockno _ hb, hout.data _ hb⟩ (congrFun hout.disk _)
  · rw [hdisk, hout.disk]
    refine h.disk n fun q hq hqst => ?_
    have hin : q.stage.inDriver = true := hqst ▸ rfl
    have hb := (h.busy q.buf).mpr ⟨q, hq, rfl, hin⟩
    rw [CacheState.bufOf, ← hout.blockno _ hb]
    exact hn q ((hout.refs q hin).mpr hq) hqst

end Lithium
