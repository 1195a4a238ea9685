/-
# From `block_read` to the sectors

The buffer cache on top of the VirtIO driver on top of the device, as one machine: the processes
run the sections of `buffer.c` and `block.c`, those that need the disk go through
`virtio_disk_rw`, the device reads and moves requests on its own, and interrupts come at any time.
`struct buf` is shared: the cache looks for a key and counts references in a buffer while the
device fills it and the interrupt handler marks it.

Three modules have taken this apart: `CacheLayer.lean` shows that the cache is the block layer of
the log, over a disk that answers when a call returns; `VirtioServe.lean` that the driver and the
device are a disk that serves each call at one instant; and `CacheOverDisk.lean` that the cache
cannot tell these disks apart.  Here they are put together, so that the whole stack is the block
layer of the log.
-/
import Lithium.Fs.CacheOverDisk

namespace Lithium

open VirtioDisk Wal

/-! ## 1. The stack -/

/-- The driver with the buffers, the device and the sectors; the list of the cache, the references
held and the pins not yet taken back. -/
structure StackState where
  io : ServedState Pid (Fin nbuf)
  links : Ring.Links Node
  refs : List Ref
  pins : Fin nbuf → Nat

inductive StackOp where
  /-- A section of `block.c`.  One that calls `virtio_disk_rw` ends there, with `idx` on the stack,
  and is `complete` when `virtio_disk_rw` returns. -/
  | call (o : CacheOp) (idx : Fin 3 → Int)
  /-- A section of the driver in which nobody returns, the device, or an interrupt. -/
  | io (o : ServedOp Pid (Fin nbuf))

namespace StackState

/-- `&bcache.bufs[i]`. -/
abbrev buf (s : StackState) (i : Fin nbuf) : Buf := s.io.driver.disk.bufs i

/-- The cache, as the sections that do not call the driver see it. -/
def view (s : StackState) : CacheState where
  cache := ⟨s.io.driver.disk.bufs, s.links⟩
  disk := fun n => s.io.sectors (sectorOf n)
  refs := s.refs
  pins := s.pins

/-- What such a section leaves. -/
def put (s : StackState) (t : CacheState) : StackState where
  io :=
    { s.io with driver :=
      { s.io.driver with disk := { s.io.driver.disk with bufs := t.cache.bufs } } }
  links := t.cache.links
  refs := t.refs
  pins := t.pins

/-- The call of `virtio_disk_rw`. -/
def rw (s : StackState) (r : Ref) (write : Bool) (idx : Fin 3 → Int) : Option StackState :=
  (s.io.step (.driver (.rw r.pid r.buf write idx))).map fun io => { s with io := io }

/-- One section, or one step of the device. -/
def step (s : StackState) : StackOp → Option StackState
  | .call (.blockRead r) idx =>
    if r ∈ s.refs ∧ r.stage = .locked then
      if (s.buf r.buf).valid then some (s.put (s.view.advance r .holding (s.buf r.buf)))
      else (s.put (s.view.advance r .reading (s.buf r.buf))).rw r false idx
    else none
  | .call (.blockWrite r) idx =>
    if r ∈ s.refs ∧ r.stage = .holding then
      if sleeplockHeld (s.buf r.buf).lock (some r.pid) then
        (s.put (s.view.advance r .writing
          { s.buf r.buf with flags := (s.buf r.buf).flags ||| bDirty })).rw r true idx
      else some s
    else none
  | .call (.complete r _) _ =>
    if r ∈ s.refs ∧ r.stage.inDriver = true ∧
        (s.io.event? (.driver (.resume r.pid))).isSome = true then
      (s.io.step (.driver (.resume r.pid))).map fun io =>
        { s with io := io, refs := { r with stage := .holding } :: s.refs.erase r }
    else none
  | .call o _ => (s.view.step o).map s.put
  | .io o =>
    if (s.io.event? o).isSome then none else (s.io.step o).map fun io => { s with io := io }

/-- What the callers see. -/
def event? (s : StackState) : StackOp → Option BlockEvent
  | .call (.complete r _) _ =>
    if r.stage = .reading then some (.read r.pid (s.buf r.buf).blockno (s.buf r.buf).data)
    else some (.written r.pid (s.buf r.buf).blockno (s.buf r.buf).data)
  | .call o _ => s.view.event? o
  | .io _ => none

/-- After `buf_cache_init` and `virtio_disk_init`, over any sectors. -/
def init (sectors : BitVec 64 → Block) : StackState where
  io := .init bufCacheInit.bufs sectors
  links := bufCacheInit.links
  refs := []
  pins := fun _ => 0

end StackState

/-- Each block is asked for under the device number it is used with. -/
def StackOp.Regular (devOf : BlockNo → BitVec 32) : StackOp → Prop
  | .call (.bufGet _ dev blockno) _ => dev = devOf blockno
  | _ => True

instance (devOf : BlockNo → BitVec 32) : ∀ o, Decidable (StackOp.Regular devOf o)
  | .call (.bufGet _ dev blockno) _ => inferInstanceAs (Decidable (dev = devOf blockno))
  | .call (.lock _) _ | .call (.blockRead _) _ | .call (.modify ..) _ | .call (.blockWrite _) _
  | .call (.complete ..) _ | .call (.unlock _) _ | .call (.drop _) _ | .call (.bufPin _) _
  | .call (.bufUnpin _) _ | .io _ => isTrue trivial

/-! ## 2. What the driver and the device do to the buffers -/

namespace VirtioDisk

variable {B : Type*} [DecidableEq B]

/-- An interrupt marks buffers of requests. -/
theorem intrLoop_bufs : ∀ (n : Nat) (d : VirtioDisk B) (b : B),
    (d.intrLoop n).1.bufs b = d.bufs b ∨
      (∃ m, (d.info m).b = some b) ∧ ((d.intrLoop n).1.bufs b).Alike (d.bufs b)
  | 0, _, _ => .inl rfl
  | n + 1, d, b => by
    rw [intrLoop]
    split
    case isTrue => exact .inl rfl
    case isFalse =>
      have hpass : d.intrPass.1.info = d.info ∧ (d.intrPass.1.bufs b = d.bufs b ∨
          (∃ m, (d.info m).b = some b) ∧ (d.intrPass.1.bufs b).Alike (d.bufs b)) := by
        unfold intrPass
        dsimp only
        split
        case h_1 b' hb' =>
          refine ⟨rfl, ?_⟩
          by_cases hbb : b = b'
          · subst hbb
            refine .inr ⟨⟨_, hb'⟩, ?_⟩
            dsimp only
            rw [Function.update_self]
            exact virtioDiskIntr_alike _
          · exact .inl (Function.update_of_ne hbb ..)
        case h_2 => exact ⟨rfl, .inl rfl⟩
      obtain ⟨hinfo, hone⟩ := hpass
      have hrest := intrLoop_bufs n d.intrPass.1 b
      rw [hinfo] at hrest
      rcases hone with hone | ⟨hmark, hone⟩ <;> rcases hrest with hrest | ⟨hmark', hrest⟩
      · exact .inl (hrest.trans hone)
      · exact .inr ⟨hmark', hone ▸ hrest⟩
      · exact .inr ⟨hmark, hrest ▸ hone⟩
      · exact .inr ⟨hmark, hrest.trans hone⟩

end VirtioDisk

namespace DiskState

variable {T B : Type*} [DecidableEq T] [DecidableEq B] {s s' : DiskState T B}

/-- **A step of the driver** changes nothing but the flag of buffers that are in it. -/
theorem step_bufs (ho : Owners s) {o : DiskOp T B} (hs : s.step o = some s') (b : B) :
    s'.disk.bufs b = s.disk.bufs b ∨
      s.busy b = true ∧ (s'.disk.bufs b).Alike (s.disk.bufs b) := by
  cases step_to hs with
  | entered | asleep | woken | consumed | left | completed => exact .inl rfl
  | interrupted =>
    rcases intrLoop_bufs _ s.disk b with he | ⟨⟨m, hm⟩, halike⟩
    · exact .inl he
    · obtain ⟨t, w, j, ht, rfl, -⟩ := ho.marked m b hm
      exact .inr ⟨ho.busy t w.buf (DiskPhase.buf?_of_wait? ht), halike⟩
  | @allocated t b' write idx ht =>
    have hbufs := (tryAlloc_sameRings s.disk b' idx).bufs
    cases hok : (s.disk.tryAlloc b' idx).ok with
    | true =>
      rw [allocate_of_ok hok]
      by_cases hb : b = b'
      · subst hb
        refine .inr ⟨ho.busy t b (by rw [ht]; rfl), ?_⟩
        rw [submit]
        dsimp only
        rw [Function.update_self, hbufs]
        exact virtioDiskRw_alike _
      · refine .inl ?_
        rw [submit]
        dsimp only
        rw [Function.update_of_ne hb, hbufs]
    | false =>
      rw [allocate_of_failed hok]
      dsimp only
      rw [(rollback_sameRings _ _).bufs, hbufs]
      exact .inl rfl

end DiskState

/-- What a step that no caller sees does to the buffers. -/
theorem ServedState.step_bufs {T B : Type*} [DecidableEq T] [DecidableEq B]
    {s s' : ServedState T B} (h : s.Serving) {o : ServedOp T B} (hs : s.step o = some s')
    (hq : s.event? o = none) : s'.driver.busy = s.driver.busy ∧ ∀ b,
      s'.driver.disk.bufs b = s.driver.disk.bufs b ∨ s.driver.busy b = true ∧
        (s'.driver.disk.bufs b).Alike (s.driver.disk.bufs b) := by
  cases o with
  | edit => exact absurd hq (by simp [ServedState.event?])
  | driver o =>
    rw [ServedState.step, Option.ite_none_right_eq_some, Option.map_eq_some_iff] at hs
    obtain ⟨-, d, hd, rfl⟩ := hs
    refine ⟨?_, DiskState.step_bufs h.owners hd⟩
    cases DiskState.step_to hd with
    | entered => exact absurd hq (by simp [ServedState.event?])
    | asleep | woken | consumed | completed | interrupted => rfl
    | left ht hv => exact absurd hq (by simp [ServedState.event?, ht, hv])
    | @allocated t b write idx =>
      rw [DiskState.allocate]
      dsimp only
      split <;> rfl
  | transfer j =>
    obtain ⟨p, hp, hnot⟩ := ServedState.taken_of_transfer hs
    obtain ⟨t, w, i, write, ht, -, -, -, heq⟩ := h.transfer_eq hp hnot
    obtain rfl := Option.some.inj (heq.symm.trans hs)
    cases write with
    | true => exact ⟨rfl, fun _ => .inl rfl⟩
    | false =>
      refine ⟨rfl, fun b => ?_⟩
      rw [if_neg Bool.false_ne_true, fill]
      dsimp only
      by_cases hb : b = w.buf
      · subst hb
        rw [Function.update_self]
        exact .inr ⟨h.owners.busy t w.buf (DiskPhase.buf?_of_wait? ht), rfl, rfl, rfl, rfl, rfl⟩
      · exact .inl (Function.update_of_ne hb ..)

/-! ## 3. The stack over the cache -/

variable {devOf : BlockNo → BitVec 32} {c c' : CacheState} {r : Ref}

/-- The stack, and the cache over a disk that serves each call when it returns. -/
structure Joint (s : StackState) (c : CacheState) : Prop where
  serving : s.io.Serving
  alike : c.Alike s.io.driver.busy s.view
  disks : Over s.io.atomic c

namespace Joint

variable {s s' : StackState}

/-- Buffers that suit the driver. -/
theorem serving_put (h : s.io.Serving) {t : CacheState}
    (hbufs : ∀ i, s.io.driver.busy i = true → (t.cache.bufs i).blockno = (s.buf i).blockno ∧
      (t.cache.bufs i).flags = (s.buf i).flags) : (s.put t).io.Serving := by
  have hvalid : ∀ i, s.io.driver.busy i = true → (t.cache.bufs i).valid = (s.buf i).valid :=
    fun i hi => by rw [Buf.valid, Buf.valid, (hbufs i hi).2]
  obtain ⟨hr, ho⟩ := ServedState.rings_bufs h.rings h.owners hvalid
  refine ⟨hr, ho, fun u w k hu hk => ?_, h.transferred, h.finished⟩
  obtain ⟨write, hchain⟩ := h.chain u w k hu hk
  exact ⟨write, hchain.congr ⟨fun _ _ => rfl, fun _ _ => rfl⟩
    (hbufs _ (h.owners.busy u w.buf (DiskPhase.buf?_of_wait? hu))).1⟩

theorem atomic_put (s : StackState) (t : CacheState) : (s.put t).io.atomic =
    { s.io.atomic with
      data := fun i => (t.cache.bufs i).data, blockno := fun i => (t.cache.bufs i).blockno } := rfl

/-- Buffers in the driver are referenced. -/
theorem counted (h : Joint s c) (ho : OneDevice devOf c) (i : Fin nbuf)
    (hi : s.io.driver.busy i = true) : (c.cache.bufs i).refcnt ≠ 0 := by
  obtain ⟨r, hr, rfl, -⟩ := (h.disks.busy i).mp hi
  exact Nat.ne_of_gt (ho.keys.refsOk.refcnt_pos hr)

/-- A buffer that somebody holds is not in the driver. -/
theorem not_busy (h : Joint s c) (ho : OneDevice devOf c) (hr : r ∈ c.refs)
    (hlock : r.stage.holdsLock = true) (hst : r.stage.inDriver = false) :
    s.io.driver.busy r.buf = false := by
  rw [← Bool.not_eq_true]
  intro hb
  obtain ⟨q, hq, hbuf, hqst⟩ := (h.disks.busy r.buf).mp hb
  obtain rfl := ho.ref_eq hq hr hbuf (Stage.holdsLock_of_inDriver hqst) hlock
  exact absurd (hst.symm.trans hqst) (by decide)

/-- **The same section of both**, one that leaves the driver alone. -/
theorem put (h : Joint s c) {t : CacheState} (halike : c'.Alike s.io.driver.busy t)
    (hc : CacheState.Outside s.io.driver.busy c c')
    (hs : CacheState.Outside s.io.driver.busy s.view t) : Joint (s.put t) c' := by
  refine ⟨serving_put h.serving fun i hi => ⟨hs.blockno i hi, hs.flags i hi⟩,
    ⟨halike.links, halike.refs, halike.pins, halike.same, halike.alike⟩, ?_⟩
  refine h.disks.outside hc rfl rfl rfl (fun i => (halike.alike i).blockno.symm)
    (fun i hi => ?_) fun i hi => hs.data i hi
  exact congrArg Buf.data (halike.same i hi).symm

theorem outside (h : Joint s c) (ho : OneDevice devOf c) {o : CacheOp} (hout : o.outside = true)
    {t : CacheState} (ht : s.view.step o = some t) :
    ∃ c', c.step o = some c' ∧ c.event? o = s.view.event? o ∧ Joint (s.put t) c' := by
  have hheld : ∀ r ∈ c.refs, r.stage = .holding → s.io.driver.busy r.buf = false :=
    fun r hr hst => h.not_busy ho hr (hst ▸ rfl) (hst ▸ rfl)
  obtain ⟨c', hc', hevent, halike⟩ := h.alike.step (h.counted ho) hheld hout ht
  have hlinked : s.view.cache.AllLinked := by
    obtain ⟨xs, hxs, hall⟩ := ho.keys.keyed.allLinked
    rw [Bcache.Lru, h.alike.links] at hxs
    exact ⟨xs, hxs, hall⟩
  exact ⟨c', hc', hevent, h.put halike
    (CacheState.outside_of_step ho.keys.keyed.allLinked (h.counted ho) hheld hout hc')
    (CacheState.outside_of_step hlinked
      (fun i hi => (h.alike.alike i).refcnt ▸ h.counted ho i hi) (h.alike.refs ▸ hheld) hout ht)⟩

/-- `block_read` of a valid buffer. -/
theorem hit (h : Joint s c) (ho : OneDevice devOf c) (hr : r ∈ c.refs) (hst : r.stage = .locked)
    (hvalid : (s.buf r.buf).valid = true) :
    c.step (.blockRead r) = some (c.advance r .holding (c.bufOf r)) ∧
      c.event? (.blockRead r) = s.view.event? (.blockRead r) ∧
      Joint (s.put (s.view.advance r .holding (s.buf r.buf)))
        (c.advance r .holding (c.bufOf r)) := by
  have hbusy := h.not_busy ho hr (hst ▸ rfl) (hst ▸ rfl)
  have hsame : c.bufOf r = s.buf r.buf := h.alike.same r.buf hbusy
  refine ⟨?_, ?_, h.put (h.alike.advance r .holding (h.alike.alike r.buf) fun _ => hsame)
    (.advance (hst ▸ rfl) rfl fun _ => ⟨rfl, rfl, rfl⟩)
    (.advance (hst ▸ rfl) rfl fun _ => ⟨rfl, rfl, rfl⟩)⟩
  · rw [CacheState.step, if_pos ⟨hr, hst⟩, hsame, if_pos hvalid]
  · rw [CacheState.event?, CacheState.event?, hsame]
    rfl

/-- The driver and the device, while nobody looks. -/
theorem io (h : Joint s c) (ho : OneDevice devOf c) {o : ServedOp Pid (Fin nbuf)}
    {io' : ServedState Pid (Fin nbuf)} (hs : s.io.step o = some io') (hq : s.io.event? o = none) :
    Joint { s with io := io' } c := by
  obtain ⟨hbusy, hbufs⟩ := ServedState.step_bufs h.serving hs hq
  refine ⟨h.serving.step hs, ⟨h.alike.links, h.alike.refs, h.alike.pins, fun i hi => ?_,
    fun i => ?_⟩, ?_⟩
  · dsimp only at hi
    rw [hbusy] at hi
    rcases hbufs i with he | ⟨hb, -⟩
    · exact (h.alike.same i hi).trans he.symm
    · exact absurd (hi.symm.trans hb) (by decide)
  · rcases hbufs i with he | ⟨-, halike⟩
    · change (c.cache.bufs i).Alike (io'.driver.disk.bufs i)
      rw [he]
      exact h.alike.alike i
    · exact (h.alike.alike i).trans halike.symm
  · have hmatches := h.serving.matches_step hs
    rw [hq] at hmatches
    rcases hmatches with ⟨he, -⟩ | ⟨o', hstep, hevent⟩
    · rw [he]
      exact h.disks
    · obtain ⟨t, rfl⟩ := AtomicDisk.op_of_quiet hstep hevent
      exact h.disks.serve ho hstep

/-- **A section calls the driver.** -/
theorem enter (h : Joint s c) (ho : OneDevice devOf c) (hr : r ∈ c.refs)
    (hlock : r.stage.holdsLock = true) (hrst : r.stage.inDriver = false) {st : Stage}
    (hst : st.inDriver = true) {b : Buf} {idx : Fin 3 → Int}
    (hs : (s.put (s.view.advance r st b)).rw r (st == .writing) idx = some s')
    (hb : b.blockno = (s.buf r.buf).blockno ∧ b.data = (s.buf r.buf).data) :
    Joint s' (c.advance r st (virtioDiskRw b)) := by
  have hbusy := h.not_busy ho hr hlock hrst
  have hsame : c.bufOf r = s.buf r.buf := h.alike.same r.buf hbusy
  have hne : ∀ i, i ≠ r.buf → (s.view.advance r st b).cache.bufs i = s.buf i := fun i hi =>
    Bcache.set_bufs_of_ne _ hi b
  have hself : (s.view.advance r st b).cache.bufs r.buf = b := Bcache.set_bufs_self _ _ _
  have hserving : (s.put (s.view.advance r st b)).io.Serving := serving_put h.serving fun i hi => by
    have hir : i ≠ r.buf := fun e => by
      rw [e, hbusy] at hi
      exact absurd hi (by decide)
    rw [hne i hir]
    exact ⟨rfl, rfl⟩
  have hatomic : (s.put (s.view.advance r st b)).io.atomic = s.io.atomic := by
    have hall : ∀ i, ((s.view.advance r st b).cache.bufs i).blockno = (s.buf i).blockno ∧
        ((s.view.advance r st b).cache.bufs i).data = (s.buf i).data := fun i => by
      by_cases hir : i = r.buf
      · subst hir
        rw [hself]
        exact hb
      · rw [hne i hir]
        exact ⟨rfl, rfl⟩
    rw [atomic_put, funext fun i => (hall i).1, funext fun i => (hall i).2]
    rfl
  obtain ⟨io', hio, rfl⟩ := Option.map_eq_some_iff.mp hs
  have hmatches := hserving.matches_step hio
  rcases hmatches with ⟨-, he⟩ | ⟨o, hstep, hevent⟩
  · exact absurd he (by simp [ServedState.event?])
  obtain rfl := AtomicDisk.op_of_called hevent
  rw [hatomic] at hstep
  refine ⟨hserving.step hio, ?_, h.disks.enter ho hr hrst hst ?_ hstep⟩
  · rw [ServedState.step, Option.ite_none_right_eq_some, Option.map_eq_some_iff] at hio
    obtain ⟨-, d, hd, rfl⟩ := hio
    cases DiskState.step_to hd with
    | entered =>
      have hmore : c.Alike (Function.update s.io.driver.busy r.buf true) s.view := by
        refine ⟨h.alike.links, h.alike.refs, h.alike.pins, fun i hi => h.alike.same i ?_,
          h.alike.alike⟩
        by_cases hir : i = r.buf
        · exact hir ▸ hbusy
        · rwa [Function.update_of_ne hir] at hi
      have hnext := hmore.advance r st (virtioDiskRw_alike b) fun hfree => by
        rw [Function.update_self] at hfree
        exact absurd hfree (by decide)
      exact ⟨hnext.links, hnext.refs, hnext.pins, hnext.same, hnext.alike⟩
  · rw [hsame]
    exact hb

/-- **A call returns.** -/
theorem leave (h : Joint s c) (ho : OneDevice devOf c) (hr : r ∈ c.refs)
    (hrst : r.stage.inDriver = true) {io' : ServedState Pid (Fin nbuf)} {status : BitVec 8}
    {idx : Fin 3 → Int} (he : (s.io.event? (.driver (.resume r.pid))).isSome = true)
    (hio : s.io.step (.driver (.resume r.pid)) = some io') :
    ∃ c', c.step (.complete r 0) = some c' ∧
      c.event? (.complete r 0) = s.event? (.call (.complete r status) idx) ∧
      Joint { s with io := io', refs := { r with stage := .holding } :: s.refs.erase r } c' := by
  -- the process waits for this buffer, and finds it marked
  obtain ⟨e, he⟩ := Option.isSome_iff_exists.mp he
  have hphase : ∃ w, s.io.driver.phase r.pid = .waiting w false ∧ (s.buf w.buf).valid = true := by
    rw [ServedState.event?] at he
    split at he
    case h_1 w hw =>
      rw [Option.ite_none_right_eq_some] at he
      exact ⟨w, hw, he.1⟩
    case h_2 => exact absurd he (by simp)
  obtain ⟨w, hw, hvalid⟩ := hphase
  have hstep : s.io.step (.driver (.resume r.pid)) =
      some { s.io with driver := s.io.driver.leave r.pid w } := by
    have hready : s.io.ready (.resume r.pid) = true := rfl
    rw [ServedState.step, if_pos hready, DiskState.step, DiskState.resume, hw]
    dsimp only
    rw [if_pos hvalid]
    rfl
  have hbuf : w.buf = r.buf := by
    have hcall := (h.disks.calls r hr hrst).buf?_eq
    change ((s.io.driver.phase r.pid).call s.io.driver.disk s.io.transferred).buf? = _ at hcall
    rw [hw, DiskPhase.call] at hcall
    split at hcall <;> exact Option.some.inj hcall
  have hmatches := h.serving.matches_step hio
  rw [ServedState.event?, hw] at hmatches
  dsimp only at hmatches
  rw [if_pos hvalid] at hmatches
  rcases hmatches with ⟨-, he⟩ | ⟨o, hret, hevent⟩
  · exact absurd he (by simp)
  obtain rfl := AtomicDisk.op_of_returned hevent
  obtain rfl := Option.some.inj (hstep.symm.trans hio)
  rw [hbuf] at hvalid
  obtain ⟨hdata, hover⟩ := h.disks.leave ho hr hrst
    (b := { virtioDiskIntr (c.bufOf r) with data := returnedData c r }) ⟨rfl, rfl⟩ hret
  change (s.buf r.buf).data = _ at hdata
  have hdone : { virtioDiskIntr (c.bufOf r) with data := returnedData c r } = s.buf r.buf :=
    (h.alike.alike r.buf).intr_eq hvalid hdata
  refine ⟨_, step_complete hr hrst, ?_, h.serving.step hio, ⟨h.alike.links, ?_, h.alike.pins,
    fun i hi => ?_, fun i => ?_⟩, hover⟩
  · have hno : (s.buf r.buf).blockno = (c.bufOf r).blockno := (h.alike.alike r.buf).blockno.symm
    rw [CacheState.event?, StackState.event?, hdata, hno, returnedData]
    by_cases hread : r.stage = .reading
    · rw [if_pos hread, if_pos hread, if_pos hread]
    · rw [if_neg hread, if_neg hread, if_neg hread]
  · change _ :: c.refs.erase r = _ :: s.refs.erase r
    rw [h.alike.refs]
    rfl
  · by_cases hir : i = r.buf
    · subst hir
      exact (Bcache.set_bufs_self ..).trans hdone
    · refine (Bcache.set_bufs_of_ne _ hir _).trans (h.alike.same i ?_)
      have hi' : Function.update s.io.driver.busy w.buf false i = false := hi
      rwa [hbuf, Function.update_of_ne hir] at hi'
  · by_cases hir : i = r.buf
    · subst hir
      have he := (Bcache.set_bufs_self c.cache r.buf
        { virtioDiskIntr (c.bufOf r) with data := returnedData c r }).trans hdone
      exact he ▸ .refl _
    · have he := Bcache.set_bufs_of_ne c.cache hir
        { virtioDiskIntr (c.bufOf r) with data := returnedData c r }
      exact he ▸ h.alike.alike i

/-- **One step of the stack** is one of the cache, or none. -/
theorem step (h : Joint s c) (ho : OneDevice devOf c) {o : StackOp} (hreg : o.Regular devOf)
    (hs : s.step o = some s') :
    (s.event? o = none ∧ Joint s' c) ∨ ∃ o' c', Regular devOf o' ∧ c.step o' = some c' ∧
      c.event? o' = s.event? o ∧ Joint s' c' := by
  have houtside : ∀ o : CacheOp, Regular devOf o → o.outside = true →
      (s.view.step o).map s.put = some s' → ∃ o' c', Regular devOf o' ∧ c.step o' = some c' ∧
        c.event? o' = s.view.event? o ∧ Joint s' c' := fun o hreg hout hs => by
    obtain ⟨t, ht, rfl⟩ := Option.map_eq_some_iff.mp hs
    obtain ⟨c', hc', hevent, hnext⟩ := h.outside ho hout ht
    exact ⟨o, c', hreg, hc', hevent, hnext⟩
  cases o with
  | io o =>
    rw [StackState.step] at hs
    split at hs
    case isTrue => exact absurd hs (by simp)
    case isFalse hq =>
      obtain ⟨io', hio, rfl⟩ := Option.map_eq_some_iff.mp hs
      exact .inl ⟨rfl, h.io ho hio (by simpa using hq)⟩
  | call o idx =>
    refine .inr ?_
    cases o with
    | bufGet pid dev blockno => exact houtside (.bufGet pid dev blockno) hreg rfl hs
    | lock r => exact houtside (.lock r) trivial rfl hs
    | modify r data => exact houtside (.modify r data) trivial rfl hs
    | unlock r => exact houtside (.unlock r) trivial rfl hs
    | drop r => exact houtside (.drop r) trivial rfl hs
    | bufPin r => exact houtside (.bufPin r) trivial rfl hs
    | bufUnpin i => exact houtside (.bufUnpin i) trivial rfl hs
    | blockRead r =>
      rw [StackState.step, Option.ite_none_right_eq_some] at hs
      obtain ⟨⟨hr, hst⟩, hs⟩ := hs
      have hr' : r ∈ c.refs := h.alike.refs ▸ hr
      have hsame : c.bufOf r = s.buf r.buf :=
        h.alike.same r.buf (h.not_busy ho hr' (hst ▸ rfl) (hst ▸ rfl))
      split at hs
      case isTrue hvalid =>
        obtain rfl := Option.some.inj hs
        obtain ⟨hc', hevent, hnext⟩ := h.hit ho hr' hst hvalid
        exact ⟨.blockRead r, _, trivial, hc', hevent, hnext⟩
      case isFalse hvalid =>
        refine ⟨.blockRead r, _, trivial, ?_, ?_, h.enter ho hr' (hst ▸ rfl) (hst ▸ rfl) rfl hs
          ⟨rfl, rfl⟩⟩
        · rw [CacheState.step, if_pos ⟨hr', hst⟩, hsame, if_neg hvalid]
        · rw [CacheState.event?, hsame, if_neg hvalid]
          exact (if_neg hvalid).symm
    | blockWrite r =>
      rw [StackState.step, Option.ite_none_right_eq_some] at hs
      obtain ⟨⟨hr, hst⟩, hs⟩ := hs
      have hr' : r ∈ c.refs := h.alike.refs ▸ hr
      have hsame : c.bufOf r = s.buf r.buf :=
        h.alike.same r.buf (h.not_busy ho hr' (hst ▸ rfl) (hst ▸ rfl))
      split at hs
      case isTrue hheld =>
        refine ⟨.blockWrite r, _, trivial, ?_, rfl, h.enter ho hr' (hst ▸ rfl) (hst ▸ rfl) rfl hs
          ⟨rfl, rfl⟩⟩
        rw [CacheState.step, if_pos ⟨hr', hst⟩, hsame, Lithium.blockWrite, if_pos hheld]
      case isFalse hheld =>
        obtain rfl := Option.some.inj hs
        refine ⟨.blockWrite r, c, trivial, ?_, rfl, h⟩
        rw [CacheState.step, if_pos ⟨hr', hst⟩, hsame, Lithium.blockWrite, if_neg hheld]
    | complete r status =>
      rw [StackState.step, Option.ite_none_right_eq_some] at hs
      obtain ⟨⟨hr, hrst, he⟩, hs⟩ := hs
      obtain ⟨io', hio, rfl⟩ := Option.map_eq_some_iff.mp hs
      obtain ⟨c', hc', hevent, hnext⟩ := h.leave ho (h.alike.refs ▸ hr) hrst he hio
      exact ⟨.complete r 0, c', rfl, hc', hevent, hnext⟩

theorem init (sectors : BitVec 64 → Block) :
    Joint (.init sectors) (.init fun n => sectors (sectorOf n)) where
  serving := .init _ _
  alike := ⟨rfl, rfl, rfl, fun _ _ => rfl, fun _ => .refl _⟩
  disks :=
    { blockno := fun _ => rfl
      idle := fun _ _ => rfl
      busy := fun _ => iff_of_false Bool.false_ne_true fun h =>
        h.elim fun _ hr => absurd hr.1 List.not_mem_nil
      called := fun _ ht => absurd rfl ht
      calls := fun _ hr => absurd hr List.not_mem_nil
      disk := fun _ _ => rfl }

end Joint

/-! ## 4. Every run -/

/-- **The storage stack is the block layer that the log and the inodes rely on.**  In every run of
the processes, of the device and of the interrupts that uses each block under one device number, the
callers see what they would see of the `World`, in a run of it over the sectors. -/
theorem stack_refines_layer (devOf : BlockNo → BitVec 32) (sectors : BitVec 64 → Block)
    (os : List StackOp) (hos : ∀ o ∈ os, o.Regular devOf) {s : StackState}
    (hs : Transition.run StackState.step (.init sectors) os = some s) :
    ∃ w, (∃ c, Joint s c ∧ Layered devOf c w) ∧
      Transition.Shows World.step World.event? (World.boot fun n => sectors (sectorOf n)) w
        (Transition.trace StackState.step StackState.event? (.init sectors) os) := by
  refine Transition.shows_of_simulation (R := fun s w => ∃ c, Joint s c ∧ Layered devOf c w)
    (C := StackOp.Regular devOf) (fun s o s' w hR hreg hstep => ?_) os
    ⟨_, .init sectors, .init devOf _⟩ hos hs
  obtain ⟨c, hjoint, hlayered⟩ := hR
  rcases hjoint.step ⟨hlayered.keys, hlayered.locks, hlayered.known⟩ hreg hstep with
    ⟨hevent, hnext⟩ | ⟨o', c', hreg', hc', hevent, hnext⟩
  · rw [hevent]
    exact ⟨w, ⟨c, hnext, hlayered⟩, .refl w⟩
  · obtain ⟨w', hlayered', hshows⟩ := hlayered.step hreg' hc'
    exact ⟨w', ⟨c', hnext, hlayered'⟩, hevent ▸ hshows⟩

local instance : NeZero nbuf := ⟨by decide⟩

/-- Two processes read blocks 5 and 6; both requests are in the device at once, which completes the
second one first.  Then the first process fills its block and writes it. -/
def twoReads : List StackOp :=
  [.call (.bufGet 1 0 5) fun _ => 0, .call (.bufGet 2 0 6) fun _ => 0,
    .call (.lock ⟨1, 0, .waiting⟩) fun _ => 0, .call (.lock ⟨2, 1, .waiting⟩) fun _ => 0,
    .call (.blockRead ⟨1, 0, .locked⟩) fun _ => 0, .call (.blockRead ⟨2, 1, .locked⟩) fun _ => 0,
    .io (.driver (.resume 1)), .io (.driver (.resume 2)),
    .io (.driver .consume), .io (.driver .consume), .io (.transfer 1), .io (.transfer 0),
    .io (.driver (.complete 1 0 513)), .io (.driver .intr),
    .call (.complete ⟨2, 1, .reading⟩ 0) fun _ => 0,
    .io (.driver (.complete 0 0 513)), .io (.driver .intr),
    .call (.complete ⟨1, 0, .reading⟩ 0) fun _ => 0,
    .call (.modify ⟨1, 0, .holding⟩ fun _ => 1) fun _ => 0,
    .call (.blockWrite ⟨1, 0, .holding⟩) fun _ => 0,
    .io (.driver (.resume 1)), .io (.driver .consume), .io (.transfer 0),
    .io (.driver (.complete 0 0 1)), .io (.driver .intr),
    .call (.complete ⟨1, 0, .writing⟩ 0) fun _ => 0,
    .call (.unlock ⟨1, 0, .holding⟩) fun _ => 0, .call (.drop ⟨1, 0, .unlocked⟩) fun _ => 0]

theorem stack_refines_layer_twoReads : ∃ s w,
    Transition.run StackState.step (.init fun _ _ => 0) twoReads = some s ∧
      (∃ c, Joint s c ∧ Layered (fun _ => 0) c w) ∧
      Transition.Shows World.step World.event? (World.boot fun _ _ => 0) w
        (Transition.trace StackState.step StackState.event? (.init fun _ _ => 0) twoReads) := by
  have hrun : (Transition.run StackState.step (.init fun _ _ => 0) twoReads).isSome = true := by
    decide +kernel
  obtain ⟨s, hs⟩ := Option.isSome_iff_exists.mp hrun
  obtain ⟨w, hlayered, hshows⟩ :=
    stack_refines_layer (fun _ => 0) (fun _ _ => 0) twoReads (by decide) hs
  exact ⟨s, w, hs, hlayered, hshows⟩

end Lithium
