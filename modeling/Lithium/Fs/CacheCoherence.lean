/-
# The block cache is transparent, for one device

A process that reads a block gets what was last written to it, whoever wrote it and whatever the
cache did in between: `block_read` returns the data of the last completed `block_write` of the
block, or what was on the disk at first.

The cache keeps its blocks by device and number, but `virtio_disk_rw` drives the one disk there is
and never looks at `dev`.  Section 2 shows two devices reading each other's blocks, so what holds
is that the cache is transparent as long as each block is used under one device number.
-/
import Lithium.Fs.BufferKeys

namespace Lithium

/-! ## 1. What is asked, written and returned -/

/-- A device and a block number. -/
abbrev BlockKey := BitVec 32 × BlockNo

/-- The key of a buffer. -/
def Buf.key (b : Buf) : BlockKey := (b.dev, b.blockno)

theorem Buf.SameKey.key_eq {a b : Buf} (h : a.SameKey b) : a.key = b.key := Prod.ext h.1 h.2

/-- The cache, and what an observer notes: the block each process asked for when `buf_get` gave it
a buffer, what was last written to each block, the buffers changed since their last write, and the
reference that `block_read` returned in the last step. -/
structure Observed where
  state : CacheState
  asked : Pid × Fin nbuf → BlockKey
  written : BlockKey → Block
  unsaved : Fin nbuf → Bool
  returned : Option Ref

namespace Observed

/-- What the observer notes of a step, from the state before it. -/
def note (s : Observed) : CacheOp → Observed
  | .bufGet pid dev blockno =>
    match Lithium.bufGet s.state.cache dev blockno with
    | some (_, some i) =>
      { s with asked := Function.update s.asked (pid, i) (dev, blockno), returned := none }
    | _ => { s with returned := none }
  | .blockRead r =>
    { s with
      returned := if (s.state.bufOf r).valid then some { r with stage := .holding } else none }
  | .modify r _ => { s with unsaved := Function.update s.unsaved r.buf true, returned := none }
  | .complete r status =>
    if r.stage = .reading then { s with returned := some { r with stage := .holding } }
    else if status = 0 then
      { s with
        written := Function.update s.written (s.state.bufOf r).key (s.state.bufOf r).data
        unsaved := Function.update s.unsaved r.buf false
        returned := none }
    else { s with returned := none }
  | _ => { s with returned := none }

/-- One section, noted. -/
def step (s : Observed) (o : CacheOp) : Option Observed :=
  (s.state.step o).map fun t => { s.note o with state := t }

/-- Nothing has been written yet. -/
def init (disk : Disk) : Observed :=
  { state := .init disk
    asked := fun _ => 0
    written := fun k => disk k.2
    unsaved := fun _ => false
    returned := none }

/-- A buffer that `block_read` returns has the data last written to the block asked for. -/
def Transparent (s : Observed) : Prop :=
  ∀ r, s.returned = some r → (s.state.bufOf r).data = s.written (s.asked (r.pid, r.buf))

/-- What is asked of the disk and of the processes: the disk reports status 0, and a changed buffer
is written before it is released. -/
def Allowed (s : Observed) : CacheOp → Prop
  | .complete _ status => status = 0
  | .unlock r => s.unsaved r.buf = false
  | _ => True

instance (s : Observed) : ∀ o, Decidable (s.Allowed o)
  | .complete _ status => inferInstanceAs (Decidable (status = 0))
  | .unlock r => inferInstanceAs (Decidable (s.unsaved r.buf = false))
  | .bufGet .. | .lock _ | .blockRead _ | .modify .. | .blockWrite _ | .drop _ | .bufPin _
  | .bufUnpin _ => isTrue trivial

/-- The block is asked for under the device number it is used with. -/
def UsesDev (devOf : BlockNo → BitVec 32) : CacheOp → Prop
  | .bufGet _ dev blockno => dev = devOf blockno
  | _ => True

instance (devOf : BlockNo → BitVec 32) : ∀ o, Decidable (UsesDev devOf o)
  | .bufGet _ dev blockno => inferInstanceAs (Decidable (dev = devOf blockno))
  | .lock _ | .blockRead _ | .modify .. | .blockWrite _ | .complete .. | .unlock _ | .drop _
  | .bufPin _ | .bufUnpin _ => isTrue trivial

/-! ## 2. Two devices -/

/-- A process reads block 5 of device `dev` into buffer `i`. -/
def readBlock (dev : BitVec 32) (i : Fin nbuf) : List CacheOp :=
  [.bufGet 1 dev 5, .lock ⟨1, i, .waiting⟩, .blockRead ⟨1, i, .locked⟩,
    .complete ⟨1, i, .reading⟩ 0]

/-- It fills the block with ones, writes it and releases it. -/
def fillBlock (i : Fin nbuf) : List CacheOp :=
  [.modify ⟨1, i, .holding⟩ fun _ => 1, .blockWrite ⟨1, i, .holding⟩, .complete ⟨1, i, .writing⟩ 0,
    .unlock ⟨1, i, .holding⟩, .drop ⟨1, i, .unlocked⟩]

/-- What is written to a block of device 1 is read from the same block of device 2, which nobody
has written. -/
theorem other_device_read :
    ¬ ∀ (disk : Disk) (os : List CacheOp), Transition.EachStep step Allowed (init disk) os →
      Transition.Always step Transparent (init disk) os := by
  intro h
  let os := readBlock 1 0 ++ fillBlock 0 ++ readBlock 2 1
  have hallowed : Transition.EachStep step Allowed (init fun _ _ => 0) os := by decide +kernel
  have hrun : ((Transition.run step (init fun _ _ => 0) os).any fun s =>
      s.returned == some ⟨1, 1, .holding⟩ && (s.state.cache.bufs 1).data 0 == 1 &&
        s.written (s.asked (1, 1)) 0 == 0) = true := by
    decide +kernel
  obtain ⟨s, hs, hread⟩ := (Option.any_eq_true _ _).mp hrun
  simp only [Bool.and_eq_true, beq_iff_eq] at hread
  obtain ⟨⟨hret, hdata⟩, hwritten⟩ := hread
  have htrans := (Transition.always_iff_forall_part os _).mp (h _ os hallowed) os s
    List.prefix_rfl hs
  have heq := congrFun (htrans _ hret) 0
  dsimp only [CacheState.bufOf] at heq
  rw [hdata, hwritten] at heq
  exact absurd heq (by decide)

end Observed

/-! ## 3. Who may touch a buffer -/

/-- The process has the sleeplock of the buffer. -/
def Stage.holdsLock : Stage → Bool
  | .waiting | .unlocked => false
  | .locked | .reading | .holding | .writing => true

/-- The process has changed the buffer, or may. -/
def Stage.mayChange : Stage → Bool
  | .holding | .writing => true
  | _ => false

theorem Stage.holdsLock_of_mayChange {st : Stage} (h : st.mayChange = true) :
    st.holdsLock = true := by
  cases st <;> first | rfl | exact absurd h (by decide)

/-- At most one element of a list meets a condition that is counted once. -/
theorem eq_of_countP_le_one {α : Type*} [DecidableEq α] {p : α → Bool} {l : List α} {a b : α}
    (h : l.countP p ≤ 1) (ha : a ∈ l) (hb : b ∈ l) (hpa : p a = true) (hpb : p b = true) :
    a = b := by
  by_contra hne
  rw [(List.perm_cons_erase ha).countP_eq, List.countP_cons_of_pos hpa] at h
  have hb' : b ∈ l.erase a := (List.mem_erase_of_ne fun e => hne e.symm).mpr hb
  have := List.countP_pos_iff.mpr ⟨b, hb', hpb⟩
  omega

namespace CacheState

/-- The sleeplock of a buffer is taken by one reference, if it is taken. -/
def LocksOk (s : CacheState) : Prop :=
  ∀ i, s.refs.countP (fun r => r.buf == i && r.stage.holdsLock) =
    (s.cache.bufs i).lock.locked.toNat

variable {s : CacheState}

/-- A reference that holds the lock is the only one on its buffer. -/
theorem LocksOk.unique (h : LocksOk s) {q r : Ref} (hq : q ∈ s.refs) (hr : r ∈ s.refs)
    (hbuf : q.buf = r.buf) (hql : q.stage.holdsLock = true) (hrl : r.stage.holdsLock = true) :
    q = r := by
  have hone : s.refs.countP (fun q => q.buf == r.buf && q.stage.holdsLock) ≤ 1 :=
    h r.buf ▸ Bool.toNat_le _
  exact eq_of_countP_le_one hone hq hr (by simp [hbuf, hql]) (by simp [hrl])

/-- A buffer that a reference holds is locked. -/
theorem LocksOk.locked (h : LocksOk s) {r : Ref} (hr : r ∈ s.refs)
    (hrl : r.stage.holdsLock = true) : (s.bufOf r).lock.locked = true := by
  have hpos : 0 < s.refs.countP (fun q => q.buf == r.buf && q.stage.holdsLock) :=
    List.countP_pos_iff.mpr ⟨r, hr, by simp [hrl]⟩
  rw [h r.buf] at hpos
  cases hl : (s.bufOf r).lock.locked with
  | true => rfl
  | false => rw [bufOf] at hl; simp [hl] at hpos

theorem init_locksOk (disk : Disk) : LocksOk (init disk) := fun _ => rfl

theorem countP_locks_erase {refs : List Ref} {r : Ref} (hr : r ∈ refs) (i : Fin nbuf) :
    refs.countP (fun q => q.buf == i && q.stage.holdsLock) =
      (refs.erase r).countP (fun q => q.buf == i && q.stage.holdsLock) +
        if r.buf == i && r.stage.holdsLock then 1 else 0 := by
  rw [(List.perm_cons_erase hr).countP_eq, List.countP_cons]

/-- Moving a reference on takes the lock of its buffer, or gives it back. -/
theorem LocksOk.advance (h : LocksOk s) {r : Ref} (hr : r ∈ s.refs) {st : Stage} {b : Buf}
    (hb : b.lock.locked.toNat + r.stage.holdsLock.toNat =
      (s.bufOf r).lock.locked.toNat + st.holdsLock.toNat) : LocksOk (s.advance r st b) := by
  intro i
  have hc := h i
  rw [countP_locks_erase hr] at hc
  simp only [CacheState.advance, List.countP_cons]
  by_cases hi : i = r.buf
  · subst hi
    simp only [beq_self_eq_true, Bool.true_and, Bcache.set_bufs_self] at hc ⊢
    cases hrl : r.stage.holdsLock <;> cases hsl : st.holdsLock <;>
      simp only [hrl, hsl, bufOf, Bool.toNat_true, Bool.toNat_false, if_true, Bool.false_eq_true,
        if_false] at hb hc ⊢ <;> omega
  · have hne : (r.buf == i) = false := by simpa using fun e : r.buf = i => hi e.symm
    rw [Bcache.set_bufs_of_ne _ hi]
    simpa [hne] using hc

/-- Leaving the locks and the references that hold them alone. -/
theorem LocksOk.congr (h : LocksOk s) {s' : CacheState}
    (hl : ∀ i, (s'.cache.bufs i).lock = (s.cache.bufs i).lock)
    (hr : ∀ i, s'.refs.countP (fun r => r.buf == i && r.stage.holdsLock) =
      s.refs.countP (fun r => r.buf == i && r.stage.holdsLock)) : LocksOk s' := fun i => by
  rw [hr, h, hl]

/-- A change of one buffer that keeps its lock. -/
theorem lock_set (c : Bcache) {i : Fin nbuf} {b : Buf} (hb : b.lock = (c.bufs i).lock)
    (j : Fin nbuf) : ((c.set i b).bufs j).lock = (c.bufs j).lock := by
  by_cases hij : j = i
  · subst hij
    rwa [Bcache.set_bufs_self]
  · rw [Bcache.set_bufs_of_ne c hij]

theorem LocksOk.got (h : LocksOk s) (pid : Pid) {dev : BitVec 32} {blockno : BlockNo} {c : Bcache}
    {o : Option (Fin nbuf)} (hget : GetEnd s.cache dev blockno c o) :
    LocksOk { s with
      cache := c, refs := (o.map fun i => ⟨pid, i, .waiting⟩).toList ++ s.refs } := by
  refine h.congr (fun i => ?_) fun i => ?_
  · cases hget with
    | hit j => exact lock_set s.cache (by rfl) i
    | recycled j => exact lock_set s.cache (by rfl) i
    | null => rfl
  · cases o with
    | none => rfl
    | some j => simp [Stage.holdsLock]

theorem LocksOk.dropped (h : LocksOk s) {r : Ref} (hr : r ∈ s.refs) (hst : r.stage = .unlocked) :
    LocksOk { s with cache := bufDrop s.cache r.buf, refs := s.refs.erase r } := by
  refine h.congr (fun i => ?_) fun i => ?_
  · rw [bufDrop_bufs]
    exact lock_set s.cache (by rfl) i
  · rw [countP_locks_erase hr, hst]
    simp [Stage.holdsLock]

end CacheState

/-! ## 4. What the buffers hold -/

theorem virtioDiskRw_valid (b : Buf) : (virtioDiskRw b).valid = false := by
  simp [Buf.valid, virtioDiskRw, BitVec.and_assoc]

theorem virtioDiskIntr_valid (b : Buf) : (virtioDiskIntr b).valid = true := by
  have hbit : ((virtioDiskIntr b).flags &&& bValid).getLsbD 1 = true := by
    rw [BitVec.getLsbD_and, virtioDiskIntr, BitVec.getLsbD_or,
      show bValid.getLsbD 1 = true by decide, Bool.or_true, Bool.and_true]
  have hne : (virtioDiskIntr b).flags &&& bValid ≠ 0 := fun e => by
    rw [e] at hbit
    exact absurd hbit (by decide)
  simpa [Buf.valid] using hne

/-- The disk holds what was last written, and so do the valid buffers that are not being changed;
the buffers in use are for the device their block is used with. -/
structure Content (devOf : BlockNo → BitVec 32) (c : Bcache) (disk : Disk)
    (written : BlockKey → Block) (unsaved : Fin nbuf → Bool) : Prop where
  known : ∀ i, 0 < (c.bufs i).refcnt ∨ (c.bufs i).flags ≠ 0 →
    (c.bufs i).dev = devOf (c.bufs i).blockno
  stored : ∀ n, written (devOf n, n) = disk n
  cached : ∀ i, (c.bufs i).valid = true → unsaved i = false →
    (c.bufs i).data = disk (c.bufs i).blockno

namespace Content

variable {devOf : BlockNo → BitVec 32} {c : Bcache} {disk : Disk} {written : BlockKey → Block}
  {unsaved unsaved' : Fin nbuf → Bool}

/-- Changing one buffer. -/
theorem set (h : Content devOf c disk written unsaved) {i : Fin nbuf} {b : Buf}
    (hu : ∀ j, j ≠ i → unsaved' j = unsaved j)
    (hdev : 0 < b.refcnt ∨ b.flags ≠ 0 → b.dev = devOf b.blockno)
    (hdata : b.valid = true → unsaved' i = false → b.data = disk b.blockno) :
    Content devOf (c.set i b) disk written unsaved' where
  known := fun j hj => by
    by_cases hij : j = i
    · subst hij
      rw [Bcache.set_bufs_self] at hj ⊢
      exact hdev hj
    · rw [Bcache.set_bufs_of_ne c hij] at hj ⊢
      exact h.known j hj
  stored := h.stored
  cached := fun j hj hsaved => by
    by_cases hij : j = i
    · subst hij
      rw [Bcache.set_bufs_self] at hj ⊢
      exact hdata hj hsaved
    · rw [Bcache.set_bufs_of_ne c hij] at hj ⊢
      exact h.cached j hj (hu j hij ▸ hsaved)

/-- A buffer in use is for the right device, and stays so. -/
theorem dev_eq (h : Content devOf c disk written unsaved) {i : Fin nbuf} {b : Buf}
    (hkey : b.SameKey (c.bufs i)) (huse : 0 < (c.bufs i).refcnt) : b.dev = devOf b.blockno := by
  rw [hkey.1, hkey.2]
  exact h.known i (Or.inl huse)

/-- A change of the lock or of the counter of a buffer in use. -/
theorem touch (h : Content devOf c disk written unsaved) {i : Fin nbuf} {b : Buf}
    (hkey : b.SameKey (c.bufs i)) (hflags : b.flags = (c.bufs i).flags)
    (hdata : b.data = (c.bufs i).data) (huse : 0 < (c.bufs i).refcnt) :
    Content devOf (c.set i b) disk written unsaved := by
  refine h.set (fun _ _ => rfl) (fun _ => h.dev_eq hkey huse) fun hv hs => ?_
  rw [hdata, hkey.2]
  exact h.cached i (by rwa [Buf.valid, ← hflags]) hs

/-- Writing the data of a buffer in use to the disk: no other valid buffer is for its block. -/
theorem write (h : Content devOf c disk written unsaved) (hkeyed : c.Keyed) {i : Fin nbuf}
    (huse : 0 < (c.bufs i).refcnt) :
    Content devOf c (Function.update disk (c.bufs i).blockno (c.bufs i).data)
      (Function.update written (c.bufs i).key (c.bufs i).data) unsaved where
  known := h.known
  stored := fun n => by
    have hkey : (c.bufs i).key = (devOf (c.bufs i).blockno, (c.bufs i).blockno) :=
      Prod.ext (h.known i (Or.inl huse)) rfl
    rw [hkey]
    by_cases hn : n = (c.bufs i).blockno
    · rw [hn, Function.update_self, Function.update_self]
    · rw [Function.update_of_ne hn, Function.update_of_ne fun e => hn (congrArg Prod.snd e)]
      exact h.stored n
  cached := fun j hj hsaved => by
    by_cases hn : (c.bufs j).blockno = (c.bufs i).blockno
    · have hused : (c.bufs j).flags ≠ 0 := fun e => by
        simp [Buf.valid, e] at hj
      have hdev : (c.bufs j).dev = (c.bufs i).dev := by
        rw [h.known j (Or.inr hused), h.known i (Or.inl huse), hn]
      have hij : j = i := by
        by_contra hij
        rcases hkeyed.unused_or hij ⟨hdev, hn⟩ with hunused | hunused
        · exact hused hunused.2
        · have := hunused.1
          omega
      rw [hn, Function.update_self, hij]
    · rw [Function.update_of_ne hn]
      exact h.cached j hj hsaved

/-- Only the buffers count, not the order of the list. -/
theorem congr (h : Content devOf c disk written unsaved) {c' : Bcache}
    (hc : ∀ i, c'.bufs i = c.bufs i) : Content devOf c' disk written unsaved where
  known := fun i => by
    rw [hc]
    exact h.known i
  stored := h.stored
  cached := fun i => by
    rw [hc]
    exact h.cached i

end Content

/-! ## 5. The invariant -/

namespace Observed

/-- The cache is in order, its buffers hold what was written, every process has a buffer for the
block it asked for, and what `block_read` returned is valid. -/
structure Coherent (devOf : BlockNo → BitVec 32) (s : Observed) : Prop where
  keys : s.state.KeysOk
  locks : s.state.LocksOk
  content : Content devOf s.state.cache s.state.disk s.written s.unsaved
  asked : ∀ r ∈ s.state.refs, s.asked (r.pid, r.buf) = (s.state.bufOf r).key
  changing : ∀ i, s.unsaved i = true → ∃ r ∈ s.state.refs, r.buf = i ∧ r.stage.mayChange = true
  returned : ∀ r, s.returned = some r →
    r ∈ s.state.refs ∧ (s.state.bufOf r).valid = true ∧ s.unsaved r.buf = false

variable {devOf : BlockNo → BitVec 32} {s s' : Observed}

theorem Coherent.init (devOf : BlockNo → BitVec 32) (disk : Disk) : Coherent devOf (init disk) where
  keys := CacheState.init_keysOk disk
  locks := CacheState.init_locksOk disk
  content := by
    refine ⟨fun i hi => ?_, fun _ => rfl, fun i hi => ?_⟩
    · rcases hi with hi | hi
      · exact absurd hi (Nat.lt_irrefl 0)
      · exact absurd rfl hi
    · exact absurd hi (by
        simp [Observed.init, CacheState.init, bufCacheInit, Buf.zero, Buf.valid])
  asked := fun _ hr => absurd hr List.not_mem_nil
  changing := fun _ hi => absurd hi (by simp [Observed.init])
  returned := fun _ hr => absurd hr (by simp [Observed.init])

/-- **What a coherent cache returns is what was written.** -/
theorem Coherent.transparent (h : Coherent devOf s) : Transparent s := by
  intro r hret
  obtain ⟨hr, hvalid, hsaved⟩ := h.returned r hret
  have hpos := h.keys.refsOk.refcnt_pos hr
  have hkey : (s.state.bufOf r).key =
      (devOf (s.state.bufOf r).blockno, (s.state.bufOf r).blockno) :=
    Prod.ext (h.content.known r.buf (Or.inl hpos)) rfl
  rw [h.asked r hr, hkey, h.content.stored]
  exact h.content.cached r.buf hvalid hsaved

/-- A reference that has the lock and has changed nothing. -/
theorem Coherent.saved (h : Coherent devOf s) {r : Ref} (hr : r ∈ s.state.refs)
    (hlock : r.stage.holdsLock = true) (hst : r.stage.mayChange = false) :
    s.unsaved r.buf = false := by
  by_contra hu
  obtain ⟨q, hq, hbuf, hqst⟩ := h.changing r.buf (by simpa using hu)
  have hqr := h.locks.unique hq hr hbuf (Stage.holdsLock_of_mayChange hqst) hlock
  rw [hqr, hst] at hqst
  exact absurd hqst (by decide)

/-- Nor has anybody changed a buffer whose lock is free. -/
theorem Coherent.saved_of_free (h : Coherent devOf s) {i : Fin nbuf}
    (hfree : (s.state.cache.bufs i).lock.locked = false) : s.unsaved i = false := by
  by_contra hu
  obtain ⟨q, hq, rfl, hqst⟩ := h.changing i (by simpa using hu)
  rw [h.locks.locked hq (Stage.holdsLock_of_mayChange hqst)] at hfree
  exact absurd hfree (by decide)

/-- **Moving a reference on**, with any change of its own buffer and of the disk that keeps the
contents right. -/
theorem Coherent.advance (h : Coherent devOf s) {r : Ref} (hr : r ∈ s.state.refs) {st : Stage}
    {b : Buf} {disk : Disk} {written : BlockKey → Block} {unsaved : Fin nbuf → Bool}
    {returned : Option Ref}
    (hcontent : Content devOf (s.state.cache.set r.buf b) disk written unsaved)
    (hkey : b.SameKey (s.state.bufOf r)) (hcnt : b.refcnt = (s.state.bufOf r).refcnt)
    (hlock : b.lock.locked.toNat + r.stage.holdsLock.toNat =
      (s.state.bufOf r).lock.locked.toNat + st.holdsLock.toNat)
    (hu : ∀ j, j ≠ r.buf → unsaved j = s.unsaved j)
    (hst : unsaved r.buf = true → st.mayChange = true)
    (hret : ∀ q, returned = some q →
      q = { r with stage := st } ∧ b.valid = true ∧ unsaved r.buf = false) :
    Coherent devOf ⟨{ s.state.advance r st b with disk := disk }, s.asked, written, unsaved,
      returned⟩ := by
  have hend : CacheState.StepEnd s.state { s.state.advance r st b with disk := disk } :=
    .moved r hr st hkey hcnt disk
  have hlocks := h.locks.advance hr hlock
  refine ⟨h.keys.step hend, hlocks, hcontent, fun q hq => ?_, fun i hi => ?_, fun q hq => ?_⟩
  · have hold : ∃ p ∈ s.state.refs, p.pid = q.pid ∧ p.buf = q.buf := by
      rcases List.mem_cons.mp hq with rfl | hq
      · exact ⟨r, hr, rfl, rfl⟩
      · exact ⟨q, List.mem_of_mem_erase hq, rfl, rfl⟩
    obtain ⟨p, hp, hpid, hbuf⟩ := hold
    have hsame := hend.sameKey (Or.inl (h.keys.refsOk.refcnt_pos hp))
    have hask := (h.asked p hp).trans hsame.key_eq.symm
    rw [hpid, hbuf] at hask
    exact hask
  · by_cases hir : i = r.buf
    · subst hir
      exact ⟨_, List.mem_cons_self, rfl, hst hi⟩
    · have hi' : s.unsaved i = true := hu i hir ▸ hi
      obtain ⟨q, hq, hbuf, hqst⟩ := h.changing i hi'
      have hne : q ≠ r := fun e => hir (hbuf ▸ congrArg Ref.buf e)
      exact ⟨q, List.mem_cons_of_mem _ ((List.mem_erase_of_ne hne).mpr hq), hbuf, hqst⟩
  · obtain ⟨rfl, hvalid, hsaved⟩ := hret q hq
    refine ⟨List.mem_cons_self, ?_, hsaved⟩
    simpa [CacheState.bufOf, CacheState.advance] using hvalid

/-- A change of the lock alone, or none. -/
theorem Coherent.touched (h : Coherent devOf s) {r : Ref} (hr : r ∈ s.state.refs) {st : Stage}
    (lk : Sleeplock) {returned : Option Ref}
    (hlock : lk.locked.toNat + r.stage.holdsLock.toNat =
      (s.state.bufOf r).lock.locked.toNat + st.holdsLock.toNat)
    (hst : s.unsaved r.buf = true → st.mayChange = true)
    (hret : ∀ q, returned = some q → q = { r with stage := st } ∧
      (s.state.bufOf r).valid = true ∧ s.unsaved r.buf = false) :
    Coherent devOf ⟨s.state.advance r st { s.state.bufOf r with lock := lk }, s.asked, s.written,
      s.unsaved, returned⟩ :=
  h.advance hr (h.content.touch ⟨rfl, rfl⟩ rfl rfl (h.keys.refsOk.refcnt_pos hr)) ⟨rfl, rfl⟩ rfl
    hlock (fun _ _ => rfl) hst hret

/-- The submission of a request, which makes the buffer invalid. -/
theorem Coherent.started (h : Coherent devOf s) {r : Ref} (hr : r ∈ s.state.refs) {st : Stage}
    (flags : BitVec 32) (hheld : r.stage.holdsLock = st.holdsLock)
    (hst : s.unsaved r.buf = true → st.mayChange = true) :
    Coherent devOf ⟨s.state.advance r st (virtioDiskRw { s.state.bufOf r with flags := flags }),
      s.asked, s.written, s.unsaved, none⟩ := by
  have hcontent : Content devOf
      (s.state.cache.set r.buf (virtioDiskRw { s.state.bufOf r with flags := flags }))
      s.state.disk s.written s.unsaved :=
    h.content.set (fun _ _ => rfl)
      (fun _ => h.content.dev_eq ⟨rfl, rfl⟩ (h.keys.refsOk.refcnt_pos hr))
      fun hv => absurd hv (by simp [virtioDiskRw_valid])
  refine h.advance hr hcontent ⟨rfl, rfl⟩ rfl ?_ (fun _ _ => rfl) hst
    (fun _ hq => absurd hq (by simp))
  rw [hheld]
  rfl

/-- A read that is complete. -/
theorem Coherent.filled (h : Coherent devOf s) {r : Ref} (hr : r ∈ s.state.refs)
    (hst : r.stage = .reading) :
    Coherent devOf ⟨s.state.advance r .holding { virtioDiskIntr (s.state.bufOf r) with
      data := s.state.disk (s.state.bufOf r).blockno }, s.asked, s.written, s.unsaved,
      some { r with stage := .holding }⟩ := by
  have huse := h.keys.refsOk.refcnt_pos hr
  have hsaved := h.saved hr (by rw [hst]; rfl) (by rw [hst]; rfl)
  have hvalid : (virtioDiskIntr (s.state.bufOf r)).valid = true := virtioDiskIntr_valid _
  refine h.advance hr ?_ ⟨rfl, rfl⟩ rfl ?_ (fun _ _ => rfl) (fun _ => rfl) fun q hq => ?_
  · exact h.content.set (fun _ _ => rfl) (fun _ => h.content.dev_eq ⟨rfl, rfl⟩ huse)
      fun _ _ => rfl
  · rw [hst]
    rfl
  · exact ⟨(Option.some.inj hq).symm, hvalid, hsaved⟩

/-- A write that is complete. -/
theorem Coherent.saves (h : Coherent devOf s) {r : Ref} (hr : r ∈ s.state.refs)
    (hst : r.stage = .writing) :
    Coherent devOf ⟨{ s.state.advance r .holding (virtioDiskIntr (s.state.bufOf r)) with
        disk := Function.update s.state.disk (s.state.bufOf r).blockno (s.state.bufOf r).data },
      s.asked, Function.update s.written (s.state.bufOf r).key (s.state.bufOf r).data,
      Function.update s.unsaved r.buf false, none⟩ := by
  have huse := h.keys.refsOk.refcnt_pos hr
  have hwrite := h.content.write h.keys.keyed huse
  refine h.advance hr ?_ ⟨rfl, rfl⟩ rfl ?_ (fun _ hj => Function.update_of_ne hj _ _)
    (fun _ => rfl) (fun _ hq => absurd hq (by simp))
  · refine hwrite.set (fun _ hj => Function.update_of_ne hj _ _)
      (fun _ => h.content.dev_eq ⟨rfl, rfl⟩ huse) fun _ _ => ?_
    exact (Function.update_self (s.state.bufOf r).blockno (s.state.bufOf r).data
      s.state.disk).symm
  · rw [hst]
    rfl

/-- A reference that is dropped. -/
theorem Coherent.dropped (h : Coherent devOf s) {r : Ref} (hr : r ∈ s.state.refs)
    (hst : r.stage = .unlocked) :
    Coherent devOf ⟨{ s.state with
        cache := bufDrop s.state.cache r.buf, refs := s.state.refs.erase r },
      s.asked, s.written, s.unsaved, none⟩ := by
  have hend : CacheState.StepEnd s.state _ := .dropped r hr
  refine ⟨h.keys.step hend, h.locks.dropped hr hst, ?_, fun q hq => ?_, fun i hi => ?_,
    fun _ hq => absurd hq (by simp)⟩
  · exact (h.content.touch (b := { s.state.bufOf r with refcnt := (s.state.bufOf r).refcnt - 1 })
      ⟨rfl, rfl⟩ rfl rfl (h.keys.refsOk.refcnt_pos hr)).congr (CacheState.bufDrop_bufs _ _)
  · have hq' := List.mem_of_mem_erase hq
    have hsame := hend.sameKey (Or.inl (h.keys.refsOk.refcnt_pos hq'))
    exact (h.asked q hq').trans hsame.key_eq.symm
  · obtain ⟨q, hq, hbuf, hqst⟩ := h.changing i hi
    have hne : q ≠ r := by
      rintro rfl
      rw [hst] at hqst
      exact absurd hqst (by decide)
    exact ⟨q, (List.mem_erase_of_ne hne).mpr hq, hbuf, hqst⟩

/-- A step that returns nothing and changes nothing. -/
theorem Coherent.quiet (h : Coherent devOf s) : Coherent devOf { s with returned := none } :=
  ⟨h.keys, h.locks, h.content, h.asked, h.changing, fun _ hr => absurd hr (by simp)⟩

/-- Pinning, and taking a pin back. -/
theorem Coherent.count (h : Coherent devOf s) {i : Fin nbuf} {n : Nat} {pins : Fin nbuf → Nat}
    (hend : CacheState.StepEnd s.state { s.state with
      cache := s.state.cache.set i { s.state.cache.bufs i with refcnt := n }, pins := pins })
    (huse : 0 < (s.state.cache.bufs i).refcnt) :
    Coherent devOf ⟨{ s.state with
      cache := s.state.cache.set i { s.state.cache.bufs i with refcnt := n }, pins := pins },
      s.asked, s.written, s.unsaved, none⟩ where
  keys := h.keys.step hend
  locks := h.locks.congr (CacheState.lock_set _ (by rfl)) fun _ => rfl
  content := h.content.touch ⟨rfl, rfl⟩ rfl rfl huse
  asked := fun r hr =>
    (h.asked r hr).trans (hend.sameKey (Or.inl (h.keys.refsOk.refcnt_pos hr))).key_eq.symm
  changing := h.changing
  returned := fun _ hq => absurd hq (by simp)

/-- `buf_get`: the buffer it returns is for the block asked for. -/
theorem Coherent.got (h : Coherent devOf s) (pid : Pid) {dev : BitVec 32} {blockno : BlockNo}
    (hdev : dev = devOf blockno) {c : Bcache} {o : Option (Fin nbuf)} {t : CacheState}
    (hget : Lithium.bufGet s.state.cache dev blockno = some (c, o))
    (ht : s.state.step (.bufGet pid dev blockno) = some t) :
    Coherent devOf { s.note (.bufGet pid dev blockno) with state := t } := by
  obtain ⟨hend, hkeyed⟩ := bufGet_spec h.keys.keyed hget
  rw [CacheState.step, hget, Option.map_some, Option.some.injEq] at ht
  rw [note, hget]
  cases o with
  | none =>
    cases hend with
    | null => exact ht ▸ h.quiet
  | some i =>
    have hstep : CacheState.StepEnd s.state t := ht ▸ .got pid dev blockno hend hkeyed
    have hlocks : t.LocksOk := ht ▸ h.locks.got pid hend
    subst ht
    refine ⟨h.keys.step hstep, hlocks, ?_, fun r hr => ?_, fun j hj => ?_,
      fun _ hq => absurd hq (by simp)⟩
    · cases hend with
      | hit _ hidev hiblockno =>
        refine h.content.set (fun _ _ => rfl) (fun _ => ?_) (h.content.cached i)
        exact hidev.trans (hiblockno ▸ hdev)
      | recycled =>
        exact h.content.set (fun _ _ => rfl) (fun _ => hdev)
          fun hv => absurd hv (by simp [Buf.valid])
    · by_cases hri : (r.pid, r.buf) = (pid, i)
      · have hkey : (c.bufs i).key = (dev, blockno) := by
          cases hend with
          | hit _ hidev hiblockno =>
            rw [Bcache.set_bufs_self]
            exact Prod.ext hidev hiblockno
          | recycled =>
            rw [Bcache.set_bufs_self]
            rfl
        have hbuf : r.buf = i := congrArg Prod.snd hri
        dsimp only [CacheState.bufOf]
        rw [hri, Function.update_self, ← hkey, hbuf]
      · have hold : r ∈ s.state.refs := by
          rcases List.mem_cons.mp hr with rfl | hr
          · exact absurd rfl hri
          · exact hr
        have hsame := hstep.sameKey (Or.inl (h.keys.refsOk.refcnt_pos hold))
        dsimp only
        rw [Function.update_of_ne hri]
        exact (h.asked r hold).trans hsame.key_eq.symm
    · obtain ⟨q, hq, hbuf⟩ := h.changing j hj
      exact ⟨q, List.mem_cons_of_mem _ hq, hbuf⟩

/-- The caller changes the data. -/
theorem Coherent.modified (h : Coherent devOf s) {r : Ref} (hr : r ∈ s.state.refs)
    (hst : r.stage = .holding) (data : Block) :
    Coherent devOf { s with
      state := s.state.advance r .holding { s.state.bufOf r with data := data }
      unsaved := Function.update s.unsaved r.buf true
      returned := none } := by
  have hcontent : Content devOf
      (s.state.cache.set r.buf { s.state.bufOf r with data := data }) s.state.disk s.written
      (Function.update s.unsaved r.buf true) :=
    h.content.set (fun _ hj => Function.update_of_ne hj _ _)
      (fun _ => h.content.dev_eq ⟨rfl, rfl⟩ (h.keys.refsOk.refcnt_pos hr))
      fun _ hsaved => absurd hsaved (by simp)
  refine h.advance hr hcontent ⟨rfl, rfl⟩ rfl ?_ (fun _ hj => Function.update_of_ne hj _ _)
    (fun _ => rfl) (fun _ hq => absurd hq (by simp))
  rw [hst]

/-- **One step.** -/
theorem Coherent.step (h : Coherent devOf s) {o : CacheOp} (hallowed : s.Allowed o)
    (hdev : UsesDev devOf o) (hs : s.step o = some s') : Coherent devOf s' := by
  obtain ⟨t, ht, rfl⟩ := Option.map_eq_some_iff.mp hs
  cases CacheState.step_to ht with
  | got pid hget => exact h.got pid hdev hget ht
  | missed pid hget => exact h.got pid hdev hget ht
  | locked r hr hst hlk =>
    rw [sleeplockAcquire, Option.ite_none_left_eq_some, Option.some.injEq] at hlk
    obtain ⟨hfree, rfl⟩ := hlk
    have hfree' : (s.state.bufOf r).lock.locked = false := by simpa using hfree
    change Coherent devOf ⟨_, s.asked, s.written, s.unsaved, none⟩
    refine h.touched hr _ ?_ (fun hu => ?_) (fun _ hq => absurd hq (by simp))
    · rw [hfree', hst]
      rfl
    · rw [h.saved_of_free hfree'] at hu
      exact absurd hu (by decide)
  | hit r hr hst hvalid =>
    have hsaved : s.unsaved r.buf = false :=
      h.saved hr (by rw [hst]; rfl) (by rw [hst]; rfl)
    change Coherent devOf ⟨_, s.asked, s.written, s.unsaved, if _ then _ else _⟩
    rw [if_pos hvalid]
    refine h.touched hr (s.state.bufOf r).lock ?_ (fun _ => rfl) (fun q hq => ?_)
    · rw [hst]
      rfl
    · exact ⟨(Option.some.inj hq).symm, hvalid, hsaved⟩
  | readStarted r hr hst hvalid =>
    have hsaved : s.unsaved r.buf = false :=
      h.saved hr (by rw [hst]; rfl) (by rw [hst]; rfl)
    change Coherent devOf ⟨_, s.asked, s.written, s.unsaved, if _ then _ else _⟩
    rw [if_neg hvalid]
    refine h.started hr (s.state.bufOf r).flags (by rw [hst]; rfl) (fun hu => ?_)
    rw [hsaved] at hu
    exact absurd hu (by decide)
  | modified r data hr hst => exact h.modified hr hst data
  | writeStarted r hr hst hb =>
    rw [Lithium.blockWrite, Option.ite_none_right_eq_some, Option.some.injEq] at hb
    obtain ⟨-, rfl⟩ := hb
    exact h.started hr _ (by rw [hst]; rfl) fun _ => rfl
  | notWritten => exact h.quiet
  | readDone r status hr hst =>
    obtain rfl : status = 0 := hallowed
    have hnote : s.note (.complete r 0) =
        { s with returned := some { r with stage := .holding } } := by
      rw [note, if_pos hst]
    rw [hnote]
    exact h.filled hr hst
  | writeDone r status hr hst =>
    obtain rfl : status = 0 := hallowed
    have hread : ¬ r.stage = .reading := by
      rw [hst]
      decide
    have hnote : s.note (.complete r 0) =
        { s with
          written := Function.update s.written (s.state.bufOf r).key (s.state.bufOf r).data
          unsaved := Function.update s.unsaved r.buf false
          returned := none } := by
      rw [note, if_neg hread, if_pos rfl]
    rw [hnote]
    exact h.saves hr hst
  | unlocked r hr hst =>
    have hlocked := h.locks.locked hr (by rw [hst]; rfl)
    change Coherent devOf ⟨_, s.asked, s.written, s.unsaved, none⟩
    refine h.touched hr _ ?_ (fun hu => ?_) (fun _ hq => absurd hq (by simp))
    · rw [hlocked, hst]
      rfl
    · rw [show s.unsaved r.buf = false from hallowed] at hu
      exact absurd hu (by decide)
  | notUnlocked => exact h.quiet
  | dropped r hr hst => exact h.dropped hr hst
  | pinned r hr => exact h.count (.pinned r hr) (h.keys.refsOk.refcnt_pos hr)
  | unpinned i hi =>
    refine h.count (.unpinned i hi) ?_
    rw [h.keys.counted]
    omega

/-- **The cache is transparent**, in every run that uses each block under one device number. -/
theorem always_transparent (devOf : BlockNo → BitVec 32) (disk : Disk) (os : List CacheOp)
    (hos : Transition.EachStep step (fun s o => s.Allowed o ∧ UsesDev devOf o) (init disk) os) :
    Transition.Always step Transparent (init disk) os :=
  Transition.Always.mono (fun _ => Coherent.transparent)
    (Transition.always_of_eachStep (fun _ _ _ h ho hs => h.step ho.1 ho.2 hs) os _
      (Coherent.init devOf disk) hos)

/-- A block is read, filled, written, released, and read again. -/
theorem always_transparent_reread :
    Transition.Always step Transparent (init fun _ _ => 0)
      (readBlock 1 0 ++ fillBlock 0 ++ [.bufGet 2 1 5, .lock ⟨2, 0, .waiting⟩,
        .blockRead ⟨2, 0, .locked⟩]) :=
  always_transparent (fun _ => 1) _ _ (by decide +kernel)

end Observed

end Lithium
