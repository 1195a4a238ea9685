/-
# The driver of the disk

The functions of `virtio_disk.c` over its static data: the descriptor table, the two rings it
shares with the device, and `info`, where a descriptor is free when its buffer is `NULL`.  The
buffers are of any type `B`; a pointer to one is an `Option B`.

The indices of descriptors are C ints here, as `idx[3]` in `virtio_disk_rw` is, with any values at
first.  Section 3 says what one pass of its allocation loop does.
-/
import Lithium.Fs.BlockCache
import Lithium.Lib.Circular
import Mathlib.Data.Fin.VecNotation
import Mathlib.Data.Fintype.Card
import Mathlib.Tactic.FinCases

namespace Lithium

open Circular

/-! ## 1. Data -/

/-- `VIRTIO_RING_SIZE`. -/
abbrev ringSize : Nat := 8

instance : NeZero ringSize := ⟨by decide⟩

/-- An index of the arrays of `VIRTIO_RING_SIZE` elements. -/
abbrev DescId := Fin ringSize

/-- What the `addr` of a descriptor points to. -/
inductive DescAddr (B : Type*) where
  | null
  | op (i : DescId)
  | data (b : B)
  | status (i : DescId)

/-- `struct virtq_desc`. -/
structure VirtqDesc (B : Type*) where
  addr : DescAddr B
  len : BitVec 32
  flags : BitVec 16
  next : BitVec 16

/-- `struct virtq_avail`. -/
structure VirtqAvail where
  idx : BitVec 16
  ring : DescId → BitVec 16

/-- `struct virtq_used_elem`. -/
structure VirtqUsedElem where
  id : BitVec 32
  len : BitVec 32

/-- `struct virtq_used`. -/
structure VirtqUsed where
  idx : BitVec 16
  ring : DescId → VirtqUsedElem

/-- `struct virtio_blk_req`. -/
structure VirtioBlkReq where
  type : BitVec 32
  reserved : BitVec 32
  sector : BitVec 64

/-- An element of `info`. -/
structure DiskInfo (B : Type*) where
  b : Option B
  status : BitVec 8

/-- The static data of `virtio_disk.c`, and the buffers. -/
structure VirtioDisk (B : Type*) where
  desc : DescId → VirtqDesc B
  avail : VirtqAvail
  used : VirtqUsed
  info : DescId → DiskInfo B
  ops : DescId → VirtioBlkReq
  /-- The static `used_idx` of `virtio_disk_intr`. -/
  usedIdx : BitVec 16
  bufs : B → Buf

/-- `VIRTQ_DESC_F_NEXT`. -/
def descNext : BitVec 16 := 1

/-- `VIRTQ_DESC_F_WRITE`. -/
def descWrite : BitVec 16 := 2

/-- The element of an array that a C int means. -/
def descAt (a : Int) : DescId := Fin.ofNat ringSize a.toNat

@[simp] theorem descAt_val (i : DescId) : descAt (i.val : Int) = i := by
  rw [descAt, Int.toNat_natCast]
  exact Fin.ofNat_val_eq_self i

/-! ## 2. `virtio_disk.c` -/

namespace VirtioDisk

variable {B : Type*}

/-- `idx` has three elements. -/
scoped instance : NeZero 3 := ⟨by decide⟩

/-- The data as the loader leaves them, zeroed. -/
def boot (bufs : B → Buf) : VirtioDisk B where
  desc := fun _ => ⟨.null, 0, 0, 0⟩
  avail := ⟨0, fun _ => 0⟩
  used := ⟨0, fun _ => ⟨0, 0⟩⟩
  info := fun _ => ⟨none, 0⟩
  ops := fun _ => ⟨0, 0, 0⟩
  usedIdx := 0
  bufs := bufs

/-- `alloc_desc`. -/
def allocDesc (d : VirtioDisk B) : Int :=
  match (List.finRange ringSize).find? fun i => (d.info i).b.isNone with
  | some i => i.val
  | none => -1

/-- `info[a].b = b`. -/
def setInfo (d : VirtioDisk B) (a : Int) (b : Option B) : VirtioDisk B :=
  { d with info := Function.update d.info (descAt a) { d.info (descAt a) with b := b } }

/-- `free_desc`, without its wakeup. -/
def freeDesc (d : VirtioDisk B) (a : Int) : VirtioDisk B :=
  { d with desc := Function.update d.desc (descAt a) ⟨.null, 0, 0, 0⟩ }.setInfo a none

/-- What one pass of the allocation loop leaves: the data, `idx`, and `ok`; and which descriptors
it marked and which elements of `idx` it assigned. -/
structure Attempt (B : Type*) where
  disk : VirtioDisk B
  idx : Fin 3 → Int
  ok : Bool
  marked : List Int
  assigned : List (Fin 3)

/-- The first `for` loop of `virtio_disk_rw`, over the elements of `idx` that are left. -/
def allocLoop (d : VirtioDisk B) (b : B) (idx : Fin 3 → Int) : List (Fin 3) → Attempt B
  | [] => ⟨d, idx, true, [], []⟩
  | i :: is =>
    let a := d.allocDesc
    if a < 0 then ⟨d, Function.update idx i a, false, [], [i]⟩
    else
      let r := (d.setInfo a (some b)).allocLoop b (Function.update idx i a) is
      { r with marked := a :: r.marked, assigned := i :: r.assigned }

/-- One pass of the allocation. -/
def tryAlloc (d : VirtioDisk B) (b : B) (idx : Fin 3 → Int) : Attempt B :=
  d.allocLoop b idx [0, 1, 2]

/-- The descriptors that the second `for` loop frees: `if (idx[i] >= 0) free_desc(idx[i])`. -/
def toFree (idx : Fin 3 → Int) : List Int := ([0, 1, 2].map idx).filter fun a => decide (0 ≤ a)

/-- The second `for` loop, when an allocation has failed. -/
def rollback (d : VirtioDisk B) (idx : Fin 3 → Int) : VirtioDisk B := (toFree idx).foldl freeDesc d

/-- `virtio_disk_rw` from the allocation of the descriptors to the notification of the device. -/
def submit [DecidableEq B] (d : VirtioDisk B) (b : B) (write : Bool) (idx : Fin 3 → Int) :
    VirtioDisk B :=
  let header : VirtqDesc B := ⟨.op (descAt (idx 0)), 16, descNext, BitVec.ofInt 16 (idx 1)⟩
  let data : VirtqDesc B :=
    ⟨.data b, BitVec.ofNat 32 bsize, (if write then 0 else descWrite) ||| descNext,
      BitVec.ofInt 16 (idx 2)⟩
  let status : VirtqDesc B := ⟨.status (descAt (idx 0)), 1, descWrite, 0⟩
  { d with
    ops := Function.update d.ops (descAt (idx 0))
      { type := if write then 1 else 0
        reserved := 0
        sector := ((d.bufs b).blockno * BitVec.ofNat 32 (bsize / 512)).setWidth 64 }
    desc := Function.update (Function.update (Function.update d.desc (descAt (idx 0)) header)
      (descAt (idx 1)) data) (descAt (idx 2)) status
    info := Function.update d.info (descAt (idx 0)) ⟨some b, 0xff⟩
    bufs := Function.update d.bufs b (virtioDiskRw (d.bufs b))
    avail :=
      { idx := d.avail.idx + 1
        ring := Function.update d.avail.ring (slot ringSize d.avail.idx)
          (BitVec.ofInt 16 (idx 0)) } }

/-- `virtio_disk_rw` after its wait loop. -/
def finish (d : VirtioDisk B) (idx : Fin 3 → Int) : VirtioDisk B :=
  (((d.setInfo (idx 0) none).freeDesc (idx 0)).freeDesc (idx 1)).freeDesc (idx 2)

/-- One pass of the loop of `virtio_disk_intr`, and the buffer it marks. -/
def intrPass [DecidableEq B] (d : VirtioDisk B) : VirtioDisk B × Option B :=
  let id : Int := (d.used.ring (slot ringSize d.usedIdx)).id.toInt
  match (d.info (descAt id)).b with
  | some b =>
    ({ d with
       bufs := Function.update d.bufs b (virtioDiskIntr (d.bufs b))
       usedIdx := d.usedIdx + 1 }, some b)
  | none => ({ d with usedIdx := d.usedIdx + 1 }, none)

/-- The loop of `virtio_disk_intr`, for so many passes at most. -/
def intrLoop [DecidableEq B] (d : VirtioDisk B) : Nat → VirtioDisk B × List (Option B)
  | 0 => (d, [])
  | n + 1 =>
    if d.usedIdx = d.used.idx then (d, [])
    else
      let (d, b) := d.intrPass
      let (d, bs) := d.intrLoop n
      (d, b :: bs)

/-- `virtio_disk_intr`: `used_idx` meets `used.idx` after as many passes as they are apart. -/
def intr [DecidableEq B] (d : VirtioDisk B) : VirtioDisk B × List (Option B) :=
  d.intrLoop (d.used.idx - d.usedIdx).toNat

/-! ## 3. Allocation -/

/-- `alloc_desc` returns a free descriptor, or -1 when there is none. -/
theorem allocDesc_cases (d : VirtioDisk B) :
    (d.allocDesc = -1 ∧ ∀ i, (d.info i).b ≠ none) ∨
      ∃ i : DescId, d.allocDesc = i.val ∧ (d.info i).b = none := by
  rw [allocDesc]
  cases hfind : (List.finRange ringSize).find? fun i => (d.info i).b.isNone with
  | none =>
    refine Or.inl ⟨rfl, fun i hi => ?_⟩
    exact List.find?_eq_none.mp hfind i (List.mem_finRange i) (by simp [hi])
  | some i =>
    have hfree := List.find?_some hfind
    exact Or.inr ⟨i, rfl, by simpa using hfree⟩

theorem setInfo_info (d : VirtioDisk B) (i : DescId) (b : Option B) (j : DescId) :
    ((d.setInfo i.val b).info j).b = if j = i then b else (d.info j).b := by
  rw [setInfo, descAt_val]
  dsimp only
  by_cases hj : j = i
  · subst hj
    rw [Function.update_self, if_pos rfl]
  · rw [Function.update_of_ne hj, if_neg hj]

theorem freeDesc_info (d : VirtioDisk B) (i j : DescId) :
    ((d.freeDesc i.val).info j).b = if j = i then none else (d.info j).b :=
  setInfo_info _ i none j

/-- What the functions that take and free descriptors leave alone. -/
structure SameRings (d d' : VirtioDisk B) : Prop where
  avail : d'.avail = d.avail
  used : d'.used = d.used
  usedIdx : d'.usedIdx = d.usedIdx
  bufs : d'.bufs = d.bufs

theorem SameRings.refl (d : VirtioDisk B) : SameRings d d := ⟨rfl, rfl, rfl, rfl⟩

theorem SameRings.trans {d₁ d₂ d₃ : VirtioDisk B} (h : SameRings d₁ d₂) (h' : SameRings d₂ d₃) :
    SameRings d₁ d₃ :=
  ⟨h'.avail.trans h.avail, h'.used.trans h.used, h'.usedIdx.trans h.usedIdx, h'.bufs.trans h.bufs⟩

theorem setInfo_sameRings (d : VirtioDisk B) (a : Int) (b : Option B) :
    SameRings d (d.setInfo a b) :=
  ⟨rfl, rfl, rfl, rfl⟩

theorem freeDesc_sameRings (d : VirtioDisk B) (a : Int) : SameRings d (d.freeDesc a) :=
  ⟨rfl, rfl, rfl, rfl⟩

/-- What an attempt to allocate the elements `is` of `idx` does: it marks the free descriptors `ms`.
When it fails, none is left, and the last element it assigned is negative. -/
structure AllocSpec (d : VirtioDisk B) (b : B) (is : List (Fin 3)) (r : Attempt B)
    (ms : List DescId) : Prop where
  rings : SameRings d r.disk
  marked : r.marked = ms.map fun i => (i.val : Int)
  nodup : ms.Nodup
  free : ∀ i ∈ ms, (d.info i).b = none
  info : ∀ i, (r.disk.info i).b = if i ∈ ms then some b else (d.info i).b
  done : r.ok = true → is.map r.idx = ms.map fun i => (i.val : Int)
  failed : r.ok = false → ms.length < is.length ∧ (∀ i, (r.disk.info i).b ≠ none) ∧
    r.assigned = is.take (ms.length + 1) ∧
    r.assigned.map r.idx = (ms.map fun i => (i.val : Int)) ++ [-1]

theorem allocLoop_idx (b : B) : ∀ (is : List (Fin 3)) (d : VirtioDisk B) (idx : Fin 3 → Int)
    (j : Fin 3), j ∉ is → (d.allocLoop b idx is).idx j = idx j
  | [], _, _, _, _ => rfl
  | i :: is, d, idx, j, hj => by
    rw [List.mem_cons, not_or] at hj
    rw [allocLoop]
    dsimp only
    split
    · exact Function.update_of_ne hj.1 _ _
    · dsimp only
      rw [allocLoop_idx b is _ _ j hj.2, Function.update_of_ne hj.1]

/-- **The allocation loop.** -/
theorem allocLoop_spec (b : B) : ∀ (is : List (Fin 3)), is.Nodup → ∀ (d : VirtioDisk B)
    (idx : Fin 3 → Int), ∃ ms, AllocSpec d b is (d.allocLoop b idx is) ms
  | [], _, d, idx => ⟨[], .refl d, rfl, List.nodup_nil, by simp, by simp [allocLoop], fun _ => rfl,
      fun h => absurd h (by simp [allocLoop])⟩
  | i :: is, hnd, d, idx => by
    obtain ⟨hi, hnd'⟩ := List.nodup_cons.mp hnd
    rw [allocLoop]
    rcases d.allocDesc_cases with ⟨ha, hnone⟩ | ⟨m, ha, hm⟩
    · rw [ha, if_pos (by decide)]
      refine ⟨[], .refl d, rfl, List.nodup_nil, by simp, by simp, fun h => absurd h (by simp),
        fun _ => ⟨by simp, hnone, by simp, by simp⟩⟩
    · have hneg : ¬ (m.val : Int) < 0 := by omega
      rw [ha, if_neg hneg]
      obtain ⟨ms, h⟩ := allocLoop_spec b is hnd' (d.setInfo m.val (some b))
        (Function.update idx i m.val)
      have hidx : ((d.setInfo m.val (some b)).allocLoop b (Function.update idx i m.val) is).idx i =
          m.val := by
        rw [allocLoop_idx b is _ _ i hi, Function.update_self]
      have hms : m ∉ ms := fun hmem => by
        have hfree := h.free m hmem
        rw [setInfo_info, if_pos rfl] at hfree
        exact absurd hfree (by simp)
      refine ⟨m :: ms, (setInfo_sameRings d _ _).trans h.rings, ?_,
        List.nodup_cons.mpr ⟨hms, h.nodup⟩, fun j hj => ?_, fun j => ?_, fun hok => ?_,
        fun hok => ?_⟩
      · exact congrArg (_ :: ·) h.marked
      · rcases List.mem_cons.mp hj with rfl | hj
        · exact hm
        · have hne : j ≠ m := fun e => hms (e ▸ hj)
          have hfree := h.free j hj
          rwa [setInfo_info, if_neg hne] at hfree
      · have hinfo := h.info j
        rw [setInfo_info] at hinfo
        by_cases hjm : j = m
        · subst hjm
          rw [if_pos List.mem_cons_self]
          rw [if_neg hms, if_pos rfl] at hinfo
          exact hinfo
        · have hmem : j ∈ m :: ms ↔ j ∈ ms := by simp [hjm]
          rw [if_neg hjm] at hinfo
          simpa only [hmem] using hinfo
      · have hdone := h.done hok
        rw [List.map_cons, List.map_cons, hdone]
        exact congrArg (· :: _) hidx
      · obtain ⟨hlen, hnone, hassigned, hvals⟩ := h.failed hok
        refine ⟨by simpa using hlen, hnone, ?_, ?_⟩
        · exact congrArg (i :: ·) hassigned
        · rw [List.map_cons, List.map_cons, hvals]
          exact congrArg (· :: _) hidx

/-- The descriptors in use. -/
def inUse (d : VirtioDisk B) : Finset DescId := Finset.univ.filter fun i => (d.info i).b.isSome

theorem mem_inUse {d : VirtioDisk B} {i : DescId} : i ∈ d.inUse ↔ (d.info i).b ≠ none := by
  rw [inUse, Finset.mem_filter, Option.isSome_iff_ne_none]
  exact and_iff_right (Finset.mem_univ i)

/-- A failed attempt has marked all descriptors that were free. -/
theorem AllocSpec.card {d : VirtioDisk B} {b : B} {is : List (Fin 3)} {r : Attempt B}
    {ms : List DescId} (h : AllocSpec d b is r ms) (hfail : r.ok = false) :
    ms.length + d.inUse.card = ringSize := by
  have hdisj : Disjoint ms.toFinset d.inUse := by
    rw [Finset.disjoint_left]
    intro i hi huse
    exact mem_inUse.mp huse (h.free i (List.mem_toFinset.mp hi))
  have hall : ms.toFinset ∪ d.inUse = Finset.univ := by
    refine Finset.eq_univ_of_forall fun i => ?_
    rw [Finset.mem_union, List.mem_toFinset, mem_inUse]
    by_contra hnot
    rw [not_or, not_not] at hnot
    have hsome := (h.failed hfail).2.1 i
    rw [h.info, if_neg hnot.1] at hsome
    exact hsome hnot.2
  rw [← List.toFinset_card_of_nodup h.nodup, ← Finset.card_union_of_disjoint hdisj, hall]
  rfl

theorem foldl_freeDesc_info : ∀ (ms : List DescId) (d : VirtioDisk B) (i : DescId),
    (((ms.map fun i => (i.val : Int)).foldl freeDesc d).info i).b =
      if i ∈ ms then none else (d.info i).b
  | [], _, _ => by simp
  | m :: ms, d, i => by
    rw [List.map_cons, List.foldl_cons, foldl_freeDesc_info ms, freeDesc_info]
    by_cases him : i = m
    · simp [him]
    · simp [him]

theorem foldl_freeDesc_sameRings : ∀ (as : List Int) (d : VirtioDisk B),
    SameRings d (as.foldl freeDesc d)
  | [], d => .refl d
  | a :: as, d => (freeDesc_sameRings d a).trans (foldl_freeDesc_sameRings as _)

/-- **A failed attempt, when the descriptors in use come in threes**: two were free, all of `idx`
has been assigned, and the descriptors that are freed again are those marked. -/
theorem tryAlloc_failed {d : VirtioDisk B} (hthree : 3 ∣ d.inUse.card) (b : B) (idx : Fin 3 → Int)
    (hfail : (d.tryAlloc b idx).ok = false) :
    (d.tryAlloc b idx).assigned = [0, 1, 2] ∧
      toFree (d.tryAlloc b idx).idx = (d.tryAlloc b idx).marked ∧
      ∀ i, (((d.tryAlloc b idx).disk.rollback (d.tryAlloc b idx).idx).info i).b = (d.info i).b := by
  obtain ⟨ms, h⟩ := allocLoop_spec b [0, 1, 2] (by decide) d idx
  change AllocSpec d b [0, 1, 2] (d.tryAlloc b idx) ms at h
  obtain ⟨hlen, -, hassigned, hvals⟩ := h.failed hfail
  have htwo : ms.length = 2 := by
    have hcard : ms.length + d.inUse.card = 8 := h.card hfail
    have hlen' : ms.length < 3 := hlen
    omega
  have hall : (d.tryAlloc b idx).assigned = [0, 1, 2] := by
    rw [hassigned, htwo]
    rfl
  have hfree : toFree (d.tryAlloc b idx).idx = (d.tryAlloc b idx).marked := by
    rw [hall] at hvals
    rw [toFree, hvals, h.marked, List.filter_append]
    simp
  refine ⟨hall, hfree, fun i => ?_⟩
  rw [rollback, hfree, h.marked, foldl_freeDesc_info, h.info]
  by_cases hi : i ∈ ms
  · rw [if_pos hi, h.free i hi]
  · rw [if_neg hi, if_neg hi]

theorem rollback_sameRings (d : VirtioDisk B) (idx : Fin 3 → Int) :
    SameRings d (d.rollback idx) := foldl_freeDesc_sameRings _ _

theorem tryAlloc_sameRings (d : VirtioDisk B) (b : B) (idx : Fin 3 → Int) :
    SameRings d (d.tryAlloc b idx).disk := by
  obtain ⟨ms, h⟩ := allocLoop_spec b [0, 1, 2] (by decide) d idx
  exact h.rings

/-- The values of `idx` are the descriptors `i`. -/
def Descs (idx : Fin 3 → Int) (i : Fin 3 → DescId) : Prop := ∀ j, idx j = (i j).val

theorem Descs.eq_of_val {idx : Fin 3 → Int} {i : Fin 3 → DescId} (h : Descs idx i) {j : Fin 3}
    {m : DescId} (hm : idx j = m.val) : i j = m := by
  have hval : ((i j).val : Int) = m.val := (h j).symm.trans hm
  exact Fin.ext (by exact_mod_cast hval)

/-- **A successful attempt** has marked three free descriptors. -/
theorem tryAlloc_ok {d : VirtioDisk B} (b : B) (idx : Fin 3 → Int)
    (hok : (d.tryAlloc b idx).ok = true) :
    ∃ i, Descs (d.tryAlloc b idx).idx i ∧ Function.Injective i ∧ (∀ j, (d.info (i j)).b = none) ∧
      (∀ j, ((d.tryAlloc b idx).disk.info (i j)).b = some b) ∧
      ∀ m, (∀ j, m ≠ i j) → ((d.tryAlloc b idx).disk.info m).b = (d.info m).b := by
  obtain ⟨ms, h⟩ := allocLoop_spec b [0, 1, 2] (by decide) d idx
  change AllocSpec d b [0, 1, 2] (d.tryAlloc b idx) ms at h
  have hvals := h.done hok
  have hlen : ms.length = 3 := by simpa using (congrArg List.length hvals).symm
  obtain ⟨x, y, z, rfl⟩ := List.length_eq_three.mp hlen
  simp only [List.map_cons, List.map_nil, List.cons.injEq, and_true] at hvals
  obtain ⟨h0, h1, h2⟩ := hvals
  have hnd := h.nodup
  simp only [List.nodup_cons, List.mem_cons, List.not_mem_nil, or_false, not_or,
    List.nodup_nil, and_true, not_false_eq_true] at hnd
  have hmem : ∀ j : Fin 3, ![x, y, z] j ∈ [x, y, z] := by
    intro j
    fin_cases j <;> simp
  refine ⟨![x, y, z], fun j => ?_, ?_, fun j => h.free _ (hmem j), fun j => ?_, fun m hm => ?_⟩
  · fin_cases j
    · exact h0
    · exact h1
    · exact h2
  · intro j k hjk
    fin_cases j <;> fin_cases k <;> simp_all
  · rw [h.info, if_pos (hmem j)]
  · have hnot : m ∉ [x, y, z] := by
      simpa using ⟨hm 0, hm 1, hm 2⟩
    rw [h.info, if_neg hnot]

/-- Freeing the descriptors of a request. -/
theorem finish_info (d : VirtioDisk B) {idx : Fin 3 → Int} {i : Fin 3 → DescId}
    (h : Descs idx i) (m : DescId) :
    ((d.finish idx).info m).b = if ∃ j, m = i j then none else (d.info m).b := by
  rw [finish, h 0, h 1, h 2, freeDesc_info, freeDesc_info, freeDesc_info, setInfo_info]
  by_cases h0 : m = i 0
  · have hsome : ∃ j, m = i j := ⟨0, h0⟩
    rw [if_pos hsome]
    simp [h0]
  · by_cases h1 : m = i 1
    · have hsome : ∃ j, m = i j := ⟨1, h1⟩
      rw [if_pos hsome]
      simp [h1]
    · by_cases h2 : m = i 2
      · have hsome : ∃ j, m = i j := ⟨2, h2⟩
        rw [if_pos hsome]
        simp [h2]
      · have hnone : ¬ ∃ j, m = i j := by
          rintro ⟨j, hj⟩
          fin_cases j
          · exact h0 hj
          · exact h1 hj
          · exact h2 hj
        rw [if_neg hnone, if_neg h2, if_neg h1, if_neg h0, if_neg h0]

theorem finish_sameRings (d : VirtioDisk B) (idx : Fin 3 → Int) : SameRings d (d.finish idx) :=
  ⟨rfl, rfl, rfl, rfl⟩

/-- Submitting a request marks no other descriptor. -/
theorem submit_info [DecidableEq B] {d : VirtioDisk B} {b : B} {write : Bool} {idx : Fin 3 → Int}
    {i : Fin 3 → DescId} (h : Descs idx i) (hi : (d.info (i 0)).b = some b) (m : DescId) :
    ((d.submit b write idx).info m).b = (d.info m).b := by
  rw [submit, h 0]
  dsimp only
  rw [descAt_val]
  by_cases hm : m = i 0
  · rw [hm, Function.update_self, hi]
  · rw [Function.update_of_ne hm]

end VirtioDisk

end Lithium
