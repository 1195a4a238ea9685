/-
# The disk is atomic

`VirtioRings.lean` counts requests; here they move data.  The device finds a request by following
the descriptors from the head it read in the ring: what kind it is and which sector, in the header
in `ops`, and where the block goes to or comes from.  Meanwhile other processes take and free
descriptors, and fill `ops`.

Whatever they do, the processes together see a disk that carries out each call of `virtio_disk_rw`
at one instant between its start and its return (section 2 says which disk that is, section 5 that
the driver and the device behave like it).  The device is assumed to complete a request only after
it has moved the block, and those who do not have a buffer in the driver may do with it what they
like.
-/
import Lithium.Fs.VirtioRings

namespace Lithium

open Circular VirtioDisk

/-! ## 1. The device moves the blocks -/

/-- What the device understands of a request. -/
structure BlkRequest (B : Type*) where
  write : Bool
  sector : BitVec 64
  buf : B

/-- The sector of a block, as `virtio_disk_rw` computes it. -/
def sectorOf (n : BlockNo) : BitVec 64 := (n * BitVec.ofNat 32 (bsize / 512)).setWidth 64

/-- A block is a sector. -/
theorem sectorOf_injective : Function.Injective sectorOf := by
  intro m n h
  have hone : BitVec.ofNat 32 (bsize / 512) = 1#32 := by decide
  rw [sectorOf, sectorOf, hone, BitVec.mul_one, BitVec.mul_one] at h
  have hnat := congrArg BitVec.toNat h
  rw [BitVec.toNat_setWidth_of_le (by decide), BitVec.toNat_setWidth_of_le (by decide)] at hnat
  exact BitVec.eq_of_toNat_eq hnat

namespace VirtioDisk

variable {B : Type*}

/-- The device reads a request, from its head: a header, a block to be read or written as the header
says, and a byte for the status.  It can make nothing of any other chain. -/
def request? (d : VirtioDisk B) (head : BitVec 16) : Option (BlkRequest B) :=
  let header := d.follow head
  let data := d.follow header.next
  let status := d.follow data.next
  match header.addr, data.addr, status.addr with
  | .op i, .data b, .status _ =>
    if header.flags = descNext ∧ header.len = 16 ∧ data.len = BitVec.ofNat 32 bsize ∧
        status.flags = descWrite ∧ status.len = 1 then
      if (d.ops i).type = 1 ∧ data.flags = descNext then some ⟨true, (d.ops i).sector, b⟩
      else if (d.ops i).type = 0 ∧ data.flags = descWrite ||| descNext then
        some ⟨false, (d.ops i).sector, b⟩
      else none
    else none
  | _, _, _ => none

/-- The device writes into a buffer. -/
def fill [DecidableEq B] (d : VirtioDisk B) (b : B) (data : Block) : VirtioDisk B :=
  { d with bufs := Function.update d.bufs b { d.bufs b with data := data } }

end VirtioDisk

/-- The driver with the device and its sectors; `transferred` are the requests whose blocks have
been moved. -/
structure ServedState (T B : Type*) where
  driver : DiskState T B
  sectors : BitVec 64 → Block
  transferred : List Nat

inductive ServedOp (T B : Type*) where
  | driver (o : DiskOp T B)
  /-- The device moves the block of one of the requests it works on. -/
  | transfer (j : Nat)
  /-- A buffer that is not in the driver is changed in any way. -/
  | edit (b : B) (x : Buf)

/-- What the callers see: their calls, the data that each returns with, and what they do with
buffers otherwise. -/
inductive DiskEvent (T B : Type*) where
  | called (t : T) (b : B) (write : Bool)
  | returned (t : T) (data : Block)
  | edited (b : B) (data : Block) (blockno : BlockNo)

namespace ServedState

variable {T B : Type*} [DecidableEq T] [DecidableEq B]

/-- The device moves a block, once for each request. -/
def transfer (s : ServedState T B) (j : Nat) : Option (ServedState T B) :=
  (s.driver.taken[j]?).bind fun p =>
    if s.transferred.contains p.1 then none
    else
      (s.driver.disk.request? p.2).map fun r =>
        if r.write then
          { s with
            sectors := Function.update s.sectors r.sector (s.driver.disk.bufs r.buf).data
            transferred := s.transferred ++ [p.1] }
        else
          { s with
            driver := { s.driver with disk := s.driver.disk.fill r.buf (s.sectors r.sector) }
            transferred := s.transferred ++ [p.1] }

/-- The device completes a request when its block has been moved. -/
def ready (s : ServedState T B) : DiskOp T B → Bool
  | .complete j _ _ => ((s.driver.taken[j]?).map fun p => s.transferred.contains p.1).getD false
  | _ => true

def step (s : ServedState T B) : ServedOp T B → Option (ServedState T B)
  | .driver o =>
    if s.ready o then (s.driver.step o).map fun d => { s with driver := d } else none
  | .transfer j => s.transfer j
  | .edit b x =>
    if s.driver.busy b then none
    else
      some { s with driver :=
        { s.driver with
          disk := { s.driver.disk with bufs := Function.update s.driver.disk.bufs b x } } }

def init (bufs : B → Buf) (sectors : BitVec 64 → Block) : ServedState T B :=
  { driver := .init bufs, sectors := sectors, transferred := [] }

omit [DecidableEq T] [DecidableEq B] in
/-- What the callers see of a step. -/
def event? (s : ServedState T B) : ServedOp T B → Option (DiskEvent T B)
  | .driver (.rw t b write _) => some (.called t b write)
  | .driver (.resume t) =>
    match s.driver.phase t with
    | .waiting w false =>
      if (s.driver.disk.bufs w.buf).valid then
        some (.returned t (s.driver.disk.bufs w.buf).data)
      else none
    | _ => none
  | .edit b x => some (.edited b x.data x.blockno)
  | .driver (.wake _) | .driver .consume | .driver (.complete _ _ _) | .driver .intr
  | .transfer _ => none

end ServedState

/-! ## 2. A disk that serves each call at once -/

/-- Where a call is. -/
inductive DiskCall (B : Type*) where
  | idle
  | asked (b : B) (write : Bool)
  | served (b : B)

/-- The disk, the data and the block number of each buffer, and the calls; `busy` are the buffers of
calls. -/
structure AtomicDisk (T B : Type*) where
  disk : BlockNo → Block
  data : B → Block
  blockno : B → BlockNo
  busy : B → Bool
  call : T → DiskCall B

inductive AtomicOp (T B : Type*) where
  | call (t : T) (b : B) (write : Bool)
  /-- The instant at which the call takes effect. -/
  | serve (t : T)
  | ret (t : T)
  | edit (b : B) (data : Block) (blockno : BlockNo)

namespace AtomicDisk

variable {T B : Type*} [DecidableEq T] [DecidableEq B]

def step (s : AtomicDisk T B) : AtomicOp T B → Option (AtomicDisk T B)
  | .call t b write =>
    match s.call t with
    | .idle =>
      if s.busy b then none
      else
        some { s with
          busy := Function.update s.busy b true
          call := Function.update s.call t (.asked b write) }
    | _ => none
  | .serve t =>
    match s.call t with
    | .asked b true =>
      some { s with
        disk := Function.update s.disk (s.blockno b) (s.data b)
        call := Function.update s.call t (.served b) }
    | .asked b false =>
      some { s with
        data := Function.update s.data b (s.disk (s.blockno b))
        call := Function.update s.call t (.served b) }
    | _ => none
  | .ret t =>
    match s.call t with
    | .served b =>
      some { s with
        busy := Function.update s.busy b false
        call := Function.update s.call t .idle }
    | _ => none
  | .edit b data blockno =>
    if s.busy b then none
    else
      some { s with
        data := Function.update s.data b data
        blockno := Function.update s.blockno b blockno }

omit [DecidableEq T] [DecidableEq B] in
/-- What the callers see of a step. -/
def event? (s : AtomicDisk T B) : AtomicOp T B → Option (DiskEvent T B)
  | .call t b write => some (.called t b write)
  | .serve _ => none
  | .ret t =>
    match s.call t with
    | .served b => some (.returned t (s.data b))
    | _ => none
  | .edit b data blockno => some (.edited b data blockno)

end AtomicDisk

/-! ## 3. What the driver leaves alone -/

namespace VirtioDisk

variable {B : Type*} {d d' : VirtioDisk B}

/-- The requests at the descriptors that `P` picks stay as they are. -/
structure SameChains (P : DescId → Prop) (d d' : VirtioDisk B) : Prop where
  desc : ∀ m, P m → d'.desc m = d.desc m
  ops : ∀ m, P m → d'.ops m = d.ops m

theorem SameChains.refl (P : DescId → Prop) (d : VirtioDisk B) : SameChains P d d :=
  ⟨fun _ _ => rfl, fun _ _ => rfl⟩

theorem SameChains.trans {P : DescId → Prop} {d₁ d₂ d₃ : VirtioDisk B} (h : SameChains P d₁ d₂)
    (h' : SameChains P d₂ d₃) : SameChains P d₁ d₃ :=
  ⟨fun m hm => (h'.desc m hm).trans (h.desc m hm), fun m hm => (h'.ops m hm).trans (h.ops m hm)⟩

theorem SameChains.mono {P Q : DescId → Prop} (h : SameChains P d d') (hPQ : ∀ m, Q m → P m) :
    SameChains Q d d' :=
  ⟨fun m hm => h.desc m (hPQ m hm), fun m hm => h.ops m (hPQ m hm)⟩

/-- Freeing a descriptor clears that one. -/
theorem freeDesc_sameChains (d : VirtioDisk B) (i : DescId) :
    SameChains (· ≠ i) d (d.freeDesc i.val) := by
  refine ⟨fun m hm => ?_, fun _ _ => rfl⟩
  change Function.update d.desc (descAt i.val) _ m = d.desc m
  rw [descAt_val, Function.update_of_ne hm]

theorem foldl_freeDesc_sameChains : ∀ (ms : List DescId) (d : VirtioDisk B),
    SameChains (· ∉ ms) d ((ms.map fun i => (i.val : Int)).foldl freeDesc d)
  | [], d => .refl _ d
  | i :: ms, d => by
    rw [List.map_cons, List.foldl_cons]
    refine ((freeDesc_sameChains d i).mono fun m hm => ?_).trans
      ((foldl_freeDesc_sameChains ms _).mono fun m hm => ?_)
    · exact List.ne_of_not_mem_cons hm
    · exact List.not_mem_of_not_mem_cons hm

/-- The allocation only marks descriptors. -/
theorem allocLoop_sameChains (b : B) : ∀ (is : List (Fin 3)) (d : VirtioDisk B) (idx : Fin 3 → Int),
    SameChains (fun _ => True) d (d.allocLoop b idx is).disk
  | [], d, _ => .refl _ d
  | i :: is, d, idx => by
    rw [allocLoop]
    dsimp only
    split
    · exact .refl _ d
    · obtain ⟨hdesc, hops⟩ := allocLoop_sameChains b is (d.setInfo d.allocDesc (some b))
        (Function.update idx i d.allocDesc)
      exact ⟨hdesc, hops⟩

theorem tryAlloc_sameChains (d : VirtioDisk B) (b : B) (idx : Fin 3 → Int) :
    SameChains (fun _ => True) d (d.tryAlloc b idx).disk := allocLoop_sameChains b _ d idx

/-- **A failed attempt** clears free descriptors only. -/
theorem rollback_sameChains (hthree : 3 ∣ d.inUse.card) (b : B) (idx : Fin 3 → Int)
    (hfail : (d.tryAlloc b idx).ok = false) :
    SameChains (fun m => (d.info m).b ≠ none) d
      ((d.tryAlloc b idx).disk.rollback (d.tryAlloc b idx).idx) := by
  obtain ⟨ms, h⟩ := allocLoop_spec b [0, 1, 2] (by decide) d idx
  change AllocSpec d b [0, 1, 2] (d.tryAlloc b idx) ms at h
  rw [rollback, (tryAlloc_failed hthree b idx hfail).2.1, h.marked]
  refine ((tryAlloc_sameChains d b idx).mono fun _ _ => trivial).trans
    ((foldl_freeDesc_sameChains ms _).mono fun m hm hmem => ?_)
  exact hm (h.free m hmem)

/-- **A return** clears the descriptors of its request. -/
theorem finish_sameChains (d : VirtioDisk B) {idx : Fin 3 → Int} {i : Fin 3 → DescId}
    (h : Descs idx i) : SameChains (fun m => ∀ j, m ≠ i j) d (d.finish idx) := by
  have hfold : d.finish idx =
      ([i 0, i 1, i 2].map fun m => (m.val : Int)).foldl freeDesc (d.setInfo (i 0).val none) := by
    rw [finish, h 0, h 1, h 2]
    rfl
  rw [hfold]
  obtain ⟨hdesc, hops⟩ := foldl_freeDesc_sameChains [i 0, i 1, i 2] (d.setInfo (i 0).val none)
  have hnot : ∀ m, (∀ j, m ≠ i j) → m ∉ [i 0, i 1, i 2] := fun m hm => by
    simpa using ⟨hm 0, hm 1, hm 2⟩
  exact ⟨fun m hm => hdesc m (hnot m hm), fun m hm => hops m (hnot m hm)⟩

/-- What a buffer is for: its block and its data. -/
def content (d : VirtioDisk B) (b : B) : BlockNo × Block := ((d.bufs b).blockno, (d.bufs b).data)

variable [DecidableEq B]

/-- **A new request** is written over three descriptors. -/
theorem submit_sameChains (d : VirtioDisk B) (b : B) (write : Bool) {idx : Fin 3 → Int}
    {i : Fin 3 → DescId} (h : Descs idx i) :
    SameChains (fun m => ∀ j, m ≠ i j) d (d.submit b write idx) := by
  rw [submit, h 0, h 1, h 2, descAt_val, descAt_val, descAt_val]
  refine ⟨fun m hm => ?_, fun m hm => ?_⟩
  · dsimp only
    rw [Function.update_of_ne (hm 2), Function.update_of_ne (hm 1), Function.update_of_ne (hm 0)]
  · dsimp only
    rw [Function.update_of_ne (hm 0)]

theorem submit_content (d : VirtioDisk B) (b : B) (write : Bool) (idx : Fin 3 → Int) :
    (d.submit b write idx).content = d.content := by
  funext c
  rw [content, content, submit]
  dsimp only
  by_cases hc : c = b
  · rw [hc, Function.update_self]
    rfl
  · rw [Function.update_of_ne hc]

theorem intrPass_frame (d : VirtioDisk B) :
    d.intrPass.1.desc = d.desc ∧ d.intrPass.1.ops = d.ops ∧ d.intrPass.1.content = d.content := by
  unfold intrPass
  dsimp only
  split
  case h_1 b hb =>
    refine ⟨rfl, rfl, ?_⟩
    funext c
    rw [content, content]
    dsimp only
    by_cases hc : c = b
    · rw [hc, Function.update_self]
      rfl
    · rw [Function.update_of_ne hc]
  case h_2 => exact ⟨rfl, rfl, rfl⟩

/-- **An interrupt** changes neither the requests nor what the buffers hold. -/
theorem intrLoop_frame : ∀ (n : Nat) (d : VirtioDisk B), (d.intrLoop n).1.desc = d.desc ∧
    (d.intrLoop n).1.ops = d.ops ∧ (d.intrLoop n).1.content = d.content
  | 0, _ => ⟨rfl, rfl, rfl⟩
  | n + 1, d => by
    rw [intrLoop]
    split
    · exact ⟨rfl, rfl, rfl⟩
    · obtain ⟨hdesc, hops, hcontent⟩ := intrPass_frame d
      obtain ⟨hdesc', hops', hcontent'⟩ := intrLoop_frame n d.intrPass.1
      exact ⟨hdesc'.trans hdesc, hops'.trans hops, hcontent'.trans hcontent⟩

end VirtioDisk

namespace DiskState

variable {T B : Type*} [DecidableEq T] [DecidableEq B] {s s' : DiskState T B}

/-- **What a step leaves alone**: the data of all buffers, and the chains of the requests that are
waited for before and after it. -/
theorem step_frame (ho : Owners s) {o : DiskOp T B} (hs : s.step o = some s') :
    s'.disk.content = s.disk.content ∧ ∀ t w i, (s.phase t).wait? = some w →
      (s'.phase t).wait? = some w → Descs w.idx i →
      SameChains (fun m => ∃ j, m = i j) s.disk s'.disk := by
  cases step_to hs with
  | entered | asleep | woken | consumed => exact ⟨rfl, fun _ _ _ _ _ _ => .refl _ _⟩
  | completed => exact ⟨rfl, fun _ _ _ _ _ _ => ⟨fun _ _ => rfl, fun _ _ => rfl⟩⟩
  | interrupted =>
    obtain ⟨hdesc, hops, hcontent⟩ := intrLoop_frame (s.disk.used.idx - s.disk.usedIdx).toNat s.disk
    exact ⟨hcontent, fun _ _ _ _ _ _ => ⟨fun m _ => congrFun hdesc m, fun m _ => congrFun hops m⟩⟩
  | @allocated t b write idx ht =>
    have hbufs := (tryAlloc_sameRings s.disk b idx).bufs
    have halloc := tryAlloc_sameChains s.disk b idx
    cases hok : (s.disk.tryAlloc b idx).ok with
    | true =>
      obtain ⟨k, hk, -, hfree, -⟩ := tryAlloc_ok b idx hok
      rw [allocate_of_ok hok]
      refine ⟨?_, fun u w i hu _ hi => (halloc.mono fun _ _ => trivial).trans
        ((submit_sameChains _ b write hk).mono ?_)⟩
      · refine (submit_content _ b write _).trans ?_
        funext c
        rw [content, content, hbufs]
      · -- the new request takes descriptors that were free
        rintro m ⟨j, rfl⟩ l
        exact ho.ne_of_free hu hi (hfree l) j
    | false =>
      rw [allocate_of_failed hok]
      refine ⟨?_, fun u w i hu _ hi => (rollback_sameChains ho.three_dvd b idx hok).mono ?_⟩
      · funext c
        rw [content, content]
        dsimp only
        rw [(rollback_sameRings _ _).bufs, hbufs]
      · rintro m ⟨j, rfl⟩ hnone
        exact ho.ne_of_free hu hi hnone j rfl
  | @left t v ht hv =>
    have hwait := DiskPhase.wait?_of_waiting ht
    obtain ⟨k, hk, -⟩ := ho.chain t v hwait
    refine ⟨rfl, fun u w i hu hu' hi => (finish_sameChains s.disk hk).mono ?_⟩
    have hne : u ≠ t := by
      rintro rfl
      rw [leave_self] at hu'
      exact absurd hu' (by simp [DiskPhase.wait?])
    rintro m ⟨j, rfl⟩ l hjl
    refine hne (ho.desc_inj hu hwait (j := j) (k := l) ?_)
    rw [hi j, hk l, hjl]

/-- A process that waits after a step has waited before it, or has just submitted its request. -/
theorem step_new_wait {o : DiskOp T B} (hs : s.step o = some s') {t : T} {w : Wait B}
    (ht : (s'.phase t).wait? = some w) :
    (s.phase t).wait? = some w ∨ ∃ b write idx, s.phase t = .allocating b write idx false ∧
      (s.disk.tryAlloc b idx).ok = true ∧ s' = s.allocate t b write idx := by
  cases step_to hs with
  | entered write idx hu => exact Or.inl (by rwa [update_wait? (by rw [hu]; rfl)] at ht)
  | asleep hu => exact Or.inl (by rwa [update_wait? (by rw [hu]; rfl)] at ht)
  | woken u => exact Or.inl (by rwa [update_wait? (DiskPhase.wakeup_wait? _)] at ht)
  | consumed | completed => exact Or.inl ht
  | interrupted => exact Or.inl (by rwa [DiskState.interrupt, DiskPhase.wakeMarked_wait?] at ht)
  | @left u v hu hv =>
    by_cases htu : t = u
    · subst htu
      rw [leave_self] at ht
      exact absurd ht (by simp [DiskPhase.wait?])
    · exact Or.inl (by rwa [leave_wait? s htu] at ht)
  | @allocated u b write idx hu =>
    by_cases htu : t = u
    · subst htu
      cases hok : (s.disk.tryAlloc b idx).ok with
      | true => exact Or.inr ⟨b, write, idx, hu, hok, rfl⟩
      | false =>
        rw [allocate_of_failed hok] at ht
        dsimp only at ht
        rw [Function.update_self] at ht
        exact absurd ht (by simp [DiskPhase.wait?])
    · exact Or.inl (by rwa [allocate_wait? s htu] at ht)

end DiskState

/-! ## 4. The device finds every request -/

theorem head16_toNat : ∀ i : DescId, Fin.ofNat ringSize (head16 i).toNat = i := by decide

namespace VirtioDisk

variable {B : Type*} {d d' : VirtioDisk B}

/-- The descriptors `i` make up a request for `b`. -/
structure Chain (d : VirtioDisk B) (b : B) (write : Bool) (i : Fin 3 → DescId) : Prop where
  op : d.ops (i 0) = ⟨if write then 1 else 0, 0, sectorOf (d.content b).1⟩
  header : d.desc (i 0) = ⟨.op (i 0), 16, descNext, head16 (i 1)⟩
  data : d.desc (i 1) = ⟨.data b, BitVec.ofNat 32 bsize,
    (if write then 0 else descWrite) ||| descNext, head16 (i 2)⟩
  status : d.desc (i 2) = ⟨.status (i 0), 1, descWrite, 0⟩

theorem Chain.congr {b : B} {write : Bool} {i : Fin 3 → DescId} (h : Chain d b write i)
    (hsame : SameChains (fun m => ∃ j, m = i j) d d') (hb : (d'.content b).1 = (d.content b).1) :
    Chain d' b write i where
  op := by rw [hsame.ops _ ⟨0, rfl⟩, hb, h.op]
  header := (hsame.desc _ ⟨0, rfl⟩).trans h.header
  data := (hsame.desc _ ⟨1, rfl⟩).trans h.data
  status := (hsame.desc _ ⟨2, rfl⟩).trans h.status

/-- **The device understands it.** -/
theorem Chain.request? {b : B} {write : Bool} {i : Fin 3 → DescId} (h : Chain d b write i) :
    d.request? (head16 (i 0)) = some ⟨write, sectorOf (d.content b).1, b⟩ := by
  have hfollow : ∀ j, d.follow (head16 j) = d.desc j := fun j => by rw [follow, head16_toNat]
  unfold VirtioDisk.request?
  dsimp only
  rw [hfollow, h.header]
  dsimp only
  rw [hfollow, h.data]
  dsimp only
  rw [hfollow, h.status]
  dsimp only
  rw [h.op]
  cases write <;> simp [descWrite, descNext]

variable [DecidableEq B]

/-- **`virtio_disk_rw` writes one.** -/
theorem submit_chain (d : VirtioDisk B) (b : B) (write : Bool) {idx : Fin 3 → Int}
    {i : Fin 3 → DescId} (h : Descs idx i) (hinj : Function.Injective i) :
    Chain (d.submit b write idx) b write i := by
  have h01 : i 0 ≠ i 1 := fun e => absurd (hinj e) (by decide)
  have h02 : i 0 ≠ i 2 := fun e => absurd (hinj e) (by decide)
  have h12 : i 1 ≠ i 2 := fun e => absurd (hinj e) (by decide)
  have hcontent := congrFun (submit_content d b write idx) b
  refine ⟨?_, ?_, ?_, ?_⟩
  · rw [hcontent, submit, h 0, descAt_val]
    dsimp only
    rw [Function.update_self]
    rfl
  · rw [submit, h 0, h 1, h 2, descAt_val, descAt_val, descAt_val]
    dsimp only
    rw [Function.update_of_ne h02, Function.update_of_ne h01, Function.update_self]
    rfl
  · rw [submit, h 0, h 1, h 2, descAt_val, descAt_val, descAt_val]
    dsimp only
    rw [Function.update_of_ne h12, Function.update_self]
    rfl
  · rw [submit, h 0, h 1, h 2, descAt_val, descAt_val, descAt_val]
    dsimp only
    rw [Function.update_self]

end VirtioDisk

namespace ServedState

variable {T B : Type*} {s : ServedState T B}

/-- The invariants of the driver; every request that is waited for is in its descriptors; and only
requests that the device has carried out are complete. -/
structure Serving (s : ServedState T B) : Prop where
  rings : DiskState.Rings s.driver
  owners : DiskState.Owners s.driver
  chain : ∀ t w i, (s.driver.phase t).wait? = some w → Descs w.idx i →
    ∃ write, Chain s.driver.disk w.buf write i
  transferred : ∀ k ∈ s.transferred, k < s.driver.submitted.length
  finished : ∀ k ∈ s.driver.finished, k ∈ s.transferred

theorem Serving.init (bufs : B → Buf) (sectors : BitVec 64 → Block) :
    Serving (init bufs sectors : ServedState T B) where
  rings := DiskState.Rings.init bufs
  owners := DiskState.Owners.init bufs
  chain := fun _ _ _ h => absurd h (by simp [ServedState.init, DiskState.init, DiskPhase.wait?])
  transferred := fun _ h => absurd h List.not_mem_nil
  finished := fun _ h => absurd h List.not_mem_nil

/-- **A request the device works on** is the one that some process waits for, and its chain is as
that process wrote it. -/
theorem Serving.taken (h : Serving s) {j : Nat} {p : Nat × BitVec 16}
    (hp : s.driver.taken[j]? = some p) :
    ∃ t w i write, (s.driver.phase t).wait? = some w ∧ Descs w.idx i ∧ w.req = p.1 ∧
      Chain s.driver.disk w.buf write i ∧ p.2 = head16 (i 0) := by
  have hmem := List.mem_of_getElem? hp
  have hlt := Nat.lt_of_lt_of_le ((h.rings.mem_iff p.1).mpr (Or.inl (List.mem_map_of_mem hmem)))
    h.rings.consumedLe
  -- it is not complete, so that it has not returned
  have hnot : p.1 ∉ s.driver.finished := fun hf =>
    (List.nodup_append.mp h.rings.nodup).2.2 p.1 (List.mem_map_of_mem hmem) p.1 hf rfl
  have hret := h.rings.not_returned fun hk => hnot (List.mem_of_mem_take hk)
  obtain ⟨t, w, ht, hreq⟩ := (h.owners.active p.1 hlt).resolve_left hret
  obtain ⟨i, hi, -, -, hsub⟩ := h.owners.chain t w ht
  obtain ⟨write, hchain⟩ := h.chain t w i ht hi
  have hhead := h.rings.heads p hmem
  rw [← hreq, hsub, Option.map_some, Option.some.injEq] at hhead
  exact ⟨t, w, i, write, ht, hi, hreq, hchain, hhead.symm⟩

/-- Two processes do not wait for one request. -/
theorem Serving.req_inj (h : Serving s) {t u : T} {v w : Wait B}
    (ht : (s.driver.phase t).wait? = some v) (hu : (s.driver.phase u).wait? = some w)
    (hreq : v.req = w.req) : t = u := by
  obtain ⟨i, -, -, -, hsub⟩ := h.owners.chain t v ht
  obtain ⟨i', -, -, -, hsub'⟩ := h.owners.chain u w hu
  rw [hreq, hsub', Option.some.injEq, Request.mk.injEq] at hsub
  exact (h.owners.wait_inj ht hu hsub.1.symm).1

variable [DecidableEq B]

/-- The device moves the block of a request it has taken, and has not served. -/
theorem taken_of_transfer {j : Nat} {s' : ServedState T B} (hs : s.transfer j = some s') :
    ∃ p, s.driver.taken[j]? = some p ∧ p.1 ∉ s.transferred := by
  rw [ServedState.transfer, Option.bind_eq_some_iff] at hs
  obtain ⟨p, hp, hs⟩ := hs
  rw [Option.ite_none_left_eq_some] at hs
  exact ⟨p, hp, by simpa using hs.1⟩

/-- **What the device does with a request**: it moves a block between the sector of the buffer and
the buffer. -/
theorem Serving.transfer_eq (h : Serving s) {j : Nat} {p : Nat × BitVec 16}
    (hp : s.driver.taken[j]? = some p) (hnot : p.1 ∉ s.transferred) :
    ∃ t w i write, (s.driver.phase t).wait? = some w ∧ Descs w.idx i ∧ w.req = p.1 ∧
      Chain s.driver.disk w.buf write i ∧
      s.transfer j = some (
        if write then
          { s with
            sectors := Function.update s.sectors (sectorOf (s.driver.disk.content w.buf).1)
              (s.driver.disk.content w.buf).2
            transferred := s.transferred ++ [p.1] }
        else
          { s with
            driver :=
              { s.driver with
                disk := s.driver.disk.fill w.buf
                  (s.sectors (sectorOf (s.driver.disk.content w.buf).1)) }
            transferred := s.transferred ++ [p.1] }) := by
  obtain ⟨t, w, i, write, ht, hi, hreq, hchain, hhead⟩ := h.taken hp
  refine ⟨t, w, i, write, ht, hi, hreq, hchain, ?_⟩
  have hcontains : s.transferred.contains p.1 = false := by simpa using hnot
  rw [transfer, hp, Option.bind_some, hcontains, hhead, hchain.request?]
  rfl

omit [DecidableEq B] in
/-- Other data in the buffers. -/
theorem rings_bufs {d : DiskState T B} (h : DiskState.Rings d) (ho : DiskState.Owners d)
    {bufs : B → Buf} (hvalid : ∀ b, d.busy b = true → (bufs b).valid = (d.disk.bufs b).valid) :
    DiskState.Rings { d with disk := { d.disk with bufs := bufs } } ∧
      DiskState.Owners { d with disk := { d.disk with bufs := bufs } } := by
  refine ⟨⟨h.avail, h.consumedLe, h.device, h.heads, h.used, h.handled, h.returned,
    fun t w ht hv => h.valid t w ht ?_⟩,
    ho.congr (fun _ => rfl) (fun _ => rfl) rfl (fun _ => rfl) rfl rfl⟩
  rw [← hvalid w.buf (ho.busy t w.buf (DiskPhase.buf?_of_wait? ht))]
  exact hv

theorem update_content (d : VirtioDisk B) (b c : B) (x : Buf) :
    ({ d with bufs := Function.update d.bufs b x } : VirtioDisk B).content c =
      if c = b then (x.blockno, x.data) else d.content c := by
  rw [content]
  dsimp only
  by_cases hc : c = b
  · rw [hc, Function.update_self, if_pos rfl]
  · rw [Function.update_of_ne hc, if_neg hc]
    rfl

theorem fill_content (d : VirtioDisk B) (b c : B) (data : Block) :
    (d.fill b data).content c = if c = b then ((d.content b).1, data) else d.content c :=
  update_content d b c { d.bufs b with data := data }

/-- **The device moves a block.** -/
theorem Serving.transfer (h : Serving s) {j : Nat} {s' : ServedState T B}
    (hs : s.transfer j = some s') : Serving s' := by
  obtain ⟨p, hp, hnot⟩ := taken_of_transfer hs
  obtain ⟨t, w, i, write, ht, hi, hreq, hchain, heq⟩ := h.transfer_eq hp hnot
  have hlt : p.1 < s.driver.submitted.length := by
    obtain ⟨k, -, -, -, hsub⟩ := h.owners.chain t w ht
    exact hreq ▸ (List.getElem?_eq_some_iff.mp hsub).1
  have htransferred : ∀ k ∈ s.transferred ++ [p.1], k < s.driver.submitted.length := fun k hk => by
    rcases List.mem_append.mp hk with hk | hk
    · exact h.transferred k hk
    · exact List.mem_singleton.mp hk ▸ hlt
  have hfinished : ∀ k ∈ s.driver.finished, k ∈ s.transferred ++ [p.1] := fun k hk =>
    List.mem_append_left _ (h.finished k hk)
  rw [heq, Option.some.injEq] at hs
  subst hs
  cases write with
  | true => exact ⟨h.rings, h.owners, h.chain, htransferred, hfinished⟩
  | false =>
    have hvalid : ∀ b, s.driver.busy b = true → ((s.driver.disk.fill w.buf
        (s.sectors (sectorOf (s.driver.disk.content w.buf).1))).bufs b).valid =
          (s.driver.disk.bufs b).valid := fun b _ => by
      rw [fill]
      dsimp only
      by_cases hb : b = w.buf
      · rw [hb, Function.update_self]
        rfl
      · rw [Function.update_of_ne hb]
    obtain ⟨hr, ho⟩ := rings_bufs h.rings h.owners hvalid
    refine ⟨hr, ho, fun u v k hu hk => ?_, htransferred, hfinished⟩
    obtain ⟨write', hchain'⟩ := h.chain u v k hu hk
    refine ⟨write', hchain'.congr ⟨fun _ _ => rfl, fun _ _ => rfl⟩ ?_⟩
    dsimp only
    rw [if_neg (by decide), fill_content]
    split
    case isTrue hv => rw [hv]
    case isFalse => rfl

variable [DecidableEq T]

/-- **A step of the driver.** -/
theorem Serving.driver (h : Serving s) {o : DiskOp T B} {d : DiskState T B}
    (hready : s.ready o = true) (hd : s.driver.step o = some d) :
    Serving { s with driver := d } := by
  obtain ⟨hr, ho⟩ := h.rings.step h.owners hd
  obtain ⟨hcontent, hsame⟩ := DiskState.step_frame h.owners hd
  have hsub : s.driver.submitted.length ≤ d.submitted.length := by
    cases DiskState.step_to hd with
    | entered | left | asleep | woken | consumed | completed | interrupted => exact Nat.le_refl _
    | @allocated t b write idx =>
      rw [DiskState.allocate]
      split
      · rw [List.length_append]
        exact Nat.le_add_right _ _
      · exact Nat.le_refl _
  have hfinished : ∀ k ∈ d.finished, k ∈ s.transferred := by
    cases DiskState.step_to hd with
    | entered | left | asleep | woken | consumed | interrupted => exact h.finished
    | @allocated t b write idx =>
      rw [DiskState.allocate]
      split <;> exact h.finished
    | @completed j p hp =>
      intro k hk
      rcases List.mem_append.mp hk with hk | hk
      · exact h.finished k hk
      · rw [ready, hp] at hready
        exact List.mem_singleton.mp hk ▸ by simpa using hready
  refine ⟨hr, ho, fun t w i ht hi => ?_, fun k hk => Nat.lt_of_lt_of_le (h.transferred k hk) hsub,
    hfinished⟩
  rcases DiskState.step_new_wait hd ht with hwait | ⟨b, write, idx, hphase, hok, rfl⟩
  · obtain ⟨write, hchain⟩ := h.chain t w i hwait hi
    exact ⟨write, hchain.congr (hsame t w i hwait ht hi) (by rw [hcontent])⟩
  · obtain ⟨k, hk, hinj, -⟩ := tryAlloc_ok b idx hok
    dsimp only at ht ⊢
    rw [DiskState.allocate_of_ok hok] at ht ⊢
    dsimp only at ht ⊢
    rw [Function.update_self] at ht
    obtain rfl := Option.some.inj ht
    obtain rfl : i = k := funext fun j => hi.eq_of_val (hk j)
    exact ⟨write, submit_chain _ b write hk hinj⟩

/-- **One step.** -/
theorem Serving.step (h : Serving s) {o : ServedOp T B} {s' : ServedState T B}
    (hs : s.step o = some s') : Serving s' := by
  cases o with
  | driver o =>
    rw [ServedState.step, Option.ite_none_right_eq_some, Option.map_eq_some_iff] at hs
    obtain ⟨hready, d, hd, rfl⟩ := hs
    exact h.driver hready hd
  | transfer j => exact h.transfer hs
  | edit b x =>
    rw [ServedState.step, Option.ite_none_left_eq_some, Option.some.injEq] at hs
    obtain ⟨hb, rfl⟩ := hs
    have hne : ∀ c, s.driver.busy c = true → c ≠ b := fun c hc hcb => hb (hcb ▸ hc)
    have hvalid : ∀ c, s.driver.busy c = true →
        (Function.update s.driver.disk.bufs b x c).valid = (s.driver.disk.bufs c).valid :=
      fun c hc => by rw [Function.update_of_ne (hne c hc)]
    obtain ⟨hr, ho⟩ := rings_bufs h.rings h.owners hvalid
    refine ⟨hr, ho, fun t w i ht hi => ?_, h.transferred, h.finished⟩
    obtain ⟨write, hchain⟩ := h.chain t w i ht hi
    refine ⟨write, hchain.congr ⟨fun _ _ => rfl, fun _ _ => rfl⟩ ?_⟩
    have hc := hne w.buf (h.owners.busy t w.buf (DiskPhase.buf?_of_wait? ht))
    rw [content, content]
    dsimp only
    rw [Function.update_of_ne hc]

end ServedState

/-! ## 5. The atomic disk that they are -/

/-- The call of a process: a request is served when its block has been moved, and until then its
kind is in `ops`. -/
def DiskPhase.call {B : Type*} (p : DiskPhase B) (d : VirtioDisk B) (transferred : List Nat) :
    DiskCall B :=
  match p with
  | .idle => .idle
  | .allocating b write _ _ => .asked b write
  | .waiting w _ =>
    if transferred.contains w.req then .served w.buf
    else .asked w.buf ((d.ops (descAt (w.idx 0))).type == 1)

namespace DiskPhase

variable {B : Type*} (d : VirtioDisk B) (transferred : List Nat)

theorem wakeup_call (p : DiskPhase B) : p.wakeup.call d transferred = p.call d transferred := by
  cases p <;> rfl

theorem wakeFreed_call (p : DiskPhase B) (as : List Int) :
    (p.wakeFreed as).call d transferred = p.call d transferred := by
  unfold wakeFreed
  split
  · rfl
  · exact p.wakeup_call d transferred

theorem wakeMarked_call (p : DiskPhase B) (bs : List (Option B)) :
    (p.wakeMarked bs).call d transferred = p.call d transferred := by
  unfold wakeMarked
  split
  · exact p.wakeup_call d transferred
  · rfl

/-- What the call depends on. -/
theorem call_congr {p : DiskPhase B} {d d' : VirtioDisk B} {done done' : List Nat}
    (hops : ∀ w, p.wait? = some w → d'.ops (descAt (w.idx 0)) = d.ops (descAt (w.idx 0)))
    (hdone : ∀ w, p.wait? = some w → (w.req ∈ done' ↔ w.req ∈ done)) :
    p.call d' done' = p.call d done := by
  cases p with
  | idle | allocating => rfl
  | waiting w asleep =>
    have hcontains : done'.contains w.req = done.contains w.req := by
      rw [Bool.eq_iff_iff, List.contains_iff_mem, List.contains_iff_mem]
      exact hdone w rfl
    rw [call, call, hops w rfl, hcontains]

variable {d transferred}

theorem call_of_served {p : DiskPhase B} {w : Wait B} (hp : p.wait? = some w)
    (hw : w.req ∈ transferred) : p.call d transferred = .served w.buf := by
  cases p with
  | idle | allocating => exact absurd hp (by simp [wait?])
  | waiting v asleep =>
    obtain rfl := Option.some.inj hp
    rw [call, if_pos (by simpa using hw)]

theorem call_of_chain {p : DiskPhase B} {w : Wait B} (hp : p.wait? = some w)
    (hw : w.req ∉ transferred) {i : Fin 3 → DescId} (hi : Descs w.idx i) {write : Bool}
    (hchain : Chain d w.buf write i) : p.call d transferred = .asked w.buf write := by
  cases p with
  | idle | allocating => exact absurd hp (by simp [wait?])
  | waiting v asleep =>
    obtain rfl := Option.some.inj hp
    rw [call, if_neg (by simpa using hw), hi 0, descAt_val, hchain.op]
    cases write <;> rfl

end DiskPhase

namespace ServedState

variable {T B : Type*} {s s' : ServedState T B}

/-- The atomic disk. -/
def atomic (s : ServedState T B) : AtomicDisk T B where
  disk := fun n => s.sectors (sectorOf n)
  data := fun b => (s.driver.disk.content b).2
  blockno := fun b => (s.driver.disk.content b).1
  busy := s.driver.busy
  call := fun t => (s.driver.phase t).call s.driver.disk s.transferred

/-- The driver does something that a caller does not see. -/
theorem atomic_congr (hsectors : s'.sectors = s.sectors)
    (hcontent : s'.driver.disk.content = s.driver.disk.content)
    (hbusy : s'.driver.busy = s.driver.busy)
    (hcall : ∀ t, (s'.driver.phase t).call s'.driver.disk s'.transferred =
      (s.driver.phase t).call s.driver.disk s.transferred) : s'.atomic = s.atomic := by
  rw [atomic, atomic, hsectors, hcontent, hbusy, funext hcall]

/-- The calls of the processes that wait before and after a step of the driver. -/
theorem Serving.call_frame [DecidableEq T] [DecidableEq B] (h : Serving s) {o : DiskOp T B}
    {d : DiskState T B} (hd : s.driver.step o = some d) {t : T}
    (hwait : (d.phase t).wait? = (s.driver.phase t).wait?) :
    (s.driver.phase t).call d.disk s.transferred =
      (s.driver.phase t).call s.driver.disk s.transferred := by
  refine DiskPhase.call_congr (fun w ht => ?_) fun _ _ => Iff.rfl
  obtain ⟨i, hi, -⟩ := h.owners.chain t w ht
  have hsame := (DiskState.step_frame h.owners hd).2 t w i ht (hwait.trans ht) hi
  rw [hi 0, descAt_val, hsame.ops _ ⟨0, rfl⟩]

variable [DecidableEq T] [DecidableEq B]

/-- The atomic disk shows what the driver shows, by one step or none. -/
def Matches (s s' : ServedState T B) (e : Option (DiskEvent T B)) : Prop :=
  (s'.atomic = s.atomic ∧ e = none) ∨
    ∃ o, s.atomic.step o = some s'.atomic ∧ s.atomic.event? o = e

theorem matches_of_quiet (h : s'.atomic = s.atomic) : Matches s s' none := .inl ⟨h, rfl⟩

theorem matches_of_step {o : AtomicOp T B} {e : Option (DiskEvent T B)}
    (h : s.atomic.step o = some s'.atomic) (he : s.atomic.event? o = e) : Matches s s' e :=
  .inr ⟨o, h, he⟩

theorem Matches.shows {e : Option (DiskEvent T B)} (h : Matches s s' e) :
    Transition.Shows AtomicDisk.step AtomicDisk.event? s.atomic s'.atomic e.toList := by
  rcases h with ⟨h, rfl⟩ | ⟨o, ho, rfl⟩
  · rw [h]
    exact .refl _
  · exact .single ho

/-- **A pass of the allocation** is not seen. -/
theorem Serving.allocate_quiet (h : Serving s) {t : T} {b : B} {write : Bool} {idx : Fin 3 → Int}
    (ht : s.driver.phase t = .allocating b write idx false)
    (hd : s.driver.step (.resume t) = some (s.driver.allocate t b write idx)) :
    ({ s with driver := s.driver.allocate t b write idx } : ServedState T B).atomic = s.atomic := by
  obtain ⟨hcontent, -⟩ := DiskState.step_frame h.owners hd
  have hbusy : (s.driver.allocate t b write idx).busy = s.driver.busy := by
    rw [DiskState.allocate]
    split <;> rfl
  refine atomic_congr rfl hcontent hbusy fun u => ?_
  have hframe := h.call_frame hd (t := u)
  by_cases hut : u = t
  · subst hut
    cases hok : (s.driver.disk.tryAlloc b idx).ok with
    | true =>
      obtain ⟨i, hi, hinj, -⟩ := tryAlloc_ok b idx hok
      have hnew : s.driver.submitted.length ∉ s.transferred := fun hk =>
        absurd (h.transferred _ hk) (Nat.lt_irrefl _)
      rw [DiskState.allocate_of_ok hok, ht]
      dsimp only
      rw [Function.update_self]
      have hchain := submit_chain (s.driver.disk.tryAlloc b idx).disk b write hi hinj
      exact DiskPhase.call_of_chain (w := ⟨b, _, s.driver.submitted.length⟩) rfl hnew hi hchain
    | false =>
      rw [DiskState.allocate_of_failed hok, ht]
      dsimp only
      rw [Function.update_self]
      rfl
  · rw [DiskState.allocate_wait? _ hut] at hframe
    rw [← hframe rfl]
    cases hok : (s.driver.disk.tryAlloc b idx).ok with
    | true =>
      rw [DiskState.allocate_of_ok hok]
      dsimp only
      rw [Function.update_of_ne hut]
    | false =>
      rw [DiskState.allocate_of_failed hok]
      dsimp only
      rw [Function.update_of_ne hut, DiskPhase.wakeFreed_call]

/-- A call that finds `B_VALID` returns. -/
theorem Serving.matches_left (h : Serving s) {t : T} {w : Wait B}
    (ht : s.driver.phase t = .waiting w false) (hv : (s.driver.disk.bufs w.buf).valid = true)
    (hd : s.driver.step (.resume t) = some (s.driver.leave t w)) :
    Matches s { s with driver := s.driver.leave t w } (s.event? (.driver (.resume t))) := by
  have hwait := DiskPhase.wait?_of_waiting ht
  have hserved : s.atomic.call t = .served w.buf := by
    have hfin := List.mem_of_mem_take (h.rings.valid t w hwait hv)
    exact DiskPhase.call_of_served hwait (h.finished _ hfin)
  refine matches_of_step (o := .ret t) ?_ ?_
  · rw [AtomicDisk.step, hserved]
    dsimp only
    congr 1
    rw [atomic, atomic]
    dsimp only
    congr 1
    funext u
    by_cases hut : u = t
    · rw [hut, Function.update_self, DiskState.leave_self]
      rfl
    · rw [Function.update_of_ne hut, ← h.call_frame hd (DiskState.leave_wait? _ hut w),
        DiskState.leave_of_ne _ hut, DiskPhase.wakeFreed_call]
  · rw [AtomicDisk.event?, hserved, event?, ht]
    dsimp only
    rw [if_pos hv]
    rfl

/-- **The driver.** -/
theorem Serving.matches_driver (h : Serving s) {o : DiskOp T B} {d : DiskState T B}
    (hd : s.driver.step o = some d) :
    Matches s { s with driver := d } (s.event? (.driver o)) := by
  obtain ⟨hcontent, -⟩ := DiskState.step_frame h.owners hd
  cases DiskState.step_to hd with
  | @entered t b write idx ht hb =>
    refine matches_of_step (o := .call t b write) ?_ rfl
    have hidle : s.atomic.call t = .idle := by
      rw [atomic]
      dsimp only
      rw [ht]
      rfl
    have hfree : ¬ s.atomic.busy b = true := by
      rw [atomic]
      simp [hb]
    rw [AtomicDisk.step, hidle]
    dsimp only
    rw [if_neg hfree, atomic, atomic]
    congr 2
    funext u
    dsimp only
    by_cases hut : u = t
    · rw [hut, Function.update_self, Function.update_self]
      rfl
    · rw [Function.update_of_ne hut, Function.update_of_ne hut]
  | @allocated t b write idx ht =>
    have hquiet : s.event? (.driver (.resume t)) = none := by
      rw [event?, ht]
    rw [hquiet]
    exact matches_of_quiet (h.allocate_quiet ht hd)
  | @left t w ht hv => exact h.matches_left ht hv hd
  | @asleep t w ht =>
    have hv := DiskState.invalid_of_asleep ht hd
    have hquiet : s.event? (.driver (.resume t)) = none := by
      rw [event?, ht]
      dsimp only
      rw [if_neg (by simp [hv])]
    rw [hquiet]
    refine matches_of_quiet (atomic_congr rfl rfl rfl fun u => ?_)
    by_cases hut : u = t
    · rw [hut, ht]
      dsimp only
      rw [Function.update_self]
      rfl
    · dsimp only
      rw [Function.update_of_ne hut]
  | woken t =>
    refine matches_of_quiet (atomic_congr rfl rfl rfl fun u => ?_)
    by_cases hut : u = t
    · rw [hut]
      dsimp only
      rw [Function.update_self]
      exact DiskPhase.wakeup_call _ _ _
    · dsimp only
      rw [Function.update_of_ne hut]
  | consumed hne => exact matches_of_quiet (atomic_congr rfl rfl rfl fun _ => rfl)
  | completed hp status len => exact matches_of_quiet (atomic_congr rfl rfl rfl fun _ => rfl)
  | interrupted =>
    refine matches_of_quiet (atomic_congr rfl hcontent rfl fun u => ?_)
    rw [← h.call_frame hd (DiskPhase.wakeMarked_wait? _ _)]
    exact DiskPhase.wakeMarked_call _ _ _ _

/-- **The device** serves the call whose block it moves. -/
theorem Serving.matches_transfer (h : Serving s) {j : Nat} (hs : s.transfer j = some s') :
    Matches s s' none := by
  obtain ⟨p, hp, hnot⟩ := taken_of_transfer hs
  obtain ⟨t, w, i, write, ht, hi, hreq, hchain, heq⟩ := h.transfer_eq hp hnot
  rw [heq, Option.some.injEq] at hs
  subst hs
  have hasked : s.atomic.call t = .asked w.buf write :=
    DiskPhase.call_of_chain ht (hreq ▸ hnot) hi hchain
  -- the other calls are for other requests
  have hcall : ∀ d : VirtioDisk B, d.ops = s.driver.disk.ops → (fun u =>
      (s.driver.phase u).call d (s.transferred ++ [p.1])) =
      Function.update (fun u => (s.driver.phase u).call s.driver.disk s.transferred) t
        (.served w.buf) := by
    intro d hd
    funext u
    by_cases hut : u = t
    · rw [hut, Function.update_self]
      exact DiskPhase.call_of_served ht (hreq ▸ List.mem_append_right _ List.mem_cons_self)
    · rw [Function.update_of_ne hut]
      refine DiskPhase.call_congr (fun _ _ => by rw [hd]) fun v hv => ?_
      have hne : v.req ≠ p.1 := fun e => hut (h.req_inj hv ht (e.trans hreq.symm))
      simp [hne]
  refine matches_of_step (o := .serve t) ?_ rfl
  cases write with
  | true =>
    rw [AtomicDisk.step, hasked]
    dsimp only
    rw [if_pos rfl]
    congr 1
    rw [atomic, atomic]
    dsimp only
    rw [hcall _ rfl]
    congr 1
    funext n
    by_cases hn : n = (s.driver.disk.content w.buf).1
    · rw [hn, Function.update_self, Function.update_self]
    · rw [Function.update_of_ne hn, Function.update_of_ne fun e => hn (sectorOf_injective e)]
  | false =>
    rw [AtomicDisk.step, hasked]
    dsimp only
    rw [if_neg (by decide)]
    congr 1
    rw [atomic, atomic]
    dsimp only
    rw [hcall (s.driver.disk.fill w.buf _) rfl]
    congr 1
    · funext b
      rw [fill_content]
      by_cases hb : b = w.buf
      · rw [hb, Function.update_self, if_pos rfl]
      · rw [Function.update_of_ne hb, if_neg hb]
    · funext b
      rw [fill_content]
      split
      case isTrue hb => rw [hb]
      case isFalse => rfl

/-- **A change of a buffer** that is not in the driver. -/
theorem matches_edit {b : B} {x : Buf} (hb : s.driver.busy b = false) :
    Matches s { s with driver :=
        { s.driver with
          disk := { s.driver.disk with bufs := Function.update s.driver.disk.bufs b x } } }
      (some (.edited b x.data x.blockno)) := by
  refine matches_of_step (o := .edit b x.data x.blockno) ?_ rfl
  have hfree : ¬ s.atomic.busy b = true := by
    rw [atomic]
    simp [hb]
  rw [AtomicDisk.step, if_neg hfree]
  congr 1
  rw [atomic, atomic]
  dsimp only
  congr 1
  · funext c
    rw [update_content]
    by_cases hc : c = b
    · rw [hc, Function.update_self, if_pos rfl]
    · rw [Function.update_of_ne hc, if_neg hc]
  · funext c
    rw [update_content]
    by_cases hc : c = b
    · rw [hc, Function.update_self, if_pos rfl]
    · rw [Function.update_of_ne hc, if_neg hc]

/-- **One step.** -/
theorem Serving.matches_step (h : Serving s) {o : ServedOp T B} (hs : s.step o = some s') :
    Matches s s' (s.event? o) := by
  cases o with
  | driver o =>
    rw [ServedState.step, Option.ite_none_right_eq_some, Option.map_eq_some_iff] at hs
    obtain ⟨-, d, hd, rfl⟩ := hs
    exact h.matches_driver hd
  | transfer j => exact h.matches_transfer hs
  | edit b x =>
    rw [ServedState.step, Option.ite_none_left_eq_some, Option.some.injEq] at hs
    obtain ⟨hb, rfl⟩ := hs
    exact matches_edit (by simpa using hb)

/-- **The disk is atomic.**  Whatever the processes, the device and the interrupts do, the callers
see what they would see of a disk that serves each call at once, some time between its start and
its return; and the device can carry out every request it has read. -/
theorem served_atomic (bufs : B → Buf) (sectors : BitVec 64 → Block) (os : List (ServedOp T B))
    {s : ServedState T B} (hs : Transition.run step (init bufs sectors) os = some s) :
    Transition.Shows AtomicDisk.step AtomicDisk.event? (init bufs sectors : ServedState T B).atomic
        s.atomic (Transition.trace step event? (init bufs sectors) os) ∧
      ∀ j p, s.driver.taken[j]? = some p → p.1 ∉ s.transferred →
        ∃ s', s.step (.transfer j) = some s' := by
  have hinv : ∀ (s : ServedState T B) o s', Serving s → s.step o = some s' → Serving s' :=
    fun _ _ _ h => h.step
  have hinit := Serving.init (T := T) bufs sectors
  refine ⟨Transition.shows_of_steps atomic hinv (fun _ _ _ h hstep => (h.matches_step hstep).shows)
    os _ s hinit hs, fun j p hp hnot => ?_⟩
  have hserving := Transition.reachable_inv hinv hinit ⟨os, hs⟩
  obtain ⟨t, w, i, write, -, -, -, -, heq⟩ := hserving.transfer_eq hp hnot
  exact ⟨_, heq⟩

/-- One process writes a block full of sevens, and another one reads it; both requests are under way
at once, and the device completes the second one first. -/
def writeAndRead : List (ServedOp Bool Bool) :=
  [.driver (.rw true true true fun _ => 0), .driver (.rw false false false fun _ => 0),
    .driver (.resume true), .driver (.resume false), .driver .consume, .driver .consume,
    .transfer 0, .transfer 1, .driver (.complete 1 0 513), .driver (.complete 0 0 1),
    .driver .intr, .driver (.resume false), .driver (.resume true)]

/-- Both buffers are for block 3. -/
def twoBufs (b : Bool) : Buf :=
  { flags := 0, dev := 1, blockno := 3, lock := ⟨true, 1⟩, refcnt := 1,
    data := fun _ => if b then 7 else 0 }

theorem served_atomic_writeAndRead : ∃ s : ServedState Bool Bool,
    Transition.run step (init twoBufs fun _ _ => 0) writeAndRead = some s ∧
      (s.sectors 3 0, (s.driver.disk.bufs false).data 0) = (7, 7) ∧
      Transition.Shows AtomicDisk.step AtomicDisk.event?
        (init twoBufs fun _ _ => 0 : ServedState Bool Bool).atomic s.atomic
        (Transition.trace step event? (init twoBufs fun _ _ => 0) writeAndRead) := by
  have hrun : ((Transition.run step (init twoBufs fun _ _ => 0) writeAndRead).map
      fun s => (s.sectors 3 0, (s.driver.disk.bufs false).data 0)) = some (7, 7) := by
    decide +kernel
  obtain ⟨s, hs, hdata⟩ := Option.map_eq_some_iff.mp hrun
  exact ⟨s, hs, hdata, (served_atomic _ _ _ hs).1⟩

end ServedState

end Lithium
