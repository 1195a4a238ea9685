/-
# Many processes, one disk

Any number of processes are in `virtio_disk_rw`, each with a buffer of its own, the device takes the
requests in order and completes them in any order, and interrupts come at any time.  A section runs
under `vdisk_lock`, from where a process gets the lock to where it sleeps or returns, and so does
`virtio_disk_intr`.

`wakeup` looks at no channel, so that any of them readies every sleeper, and so does any other
wakeup of the kernel.  A process that is awake need not go on: one that is still on its way to sleep
when it would be woken up, and misses that, is one that does not.

Requests are numbered as they are submitted.  The lists `submitted`, `finished`, `handled` and
`returned` are for the proofs only, and so are the numbers: the driver knows a request by its head
descriptor, and the rings by indices of 16 bits.
-/
import Lithium.Fs.CacheCoherence
import Lithium.Fs.VirtioDisk
import Mathlib.Algebra.BigOperators.Ring.Finset

namespace Lithium

open Circular VirtioDisk

/-! ## 1. Processes, device and interrupts -/

/-- A process that has submitted a request and waits for it. -/
structure Wait (B : Type*) where
  buf : B
  idx : Fin 3 → Int
  /-- The number of the request. -/
  req : Nat

/-- Where a process is in `virtio_disk_rw`. -/
inductive DiskPhase (B : Type*) where
  | idle
  /-- Before a pass of the allocation, or asleep after one that failed. -/
  | allocating (b : B) (write : Bool) (idx : Fin 3 → Int) (asleep : Bool)
  /-- In the wait loop. -/
  | waiting (w : Wait B) (asleep : Bool)

namespace DiskPhase

variable {B : Type*}

/-- The buffer of the call. -/
def buf? : DiskPhase B → Option B
  | .idle => none
  | .allocating b _ _ _ => some b
  | .waiting w _ => some w.buf

/-- The request of the call. -/
def wait? : DiskPhase B → Option (Wait B)
  | .waiting w _ => some w
  | _ => none

/-- Some `wakeup` finds the process asleep. -/
def wakeup : DiskPhase B → DiskPhase B
  | .idle => .idle
  | .allocating b write idx _ => .allocating b write idx false
  | .waiting w _ => .waiting w false

/-- The wakeups of `free_desc` for the descriptors `as`. -/
def wakeFreed (p : DiskPhase B) (as : List Int) : DiskPhase B :=
  if as.isEmpty then p else p.wakeup

/-- The wakeups of `virtio_disk_intr`. -/
def wakeMarked (p : DiskPhase B) (bs : List (Option B)) : DiskPhase B :=
  if bs.any Option.isSome then p.wakeup else p

@[simp] theorem wakeup_buf? (p : DiskPhase B) : p.wakeup.buf? = p.buf? := by
  cases p <;> rfl

@[simp] theorem wakeup_wait? (p : DiskPhase B) : p.wakeup.wait? = p.wait? := by
  cases p <;> rfl

@[simp] theorem wakeFreed_buf? (p : DiskPhase B) (as : List Int) :
    (p.wakeFreed as).buf? = p.buf? := by
  unfold wakeFreed
  split
  · rfl
  · exact p.wakeup_buf?

@[simp] theorem wakeFreed_wait? (p : DiskPhase B) (as : List Int) :
    (p.wakeFreed as).wait? = p.wait? := by
  unfold wakeFreed
  split
  · rfl
  · exact p.wakeup_wait?

@[simp] theorem wakeMarked_buf? (p : DiskPhase B) (bs : List (Option B)) :
    (p.wakeMarked bs).buf? = p.buf? := by
  unfold wakeMarked
  split
  · exact p.wakeup_buf?
  · rfl

@[simp] theorem wakeMarked_wait? (p : DiskPhase B) (bs : List (Option B)) :
    (p.wakeMarked bs).wait? = p.wait? := by
  unfold wakeMarked
  split
  · exact p.wakeup_wait?
  · rfl

theorem wait?_of_waiting {p : DiskPhase B} {w : Wait B} {asleep : Bool}
    (h : p = .waiting w asleep) : p.wait? = some w := by
  rw [h]
  rfl

theorem buf?_of_wait? {p : DiskPhase B} {w : Wait B} (h : p.wait? = some w) :
    p.buf? = some w.buf := by
  cases p with
  | waiting v => exact congrArg (Option.map Wait.buf) h
  | idle => exact absurd h (by simp [wait?])
  | allocating => exact absurd h (by simp [wait?])

end DiskPhase

/-- A request as it was submitted. -/
structure Request (B : Type*) where
  buf : B
  head : DescId

/-- What the driver writes into the ring for a head. -/
def head16 (i : DescId) : BitVec 16 := BitVec.ofInt 16 i.val

/-- What the device writes into the other ring for it. -/
def head32 (i : DescId) : BitVec 32 := (head16 i).setWidth 32

theorem descAt_head32 : ∀ i : DescId, descAt (head32 i).toInt = i := by decide

/-- The driver, the processes in it, and the device. -/
structure DiskState (T B : Type*) where
  disk : VirtioDisk B
  phase : T → DiskPhase B
  /-- The buffers in the driver: a caller holds the sleeplock of its buffer. -/
  busy : B → Bool
  /-- How far the device has read `avail.ring`. -/
  lastAvail : BitVec 16
  /-- How many requests it has read. -/
  consumed : Nat
  /-- The requests it is working on: their numbers and heads. -/
  taken : List (Nat × BitVec 16)
  submitted : List (Request B)
  finished : List Nat
  handled : List (Option B)
  returned : List Nat

inductive DiskOp (T B : Type*) where
  /-- The process `t` calls `virtio_disk_rw(b, write)`; `idx` is what is on its stack. -/
  | rw (t : T) (b : B) (write : Bool) (idx : Fin 3 → Int)
  /-- It gets the lock and goes on until it sleeps or returns. -/
  | resume (t : T)
  /-- A `wakeup` elsewhere in the kernel finds `t` asleep. -/
  | wake (t : T)
  /-- The device reads one entry of `avail.ring`. -/
  | consume
  /-- The device completes one of its requests. -/
  | complete (j : Nat) (status : BitVec 8) (len : BitVec 32)
  | intr

namespace VirtioDisk

variable {B : Type*}

/-- The descriptor after this one in a chain. -/
def follow (d : VirtioDisk B) (i : BitVec 16) : VirtqDesc B := d.desc (Fin.ofNat ringSize i.toNat)

/-- The device writes the status byte where a descriptor points. -/
def writeStatus (d : VirtioDisk B) (a : DescAddr B) (status : BitVec 8) : DescId → DiskInfo B :=
  match a with
  | .status i => Function.update d.info i { d.info i with status := status }
  | .null | .op _ | .data _ => d.info

/-- The device completes the request with this head: it writes the status where the third
descriptor of the chain says, and appends to the used ring. -/
def deviceDone (d : VirtioDisk B) (head : BitVec 16) (status : BitVec 8) (len : BitVec 32) :
    VirtioDisk B :=
  { d with
    info := d.writeStatus (d.follow (d.follow (d.follow head).next).next).addr status
    used :=
      { idx := d.used.idx + 1
        ring := Function.update d.used.ring (slot ringSize d.used.idx) ⟨head.setWidth 32, len⟩ } }

theorem writeStatus_b (d : VirtioDisk B) (a : DescAddr B) (status : BitVec 8) (m : DescId) :
    (d.writeStatus a status m).b = (d.info m).b := by
  cases a with
  | status i =>
    rw [writeStatus]
    by_cases hm : m = i
    · rw [hm, Function.update_self]
    · rw [Function.update_of_ne hm]
  | null | op | data => rfl

end VirtioDisk

namespace DiskState

variable {T B : Type*} [DecidableEq T] [DecidableEq B]

/-- A pass of the allocation; after a successful one the request is submitted, and `B_VALID` being
clear the process sleeps. -/
def allocate (s : DiskState T B) (t : T) (b : B) (write : Bool) (idx : Fin 3 → Int) :
    DiskState T B :=
  let r := s.disk.tryAlloc b idx
  if r.ok then
    { s with
      disk := r.disk.submit b write r.idx
      phase := Function.update s.phase t (.waiting ⟨b, r.idx, s.submitted.length⟩ true)
      submitted := s.submitted ++ [⟨b, descAt (r.idx 0)⟩] }
  else
    { s with
      disk := r.disk.rollback r.idx
      phase := Function.update (fun u => (s.phase u).wakeFreed (toFree r.idx)) t
        (.allocating b write r.idx true) }

/-- `virtio_disk_rw` returns. -/
def leave (s : DiskState T B) (t : T) (w : Wait B) : DiskState T B :=
  { s with
    disk := s.disk.finish w.idx
    phase := Function.update (fun u => (s.phase u).wakeFreed ([0, 1, 2].map w.idx)) t .idle
    busy := Function.update s.busy w.buf false
    returned := s.returned ++ [w.req] }

/-- A process that is awake goes on. -/
def resume (s : DiskState T B) (t : T) : Option (DiskState T B) :=
  match s.phase t with
  | .allocating b write idx false => some (s.allocate t b write idx)
  | .waiting w false =>
    if (s.disk.bufs w.buf).valid then some (s.leave t w)
    else some { s with phase := Function.update s.phase t (.waiting w true) }
  | _ => none

/-- `virtio_disk_intr`. -/
def interrupt (s : DiskState T B) : DiskState T B :=
  { s with
    disk := s.disk.intr.1
    phase := fun t => (s.phase t).wakeMarked s.disk.intr.2
    handled := s.handled ++ s.disk.intr.2 }

/-- One section, or one step of the device. -/
def step (s : DiskState T B) : DiskOp T B → Option (DiskState T B)
  | .rw t b write idx =>
    match s.phase t with
    | .idle =>
      if s.busy b then none
      else
        some { s with
          phase := Function.update s.phase t (.allocating b write idx false)
          busy := Function.update s.busy b true }
    | _ => none
  | .resume t => s.resume t
  | .wake t => some { s with phase := Function.update s.phase t (s.phase t).wakeup }
  | .consume =>
    if s.lastAvail = s.disk.avail.idx then none
    else
      some { s with
        lastAvail := s.lastAvail + 1
        consumed := s.consumed + 1
        taken := s.taken ++ [(s.consumed, s.disk.avail.ring (slot ringSize s.lastAvail))] }
  | .complete j status len =>
    (s.taken[j]?).map fun p =>
      { s with
        disk := s.disk.deviceDone p.2 status len
        taken := s.taken.eraseIdx j
        finished := s.finished ++ [p.1] }
  | .intr => some s.interrupt

/-- No process is in the driver, and nothing has been submitted. -/
def init (bufs : B → Buf) : DiskState T B :=
  { disk := .boot bufs, phase := fun _ => .idle, busy := fun _ => false, lastAvail := 0,
    consumed := 0, taken := [], submitted := [], finished := [], handled := [], returned := [] }

omit [DecidableEq T] [DecidableEq B]

variable {s s' : DiskState T B}

section StepTo

variable [DecidableEq T] [DecidableEq B]

/-- What a step does, and when. -/
inductive StepTo (s : DiskState T B) : DiskOp T B → DiskState T B → Prop
  | entered {t : T} {b : B} (write : Bool) (idx : Fin 3 → Int) (ht : s.phase t = .idle)
      (hb : s.busy b = false) :
      StepTo s (.rw t b write idx) { s with
        phase := Function.update s.phase t (.allocating b write idx false)
        busy := Function.update s.busy b true }
  | allocated {t : T} {b : B} {write : Bool} {idx : Fin 3 → Int}
      (ht : s.phase t = .allocating b write idx false) :
      StepTo s (.resume t) (s.allocate t b write idx)
  | left {t : T} {w : Wait B} (ht : s.phase t = .waiting w false)
      (hv : (s.disk.bufs w.buf).valid = true) : StepTo s (.resume t) (s.leave t w)
  | asleep {t : T} {w : Wait B} (ht : s.phase t = .waiting w false) :
      StepTo s (.resume t) { s with phase := Function.update s.phase t (.waiting w true) }
  | woken (t : T) :
      StepTo s (.wake t) { s with phase := Function.update s.phase t (s.phase t).wakeup }
  | consumed (hne : s.lastAvail ≠ s.disk.avail.idx) :
      StepTo s .consume { s with
        lastAvail := s.lastAvail + 1
        consumed := s.consumed + 1
        taken := s.taken ++ [(s.consumed, s.disk.avail.ring (slot ringSize s.lastAvail))] }
  | completed {j : Nat} {p : Nat × BitVec 16} (hp : s.taken[j]? = some p) (status : BitVec 8)
      (len : BitVec 32) :
      StepTo s (.complete j status len) { s with
        disk := s.disk.deviceDone p.2 status len
        taken := s.taken.eraseIdx j
        finished := s.finished ++ [p.1] }
  | interrupted : StepTo s .intr s.interrupt

theorem step_to {o : DiskOp T B} (hs : s.step o = some s') : StepTo s o s' := by
  cases o with
  | rw t b write idx =>
    rw [DiskState.step] at hs
    split at hs
    case h_1 ht =>
      rw [Option.ite_none_left_eq_some, Option.some.injEq] at hs
      obtain ⟨hb, rfl⟩ := hs
      exact .entered write idx ht (by simpa using hb)
    case h_2 => exact absurd hs (by simp)
  | resume t =>
    rw [DiskState.step, DiskState.resume] at hs
    split at hs
    case h_1 b write idx ht =>
      rw [Option.some.injEq] at hs
      exact hs ▸ .allocated ht
    case h_2 w ht =>
      split at hs <;> rw [Option.some.injEq] at hs
      case isTrue hv => exact hs ▸ .left ht hv
      case isFalse => exact hs ▸ .asleep ht
    case h_3 => exact absurd hs (by simp)
  | wake t =>
    rw [DiskState.step, Option.some.injEq] at hs
    exact hs ▸ .woken t
  | consume =>
    rw [DiskState.step, Option.ite_none_left_eq_some, Option.some.injEq] at hs
    obtain ⟨hne, rfl⟩ := hs
    exact .consumed hne
  | complete j status len =>
    obtain ⟨p, hp, rfl⟩ := Option.map_eq_some_iff.mp hs
    exact .completed hp status len
  | intr =>
    rw [DiskState.step, Option.some.injEq] at hs
    exact hs ▸ .interrupted

end StepTo

/-- A process goes to sleep again when its buffer is not marked. -/
theorem invalid_of_asleep [DecidableEq T] [DecidableEq B] {t : T} {w : Wait B}
    (ht : s.phase t = .waiting w false)
    (hs : s.step (.resume t) =
      some { s with phase := Function.update s.phase t (.waiting w true) }) :
    (s.disk.bufs w.buf).valid = false := by
  by_contra hv
  rw [Bool.not_eq_false] at hv
  rw [DiskState.step, DiskState.resume, ht] at hs
  dsimp only at hs
  rw [if_pos hv, Option.some.injEq] at hs
  have hphase := congrArg (fun s => s.phase t) hs
  rw [DiskState.leave] at hphase
  dsimp only at hphase
  rw [Function.update_self, Function.update_self] at hphase
  exact absurd hphase (by simp)

/-! ## 2. Who owns the descriptors -/

/-- Every process in the driver has a buffer of its own, every request in flight three descriptors,
and there are no other descriptors in use. -/
structure Owners (s : DiskState T B) : Prop where
  busy : ∀ t b, (s.phase t).buf? = some b → s.busy b = true
  own : ∀ t u b, (s.phase t).buf? = some b → (s.phase u).buf? = some b → t = u
  chain : ∀ t w, (s.phase t).wait? = some w → ∃ i, Descs w.idx i ∧ Function.Injective i ∧
    (∀ j, (s.disk.info (i j)).b = some w.buf) ∧ s.submitted[w.req]? = some ⟨w.buf, i 0⟩
  marked : ∀ m b, (s.disk.info m).b = some b →
    ∃ t w j, (s.phase t).wait? = some w ∧ w.buf = b ∧ w.idx j = m.val
  active : ∀ k, k < s.submitted.length →
    k ∈ s.returned ∨ ∃ t w, (s.phase t).wait? = some w ∧ w.req = k

theorem Owners.init (bufs : B → Buf) : Owners (init bufs : DiskState T B) where
  busy := fun _ _ h => absurd h (by simp [DiskState.init, DiskPhase.buf?])
  own := fun _ _ _ h => absurd h (by simp [DiskState.init, DiskPhase.buf?])
  chain := fun _ _ h => absurd h (by simp [DiskState.init, DiskPhase.wait?])
  marked := fun _ _ h => absurd h (by simp [DiskState.init, boot])
  active := fun _ h => absurd h (Nat.not_lt_zero _)

/-- What the ownership depends on. -/
theorem Owners.congr (h : Owners s) (hbuf : ∀ t, (s'.phase t).buf? = (s.phase t).buf?)
    (hwait : ∀ t, (s'.phase t).wait? = (s.phase t).wait?) (hbusy : s'.busy = s.busy)
    (hinfo : ∀ m, (s'.disk.info m).b = (s.disk.info m).b) (hsub : s'.submitted = s.submitted)
    (hret : s'.returned = s.returned) : Owners s' where
  busy := fun t b ht => hbusy ▸ h.busy t b (hbuf t ▸ ht)
  own := fun t u b ht hu => h.own t u b (hbuf t ▸ ht) (hbuf u ▸ hu)
  chain := fun t w ht => by
    obtain ⟨i, hi, hinj, hinfo', hreq⟩ := h.chain t w (hwait t ▸ ht)
    exact ⟨i, hi, hinj, fun j => (hinfo _).trans (hinfo' j), hsub ▸ hreq⟩
  marked := fun m b hm => by
    obtain ⟨t, w, j, ht, hw⟩ := h.marked m b (hinfo m ▸ hm)
    exact ⟨t, w, j, (hwait t).trans ht, hw⟩
  active := fun k hk => by
    rw [hsub] at hk
    rw [hret]
    refine (h.active k hk).imp_right ?_
    rintro ⟨t, w, ht, hw⟩
    exact ⟨t, w, (hwait t).trans ht, hw⟩

/-- Two requests with one buffer are one request. -/
theorem Owners.wait_inj (h : Owners s) {t u : T} {v w : Wait B} (ht : (s.phase t).wait? = some v)
    (hu : (s.phase u).wait? = some w) (hbuf : v.buf = w.buf) : t = u ∧ v = w := by
  have htu : t = u :=
    h.own t u w.buf (hbuf ▸ DiskPhase.buf?_of_wait? ht) (DiskPhase.buf?_of_wait? hu)
  subst htu
  exact ⟨rfl, Option.some.inj (ht.symm.trans hu)⟩

/-- A descriptor belongs to one request. -/
theorem Owners.desc_inj (h : Owners s) {t u : T} {v w : Wait B} (ht : (s.phase t).wait? = some v)
    (hu : (s.phase u).wait? = some w) {j k : Fin 3} (hjk : v.idx j = w.idx k) : t = u := by
  obtain ⟨i, hi, -, hiinfo, -⟩ := h.chain t v ht
  obtain ⟨i', hi', -, hi'info, -⟩ := h.chain u w hu
  have heq : i j = i' k := hi.eq_of_val (hjk.trans (hi' k))
  have hbuf : some v.buf = some w.buf := (hiinfo j).symm.trans (heq ▸ hi'info k)
  exact (h.wait_inj ht hu (Option.some.inj hbuf)).1

/-- **The descriptors in use come in threes.** -/
theorem Owners.three_dvd (h : Owners s) : 3 ∣ s.disk.inUse.card := by
  classical
  rw [Finset.card_eq_sum_card_image fun m => (s.disk.info m).b]
  refine Finset.dvd_sum fun ob hob => ?_
  obtain ⟨m, hm, rfl⟩ := Finset.mem_image.mp hob
  obtain ⟨b, hb⟩ := Option.ne_none_iff_exists'.mp (mem_inUse.mp hm)
  obtain ⟨t, w, -, ht, rfl, -⟩ := h.marked m b hb
  obtain ⟨i, hi, hinj, hinfo, -⟩ := h.chain t w ht
  -- the descriptors with this buffer are those of the request
  have hfiber : s.disk.inUse.filter (fun n => (s.disk.info n).b = (s.disk.info m).b) =
      Finset.univ.image i := by
    ext n
    rw [Finset.mem_filter, mem_inUse, hb, Finset.mem_image]
    constructor
    · rintro ⟨-, hn⟩
      obtain ⟨u, v, j, hu, hbuf, hj⟩ := h.marked n w.buf hn
      obtain ⟨-, rfl⟩ := h.wait_inj hu ht hbuf
      exact ⟨j, Finset.mem_univ j, hi.eq_of_val hj⟩
    · rintro ⟨j, -, rfl⟩
      exact ⟨by rw [hinfo j]; simp, hinfo j⟩
  rw [hfiber, Finset.card_image_of_injective _ hinj, Finset.card_univ, Fintype.card_fin]

/-- Requests that have not returned have different heads, so that there are at most eight. -/
theorem Owners.length_le (h : Owners s) {ks : List Nat} (hnd : ks.Nodup)
    (hks : ∀ k ∈ ks, k < s.submitted.length ∧ k ∉ s.returned) : ks.length ≤ ringSize := by
  let head : Nat → DescId := fun k => ((s.submitted[k]?).map Request.head).getD 0
  have hinj : ∀ k ∈ ks, ∀ l ∈ ks, head k = head l → k = l := by
    intro k hk l hl hkl
    obtain ⟨t, v, ht, rfl⟩ := (h.active k (hks k hk).1).resolve_left (hks k hk).2
    obtain ⟨u, w, hu, rfl⟩ := (h.active l (hks l hl).1).resolve_left (hks l hl).2
    obtain ⟨i, -, -, hiinfo, hireq⟩ := h.chain t v ht
    obtain ⟨i', -, -, hi'info, hi'req⟩ := h.chain u w hu
    have heq : i 0 = i' 0 := by simpa [head, hireq, hi'req] using hkl
    have hbuf : some v.buf = some w.buf := (hiinfo 0).symm.trans (heq ▸ hi'info 0)
    rw [(h.wait_inj ht hu (Option.some.inj hbuf)).2]
  have hheads : (ks.map head).Nodup := List.Nodup.map_on hinj hnd
  simpa using hheads.length_le_card

/-- The descriptors of a request are not free. -/
theorem Owners.ne_of_free (h : Owners s) {t : T} {w : Wait B} (ht : (s.phase t).wait? = some w)
    {i : Fin 3 → DescId} (hi : Descs w.idx i) {m : DescId} (hm : (s.disk.info m).b = none)
    (j : Fin 3) : i j ≠ m := by
  rintro rfl
  obtain ⟨i', hi', -, hinfo, -⟩ := h.chain t w ht
  have heq : i j = i' j := hi.eq_of_val (hi' j)
  rw [heq, hinfo j] at hm
  exact absurd hm (by simp)

variable [DecidableEq T]

/-- A phase of one process. -/
theorem update_phase (f : T → DiskPhase B) (t u : T) (p : DiskPhase B) :
    (u = t ∧ Function.update f t p u = p) ∨ (u ≠ t ∧ Function.update f t p u = f u) := by
  by_cases hu : u = t
  · exact Or.inl ⟨hu, by rw [hu, Function.update_self]⟩
  · exact Or.inr ⟨hu, Function.update_of_ne hu _ _⟩

/-- A process may go on as it likes, as long as its buffer and its request stay. -/
theorem update_wait? {f : T → DiskPhase B} {t : T} {p : DiskPhase B}
    (hp : p.wait? = (f t).wait?) (u : T) : (Function.update f t p u).wait? = (f u).wait? := by
  rcases update_phase f t u p with ⟨rfl, hup⟩ | ⟨-, hup⟩
  · rw [hup, hp]
  · rw [hup]

theorem update_buf? {f : T → DiskPhase B} {t : T} {p : DiskPhase B}
    (hp : p.buf? = (f t).buf?) (u : T) : (Function.update f t p u).buf? = (f u).buf? := by
  rcases update_phase f t u p with ⟨rfl, hup⟩ | ⟨-, hup⟩
  · rw [hup, hp]
  · rw [hup]

/-- A new request takes three descriptors that nobody has. -/
theorem Owners.submitted (h : Owners s) {t : T} {w : Wait B} {i : Fin 3 → DescId}
    (hbuf : (s.phase t).buf? = some w.buf) (hwait : (s.phase t).wait? = none)
    (hi : Descs w.idx i) (hinj : Function.Injective i) (hreq : w.req = s.submitted.length)
    (hfree : ∀ j, (s.disk.info (i j)).b = none)
    (hphase : s'.phase = Function.update s.phase t (.waiting w true))
    (hbusy : s'.busy = s.busy) (hsub : s'.submitted = s.submitted ++ [⟨w.buf, i 0⟩])
    (hret : s'.returned = s.returned) (hmine : ∀ j, (s'.disk.info (i j)).b = some w.buf)
    (hothers : ∀ m, (∀ j, m ≠ i j) → (s'.disk.info m).b = (s.disk.info m).b) : Owners s' := by
  have hbufs : ∀ u, (s'.phase u).buf? = (s.phase u).buf? := by
    rw [hphase]
    exact update_buf? (by rw [hbuf]; rfl)
  have hself : (s'.phase t).wait? = some w := by
    rw [hphase, Function.update_self]
    rfl
  have hnew : ∀ u v, (s'.phase u).wait? = some v →
      (u = t ∧ v = w) ∨ (s.phase u).wait? = some v := by
    intro u v hu
    rw [hphase] at hu
    rcases update_phase s.phase t u (.waiting w true) with ⟨rfl, hup⟩ | ⟨-, hup⟩
    · rw [hup] at hu
      exact Or.inl ⟨rfl, (Option.some.inj hu).symm⟩
    · rw [hup] at hu
      exact Or.inr hu
  have hold : ∀ u v, (s.phase u).wait? = some v → (s'.phase u).wait? = some v := by
    intro u v hu
    have hne : u ≠ t := by
      rintro rfl
      rw [hwait] at hu
      exact absurd hu (by simp)
    rwa [hphase, Function.update_of_ne hne]
  refine ⟨fun u c hu => hbusy ▸ h.busy u c (hbufs u ▸ hu), fun u v c hu hv =>
    h.own u v c (hbufs u ▸ hu) (hbufs v ▸ hv), fun u v hu => ?_, fun m c hm => ?_, fun k hk => ?_⟩
  · rcases hnew u v hu with ⟨rfl, rfl⟩ | hu
    · refine ⟨i, hi, hinj, hmine, ?_⟩
      rw [hsub, hreq, List.getElem?_concat_length]
    · obtain ⟨i', hi', hinj', hinfo', hreq'⟩ := h.chain u v hu
      refine ⟨i', hi', hinj', fun j => ?_, ?_⟩
      · exact (hothers _ fun k => h.ne_of_free hu hi' (hfree k) j).trans (hinfo' j)
      · obtain ⟨hlt, -⟩ := List.getElem?_eq_some_iff.mp hreq'
        rwa [hsub, List.getElem?_append_left hlt]
  · by_cases hmi : ∃ j, m = i j
    · obtain ⟨j, rfl⟩ := hmi
      have hcw : some w.buf = some c := (hmine j).symm.trans hm
      exact ⟨t, w, j, hself, Option.some.inj hcw, hi j⟩
    · rw [hothers m fun j e => hmi ⟨j, e⟩] at hm
      obtain ⟨u, v, j, hu, hv⟩ := h.marked m c hm
      exact ⟨u, v, j, hold u v hu, hv⟩
  · rw [hsub, List.length_append, List.length_singleton] at hk
    rw [hret]
    by_cases hkn : k = s.submitted.length
    · exact Or.inr ⟨t, w, hself, hreq.trans hkn.symm⟩
    · refine (h.active k (by omega)).imp_right ?_
      rintro ⟨u, v, hu, hv⟩
      exact ⟨u, v, hold u v hu, hv⟩

variable [DecidableEq B]

/-- A call. -/
theorem Owners.enter (h : Owners s) {t : T} (ht : s.phase t = .idle) {b : B} (hb : s.busy b = false)
    (write : Bool) (idx : Fin 3 → Int) :
    Owners { s with
      phase := Function.update s.phase t (.allocating b write idx false)
      busy := Function.update s.busy b true } := by
  have hwait : ∀ u, (Function.update s.phase t (.allocating b write idx false) u).wait? =
      (s.phase u).wait? := update_wait? (by rw [ht]; rfl)
  have hbuf : ∀ u c, (Function.update s.phase t (.allocating b write idx false) u).buf? = some c →
      (u = t ∧ c = b) ∨ (u ≠ t ∧ (s.phase u).buf? = some c) := by
    intro u c hu
    rcases update_phase s.phase t u (.allocating b write idx false) with ⟨rfl, hup⟩ | ⟨hne, hup⟩
    · rw [hup] at hu
      exact Or.inl ⟨rfl, (Option.some.inj hu).symm⟩
    · rw [hup] at hu
      exact Or.inr ⟨hne, hu⟩
  have hother : ∀ u, (s.phase u).buf? ≠ some b := fun u hu => by
    rw [h.busy u b hu] at hb
    exact absurd hb (by decide)
  refine ⟨fun u c hu => ?_, fun u v c hu hv => ?_, fun u w hu => h.chain u w (hwait u ▸ hu),
    fun m c hm => ?_, fun k hk => ?_⟩
  · by_cases hcb : c = b
    · rw [hcb]
      exact Function.update_self _ _ _
    · rcases hbuf u c hu with ⟨-, rfl⟩ | ⟨-, hu⟩
      · exact absurd rfl hcb
      · exact (Function.update_of_ne hcb _ _).trans (h.busy u c hu)
  · rcases hbuf u c hu with ⟨rfl, rfl⟩ | ⟨-, hu⟩
    · rcases hbuf v c hv with ⟨rfl, -⟩ | ⟨-, hv⟩
      · rfl
      · exact absurd hv (hother v)
    · rcases hbuf v c hv with ⟨-, hcb⟩ | ⟨-, hv⟩
      · exact absurd (hcb ▸ hu) (hother u)
      · exact h.own u v c hu hv
  · obtain ⟨u, w, j, hu, hw⟩ := h.marked m c hm
    exact ⟨u, w, j, (hwait u).trans hu, hw⟩
  · refine (h.active k hk).imp_right ?_
    rintro ⟨u, w, hu, hw⟩
    exact ⟨u, w, (hwait u).trans hu, hw⟩

theorem allocate_of_ok {t : T} {b : B} {write : Bool} {idx : Fin 3 → Int}
    (hok : (s.disk.tryAlloc b idx).ok = true) :
    s.allocate t b write idx =
      { s with
        disk := (s.disk.tryAlloc b idx).disk.submit b write (s.disk.tryAlloc b idx).idx
        phase := Function.update s.phase t
          (.waiting ⟨b, (s.disk.tryAlloc b idx).idx, s.submitted.length⟩ true)
        submitted := s.submitted ++ [⟨b, descAt ((s.disk.tryAlloc b idx).idx 0)⟩] } :=
  if_pos hok

theorem allocate_of_failed {t : T} {b : B} {write : Bool} {idx : Fin 3 → Int}
    (hfail : (s.disk.tryAlloc b idx).ok = false) :
    s.allocate t b write idx =
      { s with
        disk := (s.disk.tryAlloc b idx).disk.rollback (s.disk.tryAlloc b idx).idx
        phase := Function.update
          (fun u => (s.phase u).wakeFreed (toFree (s.disk.tryAlloc b idx).idx)) t
          (.allocating b write (s.disk.tryAlloc b idx).idx true) } :=
  if_neg (by simp [hfail])

/-- **A failed attempt** leaves the ownership as it was. -/
theorem Owners.allocate_failed (h : Owners s) {t : T} {b : B} {write asleep : Bool}
    {idx : Fin 3 → Int} (ht : s.phase t = .allocating b write idx asleep)
    (hfail : (s.disk.tryAlloc b idx).ok = false) : Owners (s.allocate t b write idx) := by
  rw [allocate_of_failed hfail]
  refine h.congr (fun u => ?_) (fun u => ?_) rfl
    (tryAlloc_failed h.three_dvd b idx hfail).2.2 rfl rfl
  · dsimp only
    rw [update_buf?, DiskPhase.wakeFreed_buf?]
    rw [DiskPhase.wakeFreed_buf?, ht]
    rfl
  · dsimp only
    rw [update_wait?, DiskPhase.wakeFreed_wait?]
    rw [DiskPhase.wakeFreed_wait?, ht]
    rfl

/-- **A successful attempt.** -/
theorem Owners.allocate_ok (h : Owners s) {t : T} {b : B} {write asleep : Bool}
    {idx : Fin 3 → Int} (ht : s.phase t = .allocating b write idx asleep)
    (hok : (s.disk.tryAlloc b idx).ok = true) : Owners (s.allocate t b write idx) := by
  obtain ⟨i, hi, hinj, hfree, hmine, hothers⟩ := tryAlloc_ok b idx hok
  rw [allocate_of_ok hok]
  refine h.submitted (t := t) (w := ⟨b, _, s.submitted.length⟩) (i := i) (by rw [ht]; rfl)
    (by rw [ht]; rfl) hi hinj rfl hfree rfl rfl ?_ rfl (fun j => ?_) (fun m hm => ?_)
  · dsimp only
    rw [hi 0, descAt_val]
  · exact (submit_info hi (hmine 0) _).trans (hmine j)
  · exact (submit_info hi (hmine 0) _).trans (hothers m hm)

theorem leave_self (s : DiskState T B) (t : T) (w : Wait B) : (s.leave t w).phase t = .idle := by
  rw [DiskState.leave]
  dsimp only
  rw [Function.update_self]

/-- Another process is not affected by a return, but for a wakeup. -/
theorem leave_of_ne (s : DiskState T B) {t u : T} (hu : u ≠ t) (w : Wait B) :
    (s.leave t w).phase u = (s.phase u).wakeFreed ([0, 1, 2].map w.idx) := by
  rw [DiskState.leave]
  dsimp only
  rw [Function.update_of_ne hu]

theorem leave_buf? (s : DiskState T B) {t u : T} (hu : u ≠ t) (w : Wait B) :
    ((s.leave t w).phase u).buf? = (s.phase u).buf? := by
  rw [leave_of_ne s hu, DiskPhase.wakeFreed_buf?]

theorem leave_wait? (s : DiskState T B) {t u : T} (hu : u ≠ t) (w : Wait B) :
    ((s.leave t w).phase u).wait? = (s.phase u).wait? := by
  rw [leave_of_ne s hu, DiskPhase.wakeFreed_wait?]

/-- **A return** gives back the descriptors of the request, and no others. -/
theorem Owners.leave (h : Owners s) {t : T} {w : Wait B} (ht : (s.phase t).wait? = some w) :
    Owners (s.leave t w) := by
  obtain ⟨i, hi, -, hinfo, -⟩ := h.chain t w ht
  have hbuf : ∀ u c, ((s.leave t w).phase u).buf? = some c → u ≠ t ∧ (s.phase u).buf? = some c := by
    intro u c hu
    have hne : u ≠ t := by
      rintro rfl
      rw [leave_self] at hu
      exact absurd hu (by simp [DiskPhase.buf?])
    exact ⟨hne, leave_buf? s hne w ▸ hu⟩
  have hwait : ∀ u v, ((s.leave t w).phase u).wait? = some v →
      u ≠ t ∧ (s.phase u).wait? = some v := by
    intro u v hu
    have hne := (hbuf u v.buf (DiskPhase.buf?_of_wait? hu)).1
    exact ⟨hne, leave_wait? s hne w ▸ hu⟩
  have hdisk : ∀ m, ((s.leave t w).disk.info m).b =
      if ∃ j, m = i j then none else (s.disk.info m).b := finish_info _ hi
  refine ⟨fun u c hu => ?_, fun u v c hu hv => h.own u v c (hbuf u c hu).2 (hbuf v c hv).2,
    fun u v hu => ?_, fun m c hm => ?_, fun k hk => ?_⟩
  · obtain ⟨hne, hu⟩ := hbuf u c hu
    have hcw : c ≠ w.buf := by
      rintro rfl
      exact hne (h.own u t _ hu (DiskPhase.buf?_of_wait? ht))
    exact (Function.update_of_ne hcw _ _).trans (h.busy u c hu)
  · obtain ⟨hne, hu⟩ := hwait u v hu
    obtain ⟨i', hi', hinj', hinfo', hreq'⟩ := h.chain u v hu
    refine ⟨i', hi', hinj', fun j => ?_, hreq'⟩
    have hnot : ¬ ∃ k, i' j = i k := by
      rintro ⟨k, hk⟩
      refine hne (h.desc_inj hu ht (j := j) (k := k) ?_)
      rw [hi' j, hi k, hk]
    rw [hdisk, if_neg hnot]
    exact hinfo' j
  · rw [hdisk] at hm
    split at hm
    case isTrue => exact absurd hm (by simp)
    case isFalse hnot =>
      obtain ⟨u, v, j, hu, hv, hj⟩ := h.marked m c hm
      have hne : u ≠ t := by
        rintro rfl
        obtain rfl := Option.some.inj (hu.symm.trans ht)
        exact hnot ⟨j, (hi.eq_of_val hj).symm⟩
      exact ⟨u, v, j, (leave_wait? s hne w).trans hu, hv, hj⟩
  · rcases h.active k hk with hret | ⟨u, v, hu, hv⟩
    · exact Or.inl (List.mem_append_left _ hret)
    · by_cases hut : u = t
      · subst hut
        obtain rfl := Option.some.inj (hu.symm.trans ht)
        exact Or.inl (List.mem_append_right _ (hv ▸ List.mem_singleton_self _))
      · exact Or.inr ⟨u, v, (leave_wait? s hut w).trans hu, hv⟩

end DiskState

end Lithium
