/-
# Getting a buffer and giving it back

One caller of `block_read`, `block_write` and `block_release`, over the cache of `Buffer.lean` and
the disk.  The caller is `cur`: a process, or `none` while `current_process` is `NULL`, as it is
when `fs_init` runs `log_init` and `inode_init`.

`sleeplock_acquire` gives a free lock to a caller that is not a process; `sleeplock_held` then
says that it does not hold it, and `block_write` and `block_release` return without effect.  And
`sleep` comes back at once to such a caller: when the block has to be loaded, `virtio_disk_rw` goes
round its last loop for ever, with `vdisk_lock` held.  So a buffer that `block_read` returns comes
back to the cache as it left it exactly for a caller that is a process; to any other it returns
buffers that are valid already (section 4).
-/
import Lithium.Fs.BufferKeys

namespace Lithium

/-! ## 1. `block.c` for one caller -/

/-- The cache and the disk under it. -/
structure Storage where
  cache : Bcache
  disk : Disk

/-- How a call of `block_read` ends. -/
inductive ReadEnd where
  /-- `NULL`: the cache is exhausted. -/
  | null
  /-- The sleeplock is taken, and `sleeplock_acquire` does not return. -/
  | blocks
  /-- The caller is no process, and `virtio_disk_rw` does not return. -/
  | spins
  /-- The buffer, with its sleeplock. -/
  | got (i : Fin nbuf)
  deriving DecidableEq

variable {s s₁ t : Storage} {cur : Option Pid} {dev : BitVec 32} {blockno : BlockNo}
  {i : Fin nbuf} {status : BitVec 8}

namespace Storage

/-- The buffer with index `i`. -/
abbrev buf (s : Storage) (i : Fin nbuf) : Buf := s.cache.bufs i

@[simp] theorem buf_mk (c : Bcache) (disk : Disk) (i : Fin nbuf) :
    buf ⟨c, disk⟩ i = c.bufs i := rfl

/-- Replace a buffer. -/
def set (s : Storage) (i : Fin nbuf) (b : Buf) : Storage := { s with cache := s.cache.set i b }

/-- `virtio_disk_rw(b, 0)` for a process, with the status the device answers. -/
def load (s : Storage) (i : Fin nbuf) (status : BitVec 8) : Storage :=
  let b := virtioDiskIntr (virtioDiskRw (s.buf i))
  s.set i (if status = 0 then { b with data := s.disk b.blockno } else b)

/-- `block_read`: `buf_get` with its `sleeplock_acquire`, and the disk when `B_VALID` is clear.
While `current_process` is `NULL`, `sleep` in `virtio_disk_rw` neither sleeps nor releases
`vdisk_lock`, and nobody sets `B_VALID`. -/
def blockRead (s : Storage) (cur : Option Pid) (dev : BitVec 32) (blockno : BlockNo)
    (status : BitVec 8) : Option (Storage × ReadEnd) := do
  match ← bufGet s.cache dev blockno with
  | (c, none) => some ({ s with cache := c }, .null)
  | (c, some i) =>
    match sleeplockAcquire (c.bufs i).lock cur with
    | none => some ({ s with cache := c }, .blocks)
    | some lk =>
      let s := { s with cache := c.set i { c.bufs i with lock := lk } }
      if (s.buf i).valid then some (s, .got i)
      else if cur = none then some (s.set i (virtioDiskRw (s.buf i)), .spins)
      else some (s.load i status, .got i)

/-- The caller fills the buffer. -/
def setData (s : Storage) (i : Fin nbuf) (data : Block) : Storage :=
  s.set i { s.buf i with data := data }

/-- `block_write`, with the status the device answers; `none` when no request is made. -/
def blockWrite (s : Storage) (cur : Option Pid) (i : Fin nbuf) (status : BitVec 8) :
    Option Storage :=
  (Lithium.blockWrite (s.buf i) cur).map fun b =>
    { s.set i (virtioDiskIntr b) with
      disk := if status = 0 then Function.update s.disk b.blockno b.data else s.disk }

/-- `block_release`. -/
def blockRelease (s : Storage) (cur : Option Pid) (i : Fin nbuf) : Storage :=
  if sleeplockHeld (s.buf i).lock cur then
    { s with
      cache := bufDrop (s.cache.set i
        { s.buf i with lock := sleeplockRelease (s.buf i).lock }) i }
  else s

/-! ## 2. What a caller counts on -/

/-- In `t` the buffer `i`, which the caller got in `s`, is given back. -/
structure GivenBack (s : Storage) (cur : Option Pid) (dev : BitVec 32) (blockno : BlockNo)
    (i : Fin nbuf) (t : Storage) : Prop where
  free : (t.buf i).lock.locked = false
  refcnt : (t.buf i).refcnt = (s.buf i).refcnt
  /-- The caller can get it once more. -/
  again : ∀ status, ∃ u, t.blockRead cur dev blockno status = some (u, .got i)

/-- Getting the buffer `i` in `s`, which leaves `s₁`, and releasing it is neutral, and a write in
between reaches the disk. -/
structure Neutral (s : Storage) (cur : Option Pid) (dev : BitVec 32) (blockno : BlockNo)
    (i : Fin nbuf) (s₁ : Storage) : Prop where
  released : GivenBack s cur dev blockno i (s₁.blockRelease cur i)
  written : ∀ data status, ∃ t, (s₁.setData i data).blockWrite cur i status = some t ∧
    t.disk = (if status = 0 then Function.update s₁.disk blockno data else s₁.disk) ∧
    GivenBack s cur dev blockno i (t.blockRelease cur i)

/-! ## 3. The buffer the caller has -/

/-- The buffer `i` is the first one with the key, and its sleeplock is taken by `cur`, which a
caller that is no process cannot show. -/
structure Fetched (s : Storage) (cur : Option Pid) (dev : BitVec 32) (blockno : BlockNo)
    (i : Fin nbuf) (s₁ : Storage) : Prop where
  linked : s₁.cache.AllLinked
  first : s₁.cache.searchNext (s₁.cache.hasKey dev blockno) = some (some i)
  holds : (s₁.buf i).blockno = blockno
  locked : (s₁.buf i).lock.locked = true
  pid : ∀ p, cur = some p → (s₁.buf i).lock.pid = p
  refcnt : (s₁.buf i).refcnt = (s.buf i).refcnt + 1

end Storage

/-- The search looks at nothing but the keys. -/
theorem Bcache.hasKey_congr {c c' : Bcache} (h : ∀ j, (c'.bufs j).SameKey (c.bufs j))
    (dev : BitVec 32) (blockno : BlockNo) : c'.hasKey dev blockno = c.hasKey dev blockno := by
  funext n
  cases n with
  | none => rfl
  | some j => rw [Bcache.hasKey, Bcache.hasKey, (h j).1, (h j).2]

/-- Where the keys and the order are the same, the search ends the same. -/
theorem Bcache.searchNext_congr {c c' : Bcache} (hlinks : c'.links = c.links)
    (h : ∀ j, (c'.bufs j).SameKey (c.bufs j)) (dev : BitVec 32) (blockno : BlockNo) :
    c'.searchNext (c'.hasKey dev blockno) = c.searchNext (c.hasKey dev blockno) := by
  rw [Bcache.hasKey_congr h, Bcache.searchNext, Bcache.searchNext, hlinks]

/-- Replacing a buffer without touching its key moves nothing in the search. -/
theorem Bcache.searchNext_set (c : Bcache) {i : Fin nbuf} {b : Buf} (hb : b.SameKey (c.bufs i))
    (dev : BitVec 32) (blockno : BlockNo) :
    (c.set i b).searchNext ((c.set i b).hasKey dev blockno) =
      c.searchNext (c.hasKey dev blockno) :=
  Bcache.searchNext_congr (c.set_links i b) (CacheState.sameKey_set c hb) dev blockno

/-- `buf_get` finds the key first where it returns, and counts the reference. -/
theorem bufGet_first {c c' : Bcache} {dev : BitVec 32} {blockno : BlockNo} {i : Fin nbuf}
    (h : c.AllLinked) (hs : bufGet c dev blockno = some (c', some i)) :
    c'.AllLinked ∧ c'.searchNext (c'.hasKey dev blockno) = some (some i) ∧
      (c'.bufs i).blockno = blockno ∧ (c'.bufs i).refcnt = (c.bufs i).refcnt + 1 := by
  obtain ⟨xs, hxs, hall⟩ := id h
  simp only [bufGet, searchNext_eq hxs hxs.length_le, searchPrev_eq hxs hxs.length_le,
    Option.bind_eq_bind, Option.bind_some] at hs
  cases hhit : xs.find? (fun i => c.hasKey dev blockno (some i)) with
  | some j =>
    simp only [hhit, Option.some.injEq, Prod.mk.injEq] at hs
    obtain ⟨rfl, rfl⟩ := hs
    have hj : c.hasKey dev blockno (some j) = true := List.find?_some (p := fun i =>
      c.hasKey dev blockno (some i)) hhit
    obtain ⟨-, hblockno⟩ := (Bcache.hasKey_some _ _ _ _).mp hj
    refine ⟨h.congr rfl, ?_, by rw [Bcache.set_bufs_self]; exact hblockno,
      by rw [Bcache.set_bufs_self]⟩
    have hkey : Buf.SameKey { c.bufs j with refcnt := (c.bufs j).refcnt + 1 } (c.bufs j) :=
      ⟨rfl, rfl⟩
    rw [Bcache.searchNext_set c hkey, searchNext_eq hxs hxs.length_le, hhit]
  | none =>
    have hmiss : ∀ j, c.hasKey dev blockno (some j) ≠ true := fun j =>
      List.find?_eq_none.mp hhit j (hall j)
    cases hfree : xs.reverse.find? (fun i => c.recyclable (some i)) with
    | none => simp [hhit, hfree] at hs
    | some j =>
      simp only [hhit, hfree, Option.some.injEq, Prod.mk.injEq] at hs
      obtain ⟨rfl, rfl⟩ := hs
      have hj : c.recyclable (some j) = true :=
        List.find?_some (p := fun i => c.recyclable (some i)) hfree
      obtain ⟨hzero, -⟩ := (Bcache.recyclable_some c j).mp hj
      refine ⟨h.congr rfl, ?_, by rw [Bcache.set_bufs_self], by rw [Bcache.set_bufs_self, hzero]⟩
      -- Nobody had the key, so the recycled buffer is the only one that has it.
      have hlru : (c.set j { c.bufs j with
          dev := dev, blockno := blockno, flags := 0, refcnt := 1 }).Lru xs := hxs
      rw [searchNext_eq hlru hlru.length_le, Option.some.injEq, List.find?_eq_some_iff_append]
      obtain ⟨us, vs, rfl⟩ := List.append_of_mem (hall j)
      refine ⟨?_, us, vs, rfl, fun k hk => ?_⟩
      · rw [Bcache.hasKey_some, Bcache.set_bufs_self]
        exact ⟨rfl, rfl⟩
      · have hkj : k ≠ j := by
          rintro rfl
          have hnd := hxs.nodup
          rw [List.nodup_middle, List.nodup_cons] at hnd
          exact hnd.1 (List.mem_append_left _ hk)
        rw [Bool.not_eq_true', ← Bool.not_eq_true]
        simpa [Bcache.hasKey, Bcache.set_bufs_of_ne c hkj] using hmiss k

namespace Storage

/-- Changing the buffer the caller has, but not its key, lock and reference count. -/
theorem Fetched.set (h : Fetched s cur dev blockno i s₁) (b : Buf) (disk : Disk)
    (hkey : b.SameKey (s₁.buf i)) (hlock : b.lock = (s₁.buf i).lock)
    (hrefcnt : b.refcnt = (s₁.buf i).refcnt) :
    Fetched s cur dev blockno i { s₁.set i b with disk := disk } where
  linked := h.linked.congr rfl
  first := (Bcache.searchNext_set s₁.cache hkey dev blockno).trans h.first
  holds := by simpa [Storage.set, hkey.2] using h.holds
  locked := by simpa [Storage.set, hlock] using h.locked
  pid := fun p hp => by simpa [Storage.set, hlock] using h.pid p hp
  refcnt := by simpa [Storage.set, hrefcnt] using h.refcnt

/-- What `block_read` returns. -/
theorem blockRead_got (h : s.cache.AllLinked)
    (hs : s.blockRead cur dev blockno status = some (s₁, .got i)) :
    Fetched s cur dev blockno i s₁ := by
  unfold blockRead at hs
  cases hget : bufGet s.cache dev blockno with
  | none => simp [hget] at hs
  | some r =>
    obtain ⟨c, o⟩ := r
    cases o with
    | none => simp [hget] at hs
    | some j =>
      obtain ⟨hlinked, hfirst, hblockno, hrefcnt⟩ := bufGet_first h hget
      simp only [hget, Option.bind_eq_bind, Option.bind_some] at hs
      cases hacq : sleeplockAcquire (c.bufs j).lock cur with
      | none => simp [hacq] at hs
      | some lk =>
        obtain ⟨-, ⟨⟩⟩ := Option.ite_none_left_eq_some.mp hacq
        -- The lock taken, before the disk is looked at.
        have htaken : Fetched s cur dev blockno j { s with
            cache := c.set j { c.bufs j with lock := ⟨true, cur.getD (c.bufs j).lock.pid⟩ } } := by
          refine ⟨hlinked.congr rfl, ?_, by simpa using hblockno, by simp, ?_,
            by simpa using hrefcnt⟩
          · have hkey : Buf.SameKey { c.bufs j with
                lock := ⟨true, cur.getD (c.bufs j).lock.pid⟩ } (c.bufs j) := ⟨rfl, rfl⟩
            exact (Bcache.searchNext_set c hkey dev blockno).trans hfirst
          · rintro p rfl
            simp
        simp only [hacq] at hs
        split at hs
        case isTrue =>
          obtain ⟨rfl, ⟨⟩⟩ := Prod.mk.inj (Option.some.inj hs)
          exact htaken
        case isFalse =>
          split at hs
          case isTrue => cases (Prod.mk.inj (Option.some.inj hs)).2
          case isFalse =>
            obtain ⟨rfl, ⟨⟩⟩ := Prod.mk.inj (Option.some.inj hs)
            unfold load
            split
            · exact htaken.set _ _ ⟨rfl, rfl⟩ rfl rfl
            · exact htaken.set _ _ ⟨rfl, rfl⟩ rfl rfl

/-- `buf_get` of the first buffer with its key. -/
theorem bufGet_of_first (h : t.cache.searchNext (t.cache.hasKey dev blockno) = some (some i)) :
    bufGet t.cache dev blockno =
      some (t.cache.set i { t.buf i with refcnt := (t.buf i).refcnt + 1 }, some i) := by
  simp [bufGet, h]

/-- A buffer that is first with its key and whose sleeplock is free can be got by a process, and by
anybody when it is valid. -/
theorem blockRead_again (h : t.cache.searchNext (t.cache.hasKey dev blockno) = some (some i))
    (hfree : (t.buf i).lock.locked = false) {cur : Option Pid}
    (hcur : cur ≠ none ∨ (t.buf i).valid = true) (status : BitVec 8) :
    ∃ u, t.blockRead cur dev blockno status = some (u, .got i) := by
  simp only [blockRead, bufGet_of_first h, Option.bind_eq_bind, Option.bind_some,
    Bcache.set_bufs_self, sleeplockAcquire, hfree, Bool.false_eq_true, if_false]
  split
  case isTrue => exact ⟨_, rfl⟩
  case isFalse hinvalid =>
    have hprocess : cur ≠ none := hcur.resolve_right fun hvalid => hinvalid (by
      simpa [Buf.valid] using hvalid)
    rw [if_neg hprocess]
    exact ⟨_, rfl⟩

/-- One whose sleeplock is taken blocks everybody. -/
theorem blockRead_blocks (h : t.cache.searchNext (t.cache.hasKey dev blockno) = some (some i))
    (htaken : (t.buf i).lock.locked = true) (cur : Option Pid) (status : BitVec 8) :
    ∃ u, t.blockRead cur dev blockno status = some (u, .blocks) := by
  simp only [blockRead, bufGet_of_first h, Option.bind_eq_bind, Option.bind_some,
    Bcache.set_bufs_self, sleeplockAcquire, htaken, if_true]
  exact ⟨_, rfl⟩

/-- The block is in the cache, valid, and nobody has its buffer. -/
def Ready (s : Storage) (dev : BitVec 32) (blockno : BlockNo) : Prop :=
  ∃ i, s.cache.searchNext (s.cache.hasKey dev blockno) = some (some i) ∧
    (s.buf i).lock.locked = false ∧ (s.buf i).valid = true

/-- **While `current_process` is `NULL`** `block_read` returns no other blocks. -/
theorem blockRead_null_iff :
    (∃ i s₁, s.blockRead none dev blockno status = some (s₁, .got i)) ↔ s.Ready dev blockno := by
  constructor
  · rintro ⟨i, s₁, hs⟩
    unfold blockRead bufGet at hs
    cases hfirst : s.cache.searchNext (s.cache.hasKey dev blockno) with
    | none => simp [hfirst] at hs
    | some o =>
      cases o with
      | some j =>
        simp only [hfirst, Option.bind_eq_bind, Option.bind_some, Bcache.set_bufs_self] at hs
        cases hlocked : (s.buf j).lock.locked with
        | true => simp [sleeplockAcquire, hlocked] at hs
        | false =>
          simp only [sleeplockAcquire, hlocked, Bool.false_eq_true, if_false, if_true] at hs
          refine ⟨j, hfirst, hlocked, ?_⟩
          split at hs
          case isTrue hvalid => simpa [Buf.valid] using hvalid
          case isFalse => cases (Prod.mk.inj (Option.some.inj hs)).2
      | none =>
        cases hlast : s.cache.searchPrev s.cache.recyclable with
        | none => simp [hfirst, hlast] at hs
        | some o =>
          cases o with
          | none => simp [hfirst, hlast] at hs
          | some j =>
            -- a recycled buffer is not valid
            simp only [hfirst, hlast, Option.bind_eq_bind, Option.bind_some,
              Bcache.set_bufs_self] at hs
            cases hlocked : (s.buf j).lock.locked with
            | true => simp [sleeplockAcquire, hlocked] at hs
            | false =>
              simp [sleeplockAcquire, hlocked, Buf.valid, buf] at hs
  · rintro ⟨i, hfirst, hfree, hvalid⟩
    obtain ⟨u, hu⟩ : ∃ u, s.blockRead none dev blockno status = some (u, .got i) :=
      blockRead_again hfirst hfree (.inr hvalid) status
    exact ⟨i, u, hu⟩

/-- Dropping the reference leaves the buffer first with its key: it stays, or goes to the front. -/
theorem bufDrop_first {c : Bcache} (h : c.AllLinked)
    (hfirst : c.searchNext (c.hasKey dev blockno) = some (some i)) :
    (bufDrop c i).searchNext ((bufDrop c i).hasKey dev blockno) = some (some i) := by
  have hkeys : ∀ j, ((bufDrop c i).bufs j).SameKey (c.bufs j) := fun j => by
    rw [CacheState.bufDrop_bufs]
    exact CacheState.sameKey_refcnt c i _ j
  obtain ⟨xs, hxs, hall⟩ := id h
  obtain ⟨us, vs, rfl⟩ := List.append_of_mem (hall i)
  rw [Bcache.hasKey_congr hkeys]
  rw [searchNext_eq hxs hxs.length_le, Option.some.injEq] at hfirst
  by_cases hlast : (c.bufs i).refcnt - 1 = 0
  · have hlru : (bufDrop c i).Lru (i :: (us ++ vs)) := by
      refine hxs.moveFront ?_
      simp [bufDrop, hlast]
    rw [searchNext_eq hlru hlru.length_le, List.find?_cons_of_pos (List.find?_some hfirst)]
  · have hlinks : (bufDrop c i).links = c.links := by simp [bufDrop, hlast]
    have hlru : (bufDrop c i).Lru (us ++ i :: vs) := by
      rw [Bcache.Lru, hlinks]
      exact hxs
    rw [searchNext_eq hlru hlru.length_le, hfirst]

/-! ## 4. Neutral for processes, and only for them -/

/-- A process can show that it holds the buffer. -/
theorem Fetched.held {p : Pid} (h : Fetched s (some p) dev blockno i s₁) :
    sleeplockHeld (s₁.buf i).lock (some p) = true := by
  simp [sleeplockHeld, h.locked, h.pid p rfl]

/-- Nobody else can, so nothing is released. -/
theorem blockRelease_null (s₁ : Storage) (i : Fin nbuf) : s₁.blockRelease none i = s₁ := by
  simp [blockRelease, sleeplockHeld]

/-- A process gives back what it has. -/
theorem Fetched.givenBack {p : Pid} (h : Fetched s (some p) dev blockno i s₁) :
    GivenBack s (some p) dev blockno i (s₁.blockRelease (some p) i) := by
  have hlinked : (s₁.cache.set i
      { s₁.buf i with lock := sleeplockRelease (s₁.buf i).lock }).AllLinked := h.linked.congr rfl
  have hkey : Buf.SameKey
      { s₁.buf i with lock := sleeplockRelease (s₁.buf i).lock } (s₁.buf i) := ⟨rfl, rfl⟩
  have hfirst := (Bcache.searchNext_set s₁.cache hkey dev blockno).trans h.first
  have hfree : ((s₁.blockRelease (some p) i).buf i).lock.locked = false := by
    rw [blockRelease, if_pos h.held, buf, CacheState.bufDrop_bufs]
    simp [sleeplockRelease]
  refine ⟨hfree, ?_, fun status => ?_⟩
  · rw [blockRelease, if_pos h.held, buf, CacheState.bufDrop_bufs]
    simpa using Nat.sub_eq_of_eq_add h.refcnt
  · refine blockRead_again ?_ hfree (.inl (by simp)) status
    rw [blockRelease, if_pos h.held]
    exact bufDrop_first hlinked hfirst

/-- **Neutral for a process.** -/
theorem Fetched.neutral {p : Pid} (h : Fetched s (some p) dev blockno i s₁) :
    Neutral s (some p) dev blockno i s₁ := by
  refine ⟨h.givenBack, fun data status => ?_⟩
  have hset : Fetched s (some p) dev blockno i (s₁.setData i data) :=
    h.set { s₁.buf i with data := data } s₁.disk ⟨rfl, rfl⟩ rfl rfl
  refine ⟨_, by rw [blockWrite, Lithium.blockWrite, if_pos hset.held, Option.map_some], ?_, ?_⟩
  · have hb : (s₁.buf i).blockno = blockno := h.holds
    simp [setData, Storage.set, virtioDiskRw, hb]
  · refine (hset.set _ _ ?_ ?_ ?_).givenBack
    · exact ⟨rfl, rfl⟩
    · rfl
    · rfl

/-- **Not neutral for anybody else**: the sleeplock stays taken. -/
theorem Fetched.not_neutral (h : Fetched s none dev blockno i s₁) :
    ¬ Neutral s none dev blockno i s₁ := fun hn => by
  have hfree := hn.released.free
  rw [blockRelease_null, h.locked] at hfree
  exact absurd hfree (by simp)

/-- **When `block_read` and `block_release` are neutral.**  From any cache whose list is whole, and
whichever block is read: exactly when the caller is a process, or `block_read` does not return a
buffer to it. -/
theorem neutral_iff (h : s.cache.AllLinked) (cur : Option Pid) (dev : BitVec 32)
    (blockno : BlockNo) (status : BitVec 8) :
    (∀ i s₁, s.blockRead cur dev blockno status = some (s₁, .got i) →
        Neutral s cur dev blockno i s₁) ↔ cur ≠ none ∨ ¬ s.Ready dev blockno := by
  cases cur with
  | some p => exact iff_of_true (fun i s₁ hs => (blockRead_got h hs).neutral) (.inl (by simp))
  | none =>
    have hreads : (∃ i s₁, s.blockRead none dev blockno status = some (s₁, .got i)) ↔
        s.Ready dev blockno := blockRead_null_iff
    rw [or_iff_right (fun hne => hne rfl), ← hreads]
    constructor
    · rintro hneutral ⟨i, s₁, hs⟩
      exact (blockRead_got h hs).not_neutral (hneutral i s₁ hs)
    · exact fun hnone i s₁ hs => absurd ⟨i, s₁, hs⟩ hnone

/-- The cache that `buf_cache_init` leaves, over a disk of zeros. -/
def boot : Storage := ⟨bufCacheInit, fun _ _ => 0⟩

theorem boot_linked : boot.cache.AllLinked := bufCacheInit_allLinked

/-- `block_read` and `block_release` by a process. -/
def readRelease (s : Storage) (p : Pid) (dev : BitVec 32) (blockno : BlockNo)
    (status : BitVec 8) : Option Storage := do
  match ← s.blockRead (some p) dev blockno status with
  | (s, .got i) => some (s.blockRelease (some p) i)
  | _ => none

/-- They leave the list whole. -/
theorem readRelease_linked (h : s.cache.AllLinked) {p : Pid}
    (hs : s.readRelease p dev blockno status = some t) : t.cache.AllLinked := by
  obtain ⟨⟨s₁, e⟩, hread, hrest⟩ := Option.bind_eq_some_iff.mp hs
  cases e with
  | got i =>
    have hf := blockRead_got h hread
    obtain rfl := Option.some.inj hrest
    have hlinked : (s₁.cache.set i
        { s₁.buf i with lock := sleeplockRelease (s₁.buf i).lock }).AllLinked := hf.linked.congr rfl
    rw [blockRelease, if_pos hf.held]
    exact CacheState.bufDrop_allLinked hlinked i
  | _ => cases hrest

/-- Process 1 reads block 2, the header of the log, and gives it back; and once more. -/
theorem neutral_iff_header : ∃ t, boot.readRelease 1 1 2 0 = some t ∧
    ∀ i s₁, t.blockRead (some 1) 1 2 0 = some (s₁, .got i) →
      Neutral t (some 1) 1 2 i s₁ := by
  have h : (boot.readRelease 1 1 2 0).isSome = true := by decide +kernel
  obtain ⟨t, ht⟩ := Option.isSome_iff_exists.mp h
  exact ⟨t, ht, (neutral_iff (readRelease_linked boot_linked ht) (some 1) 1 2 0).mpr
    (.inl (by simp))⟩

/-- While `current_process` is `NULL`, `block_read` returns the header as well; `block_release`
leaves the sleeplock taken and `refcnt` 1, a second `block_read` waits for the lock, and nothing
that had to be written would be written. -/
theorem null_not_neutral : ∃ t s₁, boot.readRelease 1 1 2 0 = some t ∧
    t.blockRead none 1 2 0 = some (s₁, .got 0) ∧
    ((s₁.blockRelease none 0).buf 0).lock.locked = true ∧
    ((s₁.blockRelease none 0).buf 0).refcnt = (t.buf 0).refcnt + 1 ∧
    (∃ u, (s₁.blockRelease none 0).blockRead none 1 2 0 = some (u, .blocks)) ∧
    s₁.blockWrite none 0 0 = none ∧ ¬ Neutral t none 1 2 0 s₁ := by
  have h : ((boot.readRelease 1 1 2 0).bind fun t => t.blockRead none 1 2 0).map Prod.snd
      = some (.got 0) := by decide +kernel
  obtain ⟨⟨s₁, e⟩, hboth, he⟩ := Option.map_eq_some_iff.mp h
  obtain ⟨t, ht, hs'⟩ := Option.bind_eq_some_iff.mp hboth
  have he' : e = .got 0 := he
  have hs : t.blockRead none 1 2 0 = some (s₁, .got 0) := he' ▸ hs'
  have hf := blockRead_got (readRelease_linked boot_linked ht) hs
  refine ⟨t, s₁, ht, hs, ?_, ?_, ?_, ?_, hf.not_neutral⟩
  · rw [blockRelease_null]
    exact hf.locked
  · rw [blockRelease_null]
    exact hf.refcnt
  · rw [blockRelease_null]
    exact blockRead_blocks hf.first hf.locked none 0
  · simp [blockWrite, Lithium.blockWrite, sleeplockHeld]

end Storage

end Lithium
