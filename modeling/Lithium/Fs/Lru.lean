/-
# The order of the buffers is that of their last release

`buf_release` moves a buffer to the front of the list when its last reference is gone, and nothing
else moves a buffer.  A buffer keeps its place while it is referenced or pinned, and `buf_get`
recycles from the back whatever is free and clean, so the list is in the order of these releases.

The time of a release is a ghost: `Stamps` of `Lib/Recency.lean`, kept beside the cache.
-/
import Lithium.Fs.BufferKeys
import Lithium.Lib.Recency

namespace Lithium

open Recency Recency.Stamps

/-! ## 1. Releases -/

/-- The cache under any number of processes, and when each buffer was last released by a
`buf_release` that brought its `refcnt` to 0. -/
structure LruState where
  base : CacheState
  stamps : Stamps (Fin nbuf)

namespace LruState

/-- The section of `buf_release` under `bcache.lock` may be such a release. -/
def stamp (stamps : Stamps (Fin nbuf)) (base : CacheState) : BufOp → Stamps (Fin nbuf)
  | .call (.drop r) => if (base.cache.bufs r.buf).refcnt = 0 then stamps.touch r.buf else stamps
  | _ => stamps

/-- One section of one call. -/
def step (s : LruState) (o : BufOp) : Option LruState :=
  (s.base.bufStep o).map fun base => ⟨base, stamp s.stamps base o⟩

/-- After `buf_cache_init`. -/
def init (disk : Disk) : LruState := ⟨.init disk, .start⟩

/-- The order of the list that `buf_cache_init` makes. -/
def initially (i j : Fin nbuf) : Prop := j < i

/-- `buf_unpin` is called by a process that has the buffer. -/
def UnpinsHeld (s : LruState) (o : BufOp) : Prop :=
  ∀ i, o = .call (.bufUnpin i) → ∃ r ∈ s.base.refs, r.buf = i

/-- The list is in the order of the last releases, and `buf_get` recycles the oldest buffer. -/
structure LruOk (s : LruState) : Prop where
  /-- From head to tail the releases get older. -/
  ordered : ∃ xs : List (Fin nbuf), s.base.cache.Lru xs ∧ (∀ i, i ∈ xs) ∧
    xs.Pairwise (s.stamps.Newer initially)
  /-- A miss recycles, of the buffers that are free and clean, the one released first. -/
  recycles : ∀ dev blockno c i, bufGet s.base.cache dev blockno = some (c, some i) →
    (∀ j, ¬ ((s.base.cache.bufs j).dev = dev ∧ (s.base.cache.bufs j).blockno = blockno)) →
    (s.base.cache.bufs i).refcnt = 0 ∧ (s.base.cache.bufs i).dirty = false ∧
    ∀ j, j ≠ i → (s.base.cache.bufs j).refcnt = 0 → (s.base.cache.bufs j).dirty = false →
      s.stamps.Newer initially j i
  /-- When a `refcnt` falls to 0, this is a release. -/
  released : ∀ o s', s.step o = some s' → s.UnpinsHeld o → ∀ i,
    0 < (s.base.cache.bufs i).refcnt → (s'.base.cache.bufs i).refcnt = 0 →
    s'.stamps = s.stamps.touch i

/-! ## 2. One step -/

variable {s s' : LruState} {o : BufOp} {xs : List (Fin nbuf)}

/-- What the steps keep. -/
structure Inv (s : LruState) : Prop where
  keys : s.base.KeysOk
  sorted : ∃ xs, s.base.cache.Lru xs ∧ (∀ i, i ∈ xs) ∧ s.stamps.Sorted initially xs

theorem init_inv (disk : Disk) : Inv (init disk) where
  keys := CacheState.init_keysOk disk
  sorted := by
    refine ⟨_, bufCacheInit_lru, fun i => by simp [List.mem_finRange], sorted_start ?_⟩
    rw [List.pairwise_reverse]
    exact List.pairwise_lt_finRange nbuf

/-- `buf_get` does not move a buffer. -/
theorem bufGet_links {c c' : Bcache} {dev : BitVec 32} {blockno : BlockNo}
    {i : Option (Fin nbuf)} (h : c.Keyed) (hs : bufGet c dev blockno = some (c', i)) :
    c'.links = c.links := by
  cases (bufGet_spec h hs).1 <;> rfl

/-- No section but that of `buf_release` moves a buffer. -/
theorem links_of_bufStep {base base' : CacheState} (h : base.cache.Keyed)
    (hs : base.bufStep o = some base') (hnot : ∀ r, o ≠ .call (.drop r)) :
    base'.cache.links = base.cache.links := by
  cases o with
  | call o =>
    cases CacheState.step_to hs with
    | got pid hget => exact bufGet_links h hget
    | missed pid hget => exact bufGet_links h hget
    | dropped r => exact absurd rfl (hnot r)
    | _ => rfl
  | take r =>
    simp only [CacheState.bufStep, Option.ite_none_right_eq_some, Option.some.injEq] at hs
    obtain ⟨-, rfl⟩ := hs
    rfl
  | mark r flags =>
    simp only [CacheState.bufStep, Option.ite_none_right_eq_some, Option.some.injEq] at hs
    obtain ⟨-, rfl⟩ := hs
    rfl

/-- The stamps change with a release only. -/
theorem stamp_of_ne (stamps : Stamps (Fin nbuf)) (base : CacheState)
    (hnot : ∀ r, o ≠ .call (.drop r)) : stamp stamps base o = stamps := by
  unfold stamp
  split
  · exact absurd rfl (hnot _)
  · rfl

/-- The drop of a reference, as `buf_release` does it. -/
theorem bufDrop_links (c : Bcache) (i : Fin nbuf) : (bufDrop c i).links =
    if ((bufDrop c i).bufs i).refcnt = 0 then
      Ring.pushFront (Ring.unlink c.links (some i)) none (some i)
    else c.links := by
  have hcnt : ((bufDrop c i).bufs i).refcnt
      = ((c.set i { c.bufs i with refcnt := (c.bufs i).refcnt - 1 }).bufs i).refcnt := by
    rw [CacheState.bufDrop_bufs]
  rw [hcnt, bufDrop]
  dsimp only
  split <;> rfl

/-- **A release moves the buffer to the front, and is the newest.** -/
theorem Inv.drop (h : Inv s) {r : Ref} (hs : s.step (.call (.drop r)) = some s') :
    ∃ xs, s'.base.cache.Lru xs ∧ (∀ i, i ∈ xs) ∧ s'.stamps.Sorted initially xs := by
  obtain ⟨xs, hxs, hall, hsorted⟩ := h.sorted
  obtain ⟨base, hbase, rfl⟩ := Option.map_eq_some_iff.mp hs
  cases CacheState.step_to (o := .drop r) hbase with
  | dropped _ hr hst =>
    have hlinks := bufDrop_links s.base.cache r.buf
    dsimp only [stamp]
    by_cases hzero : ((bufDrop s.base.cache r.buf).bufs r.buf).refcnt = 0
    · rw [if_pos hzero] at hlinks ⊢
      obtain ⟨us, vs, rfl⟩ := List.append_of_mem (hall r.buf)
      refine ⟨r.buf :: (us ++ vs), hxs.moveFront hlinks, fun i => ?_, hsorted.touch hxs.nodup⟩
      have hi := hall i
      rw [List.mem_append, List.mem_cons] at hi
      rw [List.mem_cons, List.mem_append]
      tauto
    · rw [if_neg hzero] at hlinks ⊢
      exact ⟨xs, by rw [Bcache.Lru, hlinks]; exact hxs, hall, hsorted⟩

/-- **One step** keeps the order. -/
theorem Inv.step (h : Inv s) (hs : s.step o = some s') : Inv s' := by
  have hkeys : s'.base.KeysOk := by
    obtain ⟨base, hbase, rfl⟩ := Option.map_eq_some_iff.mp hs
    exact h.keys.step (CacheState.bufStep_end h.keys.keyed hbase)
  by_cases hdrop : ∃ r, o = .call (.drop r)
  · obtain ⟨r, rfl⟩ := hdrop
    exact ⟨hkeys, h.drop hs⟩
  · have hnot : ∀ r, o ≠ .call (.drop r) := fun r hr => hdrop ⟨r, hr⟩
    obtain ⟨base, hbase, rfl⟩ := Option.map_eq_some_iff.mp hs
    obtain ⟨xs, hxs, hall, hsorted⟩ := h.sorted
    refine ⟨hkeys, xs, ?_, hall, ?_⟩
    · rw [Bcache.Lru, links_of_bufStep h.keys.keyed hbase hnot]
      exact hxs
    · rw [stamp_of_ne _ _ hnot]
      exact hsorted

/-! ## 3. What the order says -/

/-- **A miss recycles the buffer that was released first.** -/
theorem Inv.recycles (h : Inv s) {dev : BitVec 32} {blockno : BlockNo} {c : Bcache}
    {i : Fin nbuf} (hget : bufGet s.base.cache dev blockno = some (c, some i))
    (hmiss : ∀ j, ¬ ((s.base.cache.bufs j).dev = dev ∧ (s.base.cache.bufs j).blockno = blockno)) :
    (s.base.cache.bufs i).refcnt = 0 ∧ (s.base.cache.bufs i).dirty = false ∧
    ∀ j, j ≠ i → (s.base.cache.bufs j).refcnt = 0 → (s.base.cache.bufs j).dirty = false →
      s.stamps.Newer initially j i := by
  obtain ⟨xs, hxs, hall, hsorted⟩ := h.sorted
  have hnone : xs.find? (fun i => s.base.cache.hasKey dev blockno (some i)) = none := by
    rw [List.find?_eq_none]
    exact fun j _ hkey => hmiss j ((Bcache.hasKey_some _ _ _ _).mp hkey)
  simp only [bufGet, searchNext_eq hxs hxs.length_le, searchPrev_eq hxs hxs.length_le,
    Option.bind_eq_bind, Option.bind_some, hnone] at hget
  cases hfind : xs.reverse.find? (fun i => s.base.cache.recyclable (some i)) with
  | none => simp [hfind] at hget
  | some k =>
    simp only [hfind, Option.some.injEq, Prod.mk.injEq] at hget
    obtain ⟨-, rfl⟩ := hget
    have hfree := List.find?_some hfind
    obtain ⟨hzero, hclean⟩ := (Bcache.recyclable_some _ _).mp hfree
    exact ⟨hzero, hclean, fun j hne hjzero hjclean =>
      hsorted.oldest hfind (hall j) ((Bcache.recyclable_some _ _).mpr ⟨hjzero, hjclean⟩) hne⟩

theorem refcnt_advance {base : CacheState} {r : Ref} {st : Stage} {b : Buf}
    (hb : b.refcnt = (base.bufOf r).refcnt) (i : Fin nbuf) :
    ((base.advance r st b).cache.bufs i).refcnt = (base.cache.bufs i).refcnt := by
  by_cases hi : i = r.buf
  · rw [hi, CacheState.advance, Bcache.set_bufs_self, hb]
  · rw [CacheState.advance, Bcache.set_bufs_of_ne _ hi]

theorem refcnt_bufGet {c c' : Bcache} {dev : BitVec 32} {blockno : BlockNo}
    {k : Option (Fin nbuf)} (h : c.Keyed) (hs : bufGet c dev blockno = some (c', k)) {i : Fin nbuf}
    (hpos : 0 < (c.bufs i).refcnt) : 0 < (c'.bufs i).refcnt := by
  cases (bufGet_spec h hs).1 with
  | hit j =>
    by_cases hi : i = j
    · rw [hi, Bcache.set_bufs_self]
      exact Nat.succ_pos _
    · rwa [Bcache.set_bufs_of_ne _ hi]
  | recycled j =>
    by_cases hi : i = j
    · rw [hi, Bcache.set_bufs_self]
      exact Nat.one_pos
    · rwa [Bcache.set_bufs_of_ne _ hi]
  | null => exact hpos

/-- The last reference goes in `buf_release` or in `buf_unpin`. -/
theorem last_reference {base base' : CacheState} (h : base.cache.Keyed)
    (hs : base.bufStep o = some base') {i : Fin nbuf} (hpos : 0 < (base.cache.bufs i).refcnt)
    (hzero : (base'.cache.bufs i).refcnt = 0) :
    (∃ r, o = .call (.drop r) ∧ r.buf = i) ∨
      o = .call (.bufUnpin i) ∧ (base.cache.bufs i).refcnt = 1 ∧ 0 < base.pins i := by
  -- what leaves the `refcnt` of all buffers alone is not the step
  have same : (base'.cache.bufs i).refcnt = (base.cache.bufs i).refcnt → False := by omega
  cases o with
  | call o =>
    cases CacheState.step_to hs with
    | got pid hget => exact absurd hzero (refcnt_bufGet h hget hpos).ne'
    | missed pid hget => exact absurd hzero (refcnt_bufGet h hget hpos).ne'
    | writeStarted r _ _ hb =>
      exact (same (refcnt_advance (CacheState.blockWrite_refcnt hb) i)).elim
    | notWritten | notUnlocked => exact (same rfl).elim
    | readDone r status =>
      exact (same (refcnt_advance (by split <;> rfl) i)).elim
    | dropped r =>
      refine Or.inl ⟨r, rfl, ?_⟩
      by_contra hne
      refine same ?_
      rw [CacheState.bufDrop_bufs, Bcache.set_bufs_of_ne _ (Ne.symm hne)]
    | pinned r =>
      by_cases hi : i = r.buf
      · rw [hi, bufPin, Bcache.set_bufs_self] at hzero
        cases hzero
      · exact (same (by rw [bufPin, Bcache.set_bufs_of_ne _ hi])).elim
    | unpinned j hj =>
      by_cases hi : i = j
      · rw [hi, bufUnpin, Bcache.set_bufs_self] at hzero
        dsimp only at hzero
        rw [hi] at hpos ⊢
        exact Or.inr ⟨rfl, by omega, hj⟩
      · exact (same (by rw [bufUnpin, Bcache.set_bufs_of_ne _ hi])).elim
    | writeDone r status hr =>
      have hsame : ((base.advance r .holding (virtioDiskIntr (base.bufOf r))).cache.bufs i).refcnt
          = (base.cache.bufs i).refcnt := by
        refine refcnt_advance ?_ i
        rfl
      exact (same hsame).elim
    | _ =>
      refine (same (refcnt_advance ?_ i)).elim
      rfl
  | take r =>
    simp only [CacheState.bufStep, Option.ite_none_right_eq_some, Option.some.injEq] at hs
    obtain ⟨-, rfl⟩ := hs
    refine (same (refcnt_advance ?_ i)).elim
    rfl
  | mark r flags =>
    simp only [CacheState.bufStep, Option.ite_none_right_eq_some, Option.some.injEq] at hs
    obtain ⟨-, rfl⟩ := hs
    refine (same (refcnt_advance ?_ i)).elim
    rfl

/-- **A `refcnt` falls to 0 in a release only**, when pins are taken back by who has the buffer. -/
theorem Inv.released (h : Inv s) (hs : s.step o = some s') (huse : s.UnpinsHeld o) {i : Fin nbuf}
    (hpos : 0 < (s.base.cache.bufs i).refcnt) (hzero : (s'.base.cache.bufs i).refcnt = 0) :
    s'.stamps = s.stamps.touch i := by
  obtain ⟨base, hbase, rfl⟩ := Option.map_eq_some_iff.mp hs
  rcases last_reference h.keys.keyed hbase hpos hzero with ⟨r, rfl, rfl⟩ | ⟨rfl, hone, hpins⟩
  · exact if_pos hzero
  · -- the reference of who calls `buf_unpin` is still there
    obtain ⟨r, hr, rfl⟩ := huse i rfl
    have hcounted := h.keys.counted r.buf
    have href : 0 < s.base.refs.countP (fun q => q.buf == r.buf) :=
      List.countP_pos_iff.mpr ⟨r, hr, by simp⟩
    omega

/-- **LRU replacement**, in every state of every run of any number of processes. -/
theorem always_lru (disk : Disk) (os : List BufOp) :
    Transition.Always step LruOk (init disk) os := by
  refine (Transition.always_of_inv (fun _ _ _ => Inv.step) os _ (init_inv disk)).mono
    fun s h => ⟨?_, ?_, ?_⟩
  · obtain ⟨xs, hxs, hall, hsorted⟩ := h.sorted
    exact ⟨xs, hxs, hall, hsorted.newer⟩
  · exact fun dev blockno c i hget hmiss => h.recycles hget hmiss
  · exact fun o s' hs huse i hpos hzero => h.released hs huse hpos hzero

end LruState

end Lithium
