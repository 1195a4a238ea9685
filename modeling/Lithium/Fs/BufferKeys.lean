/-
# One buffer for one block

What `buffer.c` keeps true of its list and its counters, whatever the processes do that call it.

All thirty buffers start with the key (0, 0), and the search of `buf_get` does not look at
`refcnt`, so several buffers can have one key.  What saves the cache is the order of the list: of
two buffers with one key, the one further back has never been used since `buf_cache_init`.  The
search starts at the front and never gets to it; a buffer gets a key only when no buffer has it;
and only a buffer that was referenced is moved to the front.
-/
import Lithium.Fs.BlockCache
import Mathlib.Data.List.Pairwise

namespace Lithium

/-! ## 1. The order of the buffers with one key -/

/-- The two buffers are for the same block. -/
def Buf.SameKey (a b : Buf) : Prop := a.dev = b.dev ∧ a.blockno = b.blockno

namespace Buf.SameKey

variable {a b c : Buf}

theorem refl (a : Buf) : a.SameKey a := ⟨rfl, rfl⟩

theorem symm (h : a.SameKey b) : b.SameKey a := ⟨h.1.symm, h.2.symm⟩

theorem trans (h : a.SameKey b) (h' : b.SameKey c) : a.SameKey c :=
  ⟨h.1.trans h'.1, h.2.trans h'.2⟩

end Buf.SameKey

/-- A buffer as `buf_cache_init` leaves it, up to its key. -/
def Buf.Unused (b : Buf) : Prop := b.refcnt = 0 ∧ b.flags = 0

namespace Bcache

/-- The list holds the buffers `xs`, all of them, and of two with one key the one further back is
unused. -/
structure KeyedBy (c : Bcache) (xs : List (Fin nbuf)) : Prop where
  lru : c.Lru xs
  all : ∀ i, i ∈ xs
  shadowed : xs.Pairwise fun i j => (c.bufs i).SameKey (c.bufs j) → (c.bufs j).Unused

/-- The buffers are in such an order. -/
def Keyed (c : Bcache) : Prop := ∃ xs, c.KeyedBy xs

variable {c : Bcache}

theorem Keyed.allLinked (h : c.Keyed) : c.AllLinked :=
  let ⟨xs, hxs⟩ := h
  ⟨xs, hxs.lru, hxs.all⟩

/-- Of two buffers with one key, one is unused. -/
theorem Keyed.unused_or (h : c.Keyed) {i j : Fin nbuf} (hij : i ≠ j)
    (hkey : (c.bufs i).SameKey (c.bufs j)) : (c.bufs i).Unused ∨ (c.bufs j).Unused := by
  obtain ⟨xs, hxs⟩ := h
  let R := fun i j => (c.bufs i).SameKey (c.bufs j) → (c.bufs i).Unused ∨ (c.bufs j).Unused
  have : Std.Symm R := ⟨fun _ _ hor hk => (hor hk.symm).symm⟩
  have hpair : xs.Pairwise R := hxs.shadowed.imp fun hu hk => Or.inr (hu hk)
  exact hpair.forall (hxs.all i) (hxs.all j) hij hkey

/-- Two referenced buffers have two keys. -/
theorem Keyed.eq_of_referenced (h : c.Keyed) {i j : Fin nbuf} (hi : 0 < (c.bufs i).refcnt)
    (hj : 0 < (c.bufs j).refcnt) (hkey : (c.bufs i).SameKey (c.bufs j)) : i = j := by
  by_contra hij
  rcases h.unused_or hij hkey with hu | hu
  · have := hu.1
    omega
  · have := hu.1
    omega

/-- A buffer may be changed in any way that puts no other buffer with its key in front of it and
no used one behind. -/
theorem KeyedBy.set {us vs : List (Fin nbuf)} {i : Fin nbuf} (h : c.KeyedBy (us ++ i :: vs))
    {b : Buf} (hfront : ∀ j ∈ us, ¬ (c.bufs j).SameKey b)
    (hback : ∀ j ∈ vs, b.SameKey (c.bufs j) → (c.bufs j).Unused) :
    (c.set i b).KeyedBy (us ++ i :: vs) where
  lru := h.lru
  all := h.all
  shadowed := by
    have hnd := h.lru.nodup
    rw [List.nodup_middle, List.nodup_cons, List.mem_append, not_or] at hnd
    have hus : ∀ j ∈ us, (c.set i b).bufs j = c.bufs j := fun j hj =>
      set_bufs_of_ne c (fun e : j = i => hnd.1.1 (e ▸ hj)) b
    have hvs : ∀ j ∈ vs, (c.set i b).bufs j = c.bufs j := fun j hj =>
      set_bufs_of_ne c (fun e : j = i => hnd.1.2 (e ▸ hj)) b
    obtain ⟨hpus, hpivs, hcross⟩ := List.pairwise_append.mp h.shadowed
    obtain ⟨-, hpvs⟩ := List.pairwise_cons.mp hpivs
    refine List.pairwise_append.mpr ⟨?_, List.pairwise_cons.mpr ⟨?_, ?_⟩, ?_⟩
    · refine hpus.imp_of_mem fun hj hk hjk => ?_
      rwa [hus _ hj, hus _ hk]
    · intro j hj hkey
      rw [set_bufs_self, hvs j hj] at hkey
      exact hvs j hj ▸ hback j hj hkey
    · refine hpvs.imp_of_mem fun hj hk hjk => ?_
      rwa [hvs _ hj, hvs _ hk]
    · intro j hj k hk hkey
      rw [hus j hj] at hkey
      rcases List.mem_cons.mp hk with rfl | hk'
      · rw [set_bufs_self] at hkey
        exact absurd hkey (hfront j hj)
      · rw [hvs k hk'] at hkey ⊢
        exact hcross j hj k hk hkey

/-- No buffer in front of a referenced one has its key. -/
theorem KeyedBy.front {us vs : List (Fin nbuf)} {i : Fin nbuf} (h : c.KeyedBy (us ++ i :: vs))
    (hi : 0 < (c.bufs i).refcnt) : ∀ j ∈ us, ¬ (c.bufs j).SameKey (c.bufs i) := by
  intro j hj hkey
  obtain ⟨-, -, hcross⟩ := List.pairwise_append.mp h.shadowed
  have := (hcross j hj i List.mem_cons_self hkey).1
  omega

theorem KeyedBy.back {us vs : List (Fin nbuf)} {i : Fin nbuf} (h : c.KeyedBy (us ++ i :: vs)) :
    ∀ j ∈ vs, (c.bufs i).SameKey (c.bufs j) → (c.bufs j).Unused :=
  (List.pairwise_cons.mp (List.pairwise_append.mp h.shadowed).2.1).1

/-- **A referenced buffer may be changed in any way but its key.** -/
theorem Keyed.set (h : c.Keyed) {i : Fin nbuf} (hi : 0 < (c.bufs i).refcnt) {b : Buf}
    (hb : b.SameKey (c.bufs i)) : (c.set i b).Keyed := by
  obtain ⟨xs, hxs⟩ := h
  obtain ⟨us, vs, rfl⟩ := List.append_of_mem (hxs.all i)
  refine ⟨_, hxs.set ?_ ?_⟩
  · exact fun j hj hkey => hxs.front hi j hj (hkey.trans hb)
  · exact fun j hj hkey => hxs.back j hj (hb.symm.trans hkey)

/-- A buffer that was referenced may be moved to the front. -/
theorem Keyed.moveFront (h : c.Keyed) {i : Fin nbuf} (hi : 0 < (c.bufs i).refcnt) {b : Buf}
    (hb : b.SameKey (c.bufs i)) :
    Keyed { c.set i b with
      links := Ring.pushFront (Ring.unlink c.links (some i)) none (some i) } := by
  obtain ⟨xs, hxs⟩ := h
  obtain ⟨us, vs, rfl⟩ := List.append_of_mem (hxs.all i)
  have hset := hxs.set (b := b) (fun j hj hkey => hxs.front hi j hj (hkey.trans hb))
    (fun j hj hkey => hxs.back j hj (hb.symm.trans hkey))
  have hnd := hxs.lru.nodup
  rw [List.nodup_middle, List.nodup_cons, List.mem_append, not_or] at hnd
  refine ⟨i :: (us ++ vs), hset.lru.moveFront rfl, fun j => ?_, List.pairwise_cons.mpr ⟨?_, ?_⟩⟩
  · have := hxs.all j
    simp only [List.mem_append, List.mem_cons] at this ⊢
    tauto
  · intro j hj hkey
    dsimp only at hkey ⊢
    rw [set_bufs_self] at hkey
    rcases List.mem_append.mp hj with hj | hj
    · rw [set_bufs_of_ne c (fun e : j = i => hnd.1.1 (e ▸ hj))] at hkey
      exact absurd (hkey.symm.trans hb) (hxs.front hi j hj)
    · rw [set_bufs_of_ne c (fun e : j = i => hnd.1.2 (e ▸ hj))] at hkey ⊢
      exact hxs.back j hj (hb.symm.trans hkey)
  · exact hset.shadowed.sublist (List.Sublist.append_left (List.sublist_cons_self i vs) us)

/-! ## 2. The operations -/

theorem hasKey_some (c : Bcache) (dev : BitVec 32) (blockno : BlockNo) (i : Fin nbuf) :
    c.hasKey dev blockno (some i) = true ↔ (c.bufs i).dev = dev ∧ (c.bufs i).blockno = blockno := by
  simp [hasKey]

theorem recyclable_some (c : Bcache) (i : Fin nbuf) :
    c.recyclable (some i) = true ↔ (c.bufs i).refcnt = 0 ∧ (c.bufs i).dirty = false := by
  simp [recyclable]

/-- After `buf_cache_init` no buffer has been used. -/
theorem bufCacheInit_keyed : bufCacheInit.Keyed := by
  obtain ⟨xs, hxs, hall⟩ := bufCacheInit_allLinked
  exact ⟨xs, hxs, hall, List.pairwise_of_forall fun _ _ _ => ⟨rfl, rfl⟩⟩

end Bcache

/-- How `buf_get` ends: with the buffer that has the key, with one recycled for it, or with `NULL`
and the cache as it was. -/
inductive GetEnd (c : Bcache) (dev : BitVec 32) (blockno : BlockNo) :
    Bcache → Option (Fin nbuf) → Prop
  | hit (i : Fin nbuf) (hdev : (c.bufs i).dev = dev) (hblockno : (c.bufs i).blockno = blockno) :
      GetEnd c dev blockno (c.set i { c.bufs i with refcnt := (c.bufs i).refcnt + 1 }) (some i)
  | recycled (i : Fin nbuf) (hfree : (c.bufs i).refcnt = 0) (hclean : (c.bufs i).dirty = false)
      (hmiss : ∀ j, ¬ ((c.bufs j).dev = dev ∧ (c.bufs j).blockno = blockno)) :
      GetEnd c dev blockno
        (c.set i { c.bufs i with dev := dev, blockno := blockno, flags := 0, refcnt := 1 }) (some i)
  | null : GetEnd c dev blockno c none

/-- **`buf_get`** keeps the order of the buffers with one key. -/
theorem bufGet_spec {c c' : Bcache} {dev : BitVec 32} {blockno : BlockNo} {o : Option (Fin nbuf)}
    (h : c.Keyed) (hs : bufGet c dev blockno = some (c', o)) :
    GetEnd c dev blockno c' o ∧ c'.Keyed := by
  obtain ⟨xs, hxs⟩ := h
  simp only [bufGet, searchNext_eq hxs.lru hxs.lru.length_le,
    searchPrev_eq hxs.lru hxs.lru.length_le, Option.bind_eq_bind, Option.bind_some] at hs
  cases hhit : xs.find? (fun i => c.hasKey dev blockno (some i)) with
  | some i =>
    simp only [hhit, Option.some.injEq, Prod.mk.injEq] at hs
    obtain ⟨rfl, rfl⟩ := hs
    obtain ⟨hi, us, vs, rfl, hus⟩ := List.find?_eq_some_iff_append.mp hhit
    obtain ⟨hdev, hblockno⟩ := (Bcache.hasKey_some _ _ _ _).mp hi
    refine ⟨.hit i hdev hblockno, _, hxs.set (fun j hj hkey => ?_) hxs.back⟩
    have hnot := hus j hj
    rw [Bool.not_eq_true', ← Bool.not_eq_true, Bcache.hasKey_some] at hnot
    exact hnot ⟨hkey.1.trans hdev, hkey.2.trans hblockno⟩
  | none =>
    have hmiss : ∀ j, ¬ ((c.bufs j).dev = dev ∧ (c.bufs j).blockno = blockno) := fun j => by
      rw [← Bcache.hasKey_some]
      exact List.find?_eq_none.mp hhit j (hxs.all j)
    cases hfree : xs.reverse.find? (fun i => c.recyclable (some i)) with
    | some i =>
      simp only [hhit, hfree, Option.some.injEq, Prod.mk.injEq] at hs
      obtain ⟨rfl, rfl⟩ := hs
      have hi := List.find?_some hfree
      obtain ⟨hzero, hclean⟩ := (Bcache.recyclable_some c i).mp hi
      obtain ⟨us, vs, rfl⟩ := List.append_of_mem (hxs.all i)
      refine ⟨.recycled i hzero hclean hmiss, _, hxs.set (fun j _ hkey => ?_) fun j _ hkey => ?_⟩
      · exact absurd hkey (hmiss j)
      · exact absurd hkey.symm (hmiss j)
    | none =>
      simp only [hhit, hfree, Option.some.injEq, Prod.mk.injEq] at hs
      obtain ⟨rfl, rfl⟩ := hs
      exact ⟨.null, xs, hxs⟩

/-- Dropping a reference keeps the order. -/
theorem bufDrop_keyed {c : Bcache} (h : c.Keyed) {i : Fin nbuf} (hi : 0 < (c.bufs i).refcnt) :
    (bufDrop c i).Keyed := by
  rw [bufDrop]
  split
  · exact h.moveFront hi (.refl _)
  · exact h.set hi (.refl _)

/-! ## 3. Any interleaving -/

/-- A section of `block.c` and `buffer.c`, or what a caller of `buf_get` itself may do. -/
inductive BufOp where
  /-- A section of a call, as in `CacheState.step`. -/
  | call (o : CacheOp)
  /-- The process has the buffer from `buf_get` and does not look at `B_VALID`. -/
  | take (r : Ref)
  /-- The process that holds the buffer sets its flags. -/
  | mark (r : Ref) (flags : BitVec 32)

namespace CacheState

/-- One section, by `block.c` or by a caller of `buffer.c` itself. -/
def bufStep (s : CacheState) : BufOp → Option CacheState
  | .call o => s.step o
  | .take r =>
    if r ∈ s.refs ∧ r.stage = .locked then some (s.advance r .holding (s.bufOf r)) else none
  | .mark r flags =>
    if r ∈ s.refs ∧ r.stage = .holding then
      some (s.advance r .holding { s.bufOf r with flags := flags })
    else none

/-- What `buffer.c` keeps: the list, the keys and the counters. -/
structure Represents (s : CacheState) : Prop where
  /-- The list through `head` holds every buffer exactly once. -/
  listed : ∃ xs : List (Fin nbuf), s.cache.Lru xs ∧ xs.Nodup ∧ ∀ i, i ∈ xs
  inverse : ∀ n : Node, s.cache.links.prev (s.cache.links.next n) = n ∧
    s.cache.links.next (s.cache.links.prev n) = n
  oneOwner : ∀ i j, 0 < (s.cache.bufs i).refcnt → 0 < (s.cache.bufs j).refcnt →
    (s.cache.bufs i).SameKey (s.cache.bufs j) → i = j
  counted : ∀ i, (s.cache.bufs i).refcnt = s.refs.countP (fun r => r.buf == i) + s.pins i
  keepsKey : ∀ o s', s.bufStep o = some s' → ∀ i,
    0 < (s.cache.bufs i).refcnt ∨ (s.cache.bufs i).dirty = true →
      (s'.cache.bufs i).SameKey (s.cache.bufs i)

/-- What the steps keep: the order of the buffers with one key, and the counters. -/
structure KeysOk (s : CacheState) : Prop where
  keyed : s.cache.Keyed
  counted : ∀ i, (s.cache.bufs i).refcnt = s.refs.countP (fun r => r.buf == i) + s.pins i

variable {s s' : CacheState}

theorem KeysOk.refsOk (h : KeysOk s) : RefsOk s := ⟨h.keyed.allLinked, h.counted⟩

theorem init_keysOk (disk : Disk) : KeysOk (init disk) := ⟨Bcache.bufCacheInit_keyed, fun _ => rfl⟩

/-- How a step changes the cache: `buf_get` may give a buffer a new key, and everything else
leaves the keys alone. -/
inductive StepEnd (s : CacheState) : CacheState → Prop
  | got (pid : Pid) (dev : BitVec 32) (blockno : BlockNo) {c : Bcache} {o : Option (Fin nbuf)}
      (hget : GetEnd s.cache dev blockno c o) (hkeyed : c.Keyed) :
      StepEnd s { s with
        cache := c
        refs := (o.map fun i => ⟨pid, i, .waiting⟩).toList ++ s.refs }
  | moved (r : Ref) (hr : r ∈ s.refs) (st : Stage) {b : Buf} (hkey : b.SameKey (s.bufOf r))
      (hcnt : b.refcnt = (s.bufOf r).refcnt) (disk : Disk) :
      StepEnd s { s.advance r st b with disk := disk }
  | dropped (r : Ref) (hr : r ∈ s.refs) :
      StepEnd s { s with cache := bufDrop s.cache r.buf, refs := s.refs.erase r }
  | pinned (r : Ref) (hr : r ∈ s.refs) :
      StepEnd s { s with
        cache := Lithium.bufPin s.cache r.buf
        pins := Function.update s.pins r.buf (s.pins r.buf + 1) }
  | unpinned (i : Fin nbuf) (hi : 0 < s.pins i) :
      StepEnd s { s with
        cache := Lithium.bufUnpin s.cache i
        pins := Function.update s.pins i (s.pins i - 1) }
  | same : StepEnd s s

theorem StepEnd.advanced {r : Ref} (hr : r ∈ s.refs) (st : Stage) {b : Buf}
    (hkey : b.SameKey (s.bufOf r)) (hcnt : b.refcnt = (s.bufOf r).refcnt) :
    StepEnd s (s.advance r st b) := .moved r hr st hkey hcnt s.disk

theorem blockWrite_sameKey {b b' : Buf} {cur : Option Pid}
    (h : Lithium.blockWrite b cur = some b') : b'.SameKey b := by
  rw [Lithium.blockWrite, Option.ite_none_right_eq_some, Option.some.injEq] at h
  exact h.2 ▸ ⟨rfl, rfl⟩

/-- **One step** of `block.c` and `buffer.c`. -/
theorem step_end (h : s.cache.Keyed) {o : CacheOp} (hs : s.step o = some s') : StepEnd s s' := by
  cases step_to hs with
  | got pid hget =>
    obtain ⟨hend, hkeyed⟩ := bufGet_spec h hget
    exact .got pid _ _ hend hkeyed
  | missed pid hget =>
    obtain ⟨hend, hkeyed⟩ := bufGet_spec h hget
    exact .got pid _ _ hend hkeyed
  | locked r hr => exact .advanced hr _ ⟨rfl, rfl⟩ rfl
  | hit r hr => exact .advanced hr _ ⟨rfl, rfl⟩ rfl
  | readStarted r hr => exact .advanced hr _ ⟨rfl, rfl⟩ rfl
  | modified r data hr => exact .advanced hr _ ⟨rfl, rfl⟩ rfl
  | writeStarted r hr _ hb => exact .advanced hr _ (blockWrite_sameKey hb) (blockWrite_refcnt hb)
  | notWritten => exact .same
  | readDone r status hr =>
    exact .advanced hr _ (by split <;> exact ⟨rfl, rfl⟩) (by split <;> rfl)
  | writeDone r status hr =>
    exact .moved r hr .holding (b := virtioDiskIntr (s.bufOf r)) ⟨rfl, rfl⟩ rfl _
  | unlocked r hr => exact .advanced hr _ ⟨rfl, rfl⟩ rfl
  | notUnlocked => exact .same
  | dropped r hr => exact .dropped r hr
  | pinned r hr => exact .pinned r hr
  | unpinned i hi => exact .unpinned i hi

theorem bufStep_end (h : s.cache.Keyed) {o : BufOp} (hs : s.bufStep o = some s') :
    StepEnd s s' := by
  cases o with
  | call o => exact step_end h hs
  | take r =>
    simp only [bufStep, Option.ite_none_right_eq_some, Option.some.injEq] at hs
    obtain ⟨⟨hr, -⟩, rfl⟩ := hs
    exact .advanced hr _ ⟨rfl, rfl⟩ rfl
  | mark r flags =>
    simp only [bufStep, Option.ite_none_right_eq_some, Option.some.injEq] at hs
    obtain ⟨⟨hr, -⟩, rfl⟩ := hs
    exact .advanced hr _ ⟨rfl, rfl⟩ rfl

/-- Every step keeps the order and the counters. -/
theorem KeysOk.step (h : KeysOk s) (hs : StepEnd s s') : KeysOk s' := by
  cases hs with
  | got pid dev blockno hget hkeyed =>
    refine ⟨hkeyed, ?_⟩
    cases hget with
    | hit i => exact (h.refsOk.reference rfl pid).counted
    | recycled i hfree => exact (h.refsOk.reference (by simp only [hfree]) pid).counted
    | null => exact h.counted
  | moved r hr st hkey hcnt disk =>
    exact ⟨h.keyed.set (h.refsOk.refcnt_pos hr) hkey, (h.refsOk.advance hr hcnt).counted⟩
  | dropped r hr =>
    exact ⟨bufDrop_keyed h.keyed (h.refsOk.refcnt_pos hr), (drop_refsOk h.refsOk hr).counted⟩
  | pinned r hr =>
    exact ⟨h.keyed.set (h.refsOk.refcnt_pos hr) (.refl _), (bufPin_refsOk h.refsOk r.buf).counted⟩
  | unpinned i hi =>
    have hpos : 0 < (s.cache.bufs i).refcnt := by
      rw [h.counted]
      omega
    exact ⟨h.keyed.set hpos (.refl _), (bufUnpin_refsOk h.refsOk hi).counted⟩
  | same => exact h

/-- Replacing a buffer by one with its key changes no key. -/
theorem sameKey_set (c : Bcache) {i : Fin nbuf} {b : Buf} (hb : b.SameKey (c.bufs i))
    (j : Fin nbuf) : ((c.set i b).bufs j).SameKey (c.bufs j) := by
  by_cases hij : j = i
  · subst hij
    rwa [Bcache.set_bufs_self]
  · rw [Bcache.set_bufs_of_ne c hij]
    exact .refl _

theorem sameKey_refcnt (c : Bcache) (i : Fin nbuf) (n : Nat) (j : Fin nbuf) :
    ((c.set i { c.bufs i with refcnt := n }).bufs j).SameKey (c.bufs j) := by
  have hkey : Buf.SameKey { c.bufs i with refcnt := n } (c.bufs i) := ⟨rfl, rfl⟩
  exact sameKey_set c hkey j

/-- A step gives a new key only to a buffer that is neither referenced nor dirty. -/
theorem StepEnd.sameKey (hs : StepEnd s s') {i : Fin nbuf}
    (hi : 0 < (s.cache.bufs i).refcnt ∨ (s.cache.bufs i).dirty = true) :
    (s'.cache.bufs i).SameKey (s.cache.bufs i) := by
  cases hs with
  | got pid dev blockno hget =>
    cases hget with
    | hit j => exact sameKey_refcnt s.cache _ _ i
    | recycled j hfree hclean =>
      have hij : i ≠ j := by
        rintro rfl
        rcases hi with hi | hi
        · omega
        · exact absurd hi (by simp [hclean])
      rw [Bcache.set_bufs_of_ne _ hij]
      exact .refl _
    | null => exact .refl _
  | moved r hr st hkey => exact sameKey_set _ hkey i
  | dropped r =>
    rw [bufDrop_bufs]
    exact sameKey_refcnt s.cache _ _ i
  | pinned r => exact sameKey_refcnt s.cache _ _ i
  | unpinned j => exact sameKey_refcnt s.cache _ _ i
  | same => exact .refl _

theorem KeysOk.represents (h : KeysOk s) : Represents s where
  listed := by
    obtain ⟨xs, hxs⟩ := h.keyed
    exact ⟨xs, hxs.lru, hxs.lru.nodup, hxs.all⟩
  inverse := fun n => by
    obtain ⟨xs, hxs⟩ := h.keyed
    refine Ring.IsRing.inverse hxs.lru ?_
    cases n with
    | none => exact List.mem_cons_self
    | some i => exact List.mem_cons_of_mem _ (List.mem_map_of_mem (hxs.all i))
  oneOwner := fun _ _ => h.keyed.eq_of_referenced
  counted := h.counted
  keepsKey := fun _ _ hs _ hi => (bufStep_end h.keyed hs).sameKey hi

/-- `uint32_t` counts as well, as long as there are fewer than `2 ^ 32` references and pins. -/
theorem Represents.refcnt_le (h : Represents s) (i : Fin nbuf) :
    (s.cache.bufs i).refcnt ≤ s.refs.length + s.pins i := by
  rw [h.counted]
  exact Nat.add_le_add_right List.countP_le_length _

/-- **The representation invariant of the buffer cache.** -/
theorem always_represents (disk : Disk) (os : List BufOp) :
    Transition.Always bufStep Represents (init disk) os :=
  Transition.Always.mono (fun _ => KeysOk.represents)
    (Transition.always_of_inv (fun _ _ _ h hs => h.step (bufStep_end h.keyed hs)) os _
      (init_keysOk disk))

end CacheState

end Lithium
