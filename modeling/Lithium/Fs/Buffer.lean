/-
# The buffer cache

`buffer.c`: thirty buffers in a circular list through the sentinel `bcache.head`, most recently
used first.  `buf_get` looks for the block from the front, and failing that recycles, from the
back, the first buffer nobody references and whose `B_DIRTY` flag is clear.

A node of the list is `some i` for `bcache.bufs[i]` and `none` for `bcache.head`; the `prev` and
`next` fields of all of them are kept together in `links`, the form `Lib/Ring.lean` works on.  The
list loops run with fuel `NBUF`; section 3 shows that on a well-formed list they always end.
-/
import Lithium.Fs.Sleeplock
import Lithium.Lib.Ring
import Mathlib.Data.List.FinRange

namespace Lithium

/-! ## 1. Data -/

/-- `B_VALID`: the data are those of the disk. -/
def bValid : BitVec 32 := 0x2

/-- `B_DIRTY`: modified and not yet written to the disk. -/
def bDirty : BitVec 32 := 0x4

/-- `struct buf`; its two list pointers are in `Bcache.links`, and `refcnt` counts without bound. -/
structure Buf where
  flags : BitVec 32
  dev : BitVec 32
  blockno : BlockNo
  lock : Sleeplock
  refcnt : Nat
  data : Block

/-- `&bcache.bufs[i]` is `some i`, `&bcache.head` is `none`. -/
abbrev Node := Option (Fin nbuf)

/-- `struct bcache`, without its spinlock: the functions below are its critical sections. -/
structure Bcache where
  bufs : Fin nbuf → Buf
  links : Ring.Links Node

/-- Replace one buffer. -/
def Bcache.set (c : Bcache) (i : Fin nbuf) (b : Buf) : Bcache :=
  { c with bufs := Function.update c.bufs i b }

@[simp] theorem Bcache.set_links (c : Bcache) (i : Fin nbuf) (b : Buf) :
    (c.set i b).links = c.links := rfl

@[simp] theorem Bcache.set_bufs_self (c : Bcache) (i : Fin nbuf) (b : Buf) :
    (c.set i b).bufs i = b := by simp [Bcache.set]

theorem Bcache.set_bufs_of_ne (c : Bcache) {i j : Fin nbuf} (h : j ≠ i) (b : Buf) :
    (c.set i b).bufs j = c.bufs j := by simp [Bcache.set, Function.update_of_ne h]

/-- The dirty bit of the flags word. -/
def Buf.dirty (b : Buf) : Bool := b.flags &&& bDirty != 0

/-- The valid bit of the flags word. -/
def Buf.valid (b : Buf) : Bool := b.flags &&& bValid != 0

/-! ## 2. `buffer.c` -/

/-- A buffer of the zeroed `.bss`, with its sleeplock initialised. -/
def Buf.zero : Buf :=
  { flags := 0, dev := 0, blockno := 0, lock := sleeplockInit, refcnt := 0, data := fun _ => 0 }

/-- `buf_cache_init`: link the buffers one after the other behind the sentinel. -/
def bufCacheInit : Bcache where
  bufs := fun _ => Buf.zero
  links := (List.finRange nbuf).foldl (fun l i => Ring.pushFront l none (some i))
    ⟨fun _ => none, fun _ => none⟩

/-- `b->dev == dev && b->blockno == blockno`. -/
def Bcache.hasKey (c : Bcache) (dev : BitVec 32) (blockno : BlockNo) : Node → Bool
  | none => false
  | some i => (c.bufs i).dev == dev && (c.bufs i).blockno == blockno

/-- `b->refcnt == 0 && !(b->flags & B_DIRTY)`. -/
def Bcache.recyclable (c : Bcache) : Node → Bool
  | none => false
  | some i => (c.bufs i).refcnt == 0 && !(c.bufs i).dirty

/-- The first loop of `buf_get`, from the most recently used buffer. -/
def Bcache.searchNext (c : Bcache) (test : Node → Bool) : Option (Option (Fin nbuf)) :=
  (Ring.scan c.links.next none test nbuf (c.links.next none)).map Option.join

/-- The second loop of `buf_get`, from the least recently used buffer. -/
def Bcache.searchPrev (c : Bcache) (test : Node → Bool) : Option (Option (Fin nbuf)) :=
  (Ring.scan c.links.prev none test nbuf (c.links.prev none)).map Option.join

/-- `buf_get` up to the release of `bcache.lock`; the sleeplock of the buffer is acquired after
it.  The outer `none` is a list loop that never ends, the inner one the result `NULL`. -/
def bufGet (c : Bcache) (dev : BitVec 32) (blockno : BlockNo) :
    Option (Bcache × Option (Fin nbuf)) := do
  match ← c.searchNext (c.hasKey dev blockno) with
  | some i => some (c.set i { c.bufs i with refcnt := (c.bufs i).refcnt + 1 }, some i)
  | none =>
    match ← c.searchPrev c.recyclable with
    | some i =>
      some (c.set i { c.bufs i with dev := dev, blockno := blockno, flags := 0, refcnt := 1 },
        some i)
    | none => some (c, none)

/-- The section of `buf_release` under `bcache.lock`: drop the reference, and move the buffer to
the front of the list when it was the last one. -/
def bufDrop (c : Bcache) (i : Fin nbuf) : Bcache :=
  let c := c.set i { c.bufs i with refcnt := (c.bufs i).refcnt - 1 }
  if (c.bufs i).refcnt = 0 then
    { c with links := Ring.pushFront (Ring.unlink c.links (some i)) none (some i) }
  else c

/-- `buf_pin`. -/
def bufPin (c : Bcache) (i : Fin nbuf) : Bcache :=
  c.set i { c.bufs i with refcnt := (c.bufs i).refcnt + 1 }

/-- `buf_unpin`. -/
def bufUnpin (c : Bcache) (i : Fin nbuf) : Bcache :=
  c.set i { c.bufs i with refcnt := (c.bufs i).refcnt - 1 }

/-! ## 3. On a well-formed list the loops end -/

/-- The list through `bcache.head` holds the buffers `xs`, in this order. -/
def Bcache.Lru (c : Bcache) (xs : List (Fin nbuf)) : Prop :=
  Ring.IsRing c.links none (xs.map some)

theorem Bcache.Lru.nodup {c : Bcache} {xs : List (Fin nbuf)} (h : c.Lru xs) : xs.Nodup :=
  List.Nodup.of_map some (List.nodup_cons.mp (Ring.IsRing.nodup h)).2

theorem find?_map_some_join {α : Type*} (test : Option α → Bool) (xs : List α) :
    ((xs.map some).find? test).join = xs.find? fun i => test (some i) := by
  rw [List.find?_map]
  change (Option.map some (xs.find? fun i => test (some i))).join = _
  cases xs.find? fun i => test (some i) <;> rfl

theorem searchNext_eq {c : Bcache} {xs : List (Fin nbuf)} (h : c.Lru xs)
    (hlen : xs.length ≤ nbuf) (test : Node → Bool) :
    c.searchNext test = some (xs.find? fun i => test (some i)) := by
  rw [Bcache.searchNext, Ring.scan_next h test (by simpa using hlen), Option.map_some,
    find?_map_some_join]

theorem searchPrev_eq {c : Bcache} {xs : List (Fin nbuf)} (h : c.Lru xs)
    (hlen : xs.length ≤ nbuf) (test : Node → Bool) :
    c.searchPrev test = some (xs.reverse.find? fun i => test (some i)) := by
  rw [Bcache.searchPrev, Ring.scan_prev h test (by simpa using hlen), Option.map_some,
    ← List.map_reverse, find?_map_some_join]

/-- The list holds every buffer exactly once. -/
def Bcache.AllLinked (c : Bcache) : Prop :=
  ∃ xs : List (Fin nbuf), c.Lru xs ∧ ∀ i, i ∈ xs

theorem Bcache.Lru.length_le {c : Bcache} {xs : List (Fin nbuf)} (h : c.Lru xs) :
    xs.length ≤ nbuf := by
  simpa using h.nodup.length_le_card

/-- Pushing the buffers one after the other makes a list of all of them. -/
theorem foldl_pushFront_isRing : ∀ (is js : List (Fin nbuf)) (l : Ring.Links Node),
    Ring.IsRing l none (js.map some) → (is ++ js).Nodup →
    Ring.IsRing (is.foldl (fun l i => Ring.pushFront l none (some i)) l) none
      ((is.reverse ++ js).map some)
  | [], js, l, h, _ => by simpa using h
  | i :: is, js, l, h, hnd => by
    rw [List.foldl_cons, List.reverse_cons, List.append_assoc, List.singleton_append]
    rw [List.cons_append, List.nodup_cons, List.mem_append, not_or] at hnd
    refine foldl_pushFront_isRing is (i :: js) _ ?_ ?_
    · refine h.pushFront (by simp) ?_
      simpa using hnd.1.2
    · rw [List.nodup_append] at hnd ⊢
      refine ⟨hnd.2.1, by simpa using ⟨hnd.1.2, hnd.2.2.1⟩, fun a ha b hb => ?_⟩
      rcases List.mem_cons.mp hb with rfl | hb
      · exact fun e => hnd.1.1 (e ▸ ha)
      · exact hnd.2.2.2 a ha b hb

/-- `buf_cache_init` leaves the last buffer in front. -/
theorem bufCacheInit_lru : bufCacheInit.Lru (List.finRange nbuf).reverse := by
  have h := foldl_pushFront_isRing (List.finRange nbuf) [] ⟨fun _ => none, fun _ => none⟩
    ⟨by simp, rfl, rfl⟩ (by simpa using List.nodup_finRange nbuf)
  rwa [List.append_nil] at h

/-- After `buf_cache_init` every buffer is in the list. -/
theorem bufCacheInit_allLinked : bufCacheInit.AllLinked :=
  ⟨(List.finRange nbuf).reverse, bufCacheInit_lru, fun i => by simp [List.mem_finRange]⟩

/-- A buffer that is moved to the front comes first, and the others keep their order. -/
theorem Bcache.Lru.moveFront {c c' : Bcache} {i : Fin nbuf} {us vs : List (Fin nbuf)}
    (h : c.Lru (us ++ i :: vs))
    (hl : c'.links = Ring.pushFront (Ring.unlink c.links (some i)) none (some i)) :
    c'.Lru (i :: (us ++ vs)) := by
  have hnd := h.nodup
  rw [List.nodup_middle, List.nodup_cons] at hnd
  rw [Bcache.Lru, hl, List.map_cons]
  rw [Bcache.Lru, List.map_append, List.map_cons] at h
  have hun := h.unlink
  rw [← List.map_append] at hun
  exact hun.pushFront (by simp) (by simpa using hnd.1)

/-- Moving a buffer to the front keeps every buffer in the list. -/
theorem Bcache.AllLinked.moveFront {c c' : Bcache} (h : c.AllLinked) (i : Fin nbuf)
    (hl : c'.links = Ring.pushFront (Ring.unlink c.links (some i)) none (some i)) :
    c'.AllLinked := by
  obtain ⟨xs, hxs, hall⟩ := h
  obtain ⟨us, vs, rfl⟩ := List.append_of_mem (hall i)
  refine ⟨i :: (us ++ vs), hxs.moveFront hl, fun j => ?_⟩
  have := hall j
  simp only [List.mem_append, List.mem_cons] at this ⊢
  tauto

/-- The list is untouched by the other operations. -/
theorem Bcache.AllLinked.congr {c c' : Bcache} (h : c.AllLinked) (hl : c'.links = c.links) :
    c'.AllLinked := by
  obtain ⟨xs, hxs, hall⟩ := h
  exact ⟨xs, by rw [Bcache.Lru, hl]; exact hxs, hall⟩

end Lithium
