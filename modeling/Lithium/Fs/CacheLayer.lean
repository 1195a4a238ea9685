/-
# The cache behind the block layer

The log and the inodes are verified over the `World` of `Block.lean`: one buffer for every block,
that a call of `block_read` finds or does not find as it pleases the environment.  Here is the
reason why this is enough.  The cache of `buffer.c` has thirty buffers for all blocks, gives a
buffer another block whenever nobody refers to it, takes and gives back its locks and its
references in sections of their own, and fills and writes a buffer some time after the call began.
What the callers see of it, in any interleaving, is what they would see of the `World`.

A call of `block_read` happens in the `World` when it returns, a `block_write` when the disk is
done with it, and a `block_release` when it gives the sleeplock back.  Where the buffer of a block
has been recycled the `World` is told so at the next `block_read`.
-/
import Lithium.Fs.CacheCoherence
import Lithium.Fs.LogState

namespace Lithium

open Wal

/-! ## 1. What the callers see -/

/-- A call as its caller sees it. -/
inductive BlockEvent where
  /-- `block_read` has found or made a buffer, which it waits for. -/
  | called (i : Pid) (b : BlockNo)
  /-- `block_read` returns `NULL`. -/
  | refused (i : Pid) (b : BlockNo)
  /-- `block_read` returns, with this data in the buffer. -/
  | read (i : Pid) (b : BlockNo) (data : Block)
  | assigned (i : Pid) (b : BlockNo) (data : Block)
  /-- `block_write` returns. -/
  | written (i : Pid) (b : BlockNo) (data : Block)
  | released (i : Pid) (b : BlockNo)
  | pinned (b : BlockNo)
  | unpinned (b : BlockNo)

/-- What is seen of a section of `block.c`. -/
def CacheState.event? (s : CacheState) : CacheOp → Option BlockEvent
  | .bufGet pid dev blockno =>
    match Lithium.bufGet s.cache dev blockno with
    | some (_, some _) => some (.called pid blockno)
    | some (_, none) => some (.refused pid blockno)
    | none => none
  | .blockRead r =>
    if (s.bufOf r).valid then some (.read r.pid (s.bufOf r).blockno (s.bufOf r).data) else none
  | .complete r _ =>
    if r.stage = .reading then some (.read r.pid (s.bufOf r).blockno (s.disk (s.bufOf r).blockno))
    else some (.written r.pid (s.bufOf r).blockno (s.bufOf r).data)
  | .modify r data => some (.assigned r.pid (s.bufOf r).blockno data)
  | .unlock r =>
    if sleeplockHeld (s.bufOf r).lock (some r.pid) then some (.released r.pid (s.bufOf r).blockno)
    else none
  | .bufPin r => some (.pinned (s.bufOf r).blockno)
  | .bufUnpin i => some (.unpinned (s.cache.bufs i).blockno)
  | .lock _ | .blockWrite _ | .drop _ => none

/-- The block is asked for under the device number it is used with, and the disk reports
status 0. -/
def Regular (devOf : BlockNo → BitVec 32) : CacheOp → Prop
  | .bufGet _ dev blockno => dev = devOf blockno
  | .complete _ status => status = 0
  | _ => True

instance (devOf : BlockNo → BitVec 32) : ∀ o, Decidable (Regular devOf o)
  | .bufGet _ dev blockno => inferInstanceAs (Decidable (dev = devOf blockno))
  | .complete _ status => inferInstanceAs (Decidable (status = 0))
  | .lock _ | .blockRead _ | .modify .. | .blockWrite _ | .unlock _ | .drop _ | .bufPin _
  | .bufUnpin _ => isTrue trivial

/-! ## 2. The `World` as a machine -/

/-- A call of the block layer, as the log makes it; `block_read` may also return `NULL`. -/
inductive LayerOp where
  | call (i : Pid) (c : BlockCall)
  | refuse (i : Pid) (b : BlockNo)
  | pin (b : BlockNo)

namespace Wal.World

/-- The effect of a call; `none` when the caller sleeps. -/
def blockCall (w : World) (i : Pid) : BlockCall → Option World
  | .get b recycled => some (w.getBuf b recycled)
  | .lock b => w.lockBuf i b
  | .assign b data => some (finalWorld ((setData b data).run w))
  | .write b => some (finalWorld ((Wal.blockWrite (asPid i false) b).run w))
  | .unpin b => some (finalWorld ((Wal.bufUnpin b).run w))
  | .release b => some (finalWorld ((blockRelease (asPid i false) b).run w))

/-- It is the one in the machine of the log. -/
theorem blockCall_eq (s : LogRun) (i : Pid) (c : BlockCall) :
    (s.blockCall i c).map LogRun.world = s.world.blockCall i c := by
  cases c with
  | lock b =>
    rw [LogRun.blockCall, Option.map_map]
    exact congrFun Option.map_id _
  | get | assign | write | unpin | release => rfl

def step (w : World) : LayerOp → Option World
  | .call i c => w.blockCall i c
  | .refuse _ _ => some w
  | .pin b => some (finalWorld ((Wal.bufPin b).run w))

def event? (w : World) : LayerOp → Option BlockEvent
  | .call i (.get b _) => some (.called i b)
  | .call i (.lock b) => some (.read i b (w.view b))
  | .call i (.assign b data) => some (.assigned i b data)
  | .call i (.write b) => some (.written i b (w.bufs b).data)
  | .call _ (.unpin b) => some (.unpinned b)
  | .call i (.release b) => some (.released i b)
  | .refuse i b => some (.refused i b)
  | .pin b => some (.pinned b)

end Wal.World

/-! ## 3. A buffer and its block -/

/-- `block_read` has the sleeplock and has not returned. -/
def Stage.entering : Stage → Bool
  | .locked | .reading => true
  | _ => false

theorem Stage.holdsLock_of_entering {st : Stage} (h : st.entering = true) :
    st.holdsLock = true := by
  cases st <;> first | rfl | exact absurd h (by decide)

/-- The stages of the references to a buffer. -/
def stagesAt (refs : List Ref) (i : Fin nbuf) : List Stage :=
  (refs.filter fun r => r.buf == i).map Ref.stage

/-- What the `World` has of a buffer: a lock that `block_read` has taken without having returned
yet is still free, a reference is given up with the lock, and a buffer that is being written is as
it was. -/
structure Mirrors (b : Buf) (stages : List Stage) (c : CachedBlock) : Prop where
  refcnt : c.refcnt + stages.count .unlocked = b.refcnt
  lock : c.lock = if stages.any Stage.entering then sleeplockInit else b.lock
  valid : c.valid = (b.valid || stages.contains .writing)
  data : c.valid = true → c.data = b.data

/-- What the stage of a reference says of the buffer. -/
structure Suits (b : Buf) (r : Ref) : Prop where
  owner : r.stage.holdsLock = true → b.lock = ⟨true, r.pid⟩
  holding : r.stage = .holding → b.valid = true
  reading : r.stage = .reading → b.valid = false

/-- A reference without the lock says nothing. -/
theorem Suits.of_unheld {b : Buf} {r : Ref} (h : r.stage.holdsLock = false) : Suits b r := by
  refine ⟨fun e => ?_, fun e => ?_, fun e => ?_⟩
  · rw [h] at e
    exact absurd e (by decide)
  · rw [e] at h
    exact absurd h (by decide)
  · rw [e] at h
    exact absurd h (by decide)

/-- A buffer in use mirrors its block, and of the other blocks the `World` has nothing that a call
could see. -/
structure Layered (devOf : BlockNo → BitVec 32) (s : CacheState) (w : World) : Prop where
  keys : s.KeysOk
  locks : s.LocksOk
  known : ∀ i, ¬ (s.cache.bufs i).Unused →
    (s.cache.bufs i).dev = devOf (s.cache.bufs i).blockno
  suits : ∀ r ∈ s.refs, Suits (s.bufOf r) r
  free : ∀ i, (s.cache.bufs i).lock.locked = false → (s.cache.bufs i).lock = sleeplockInit
  disk : w.disk = s.disk
  used : ∀ i, ¬ (s.cache.bufs i).Unused →
    Mirrors (s.cache.bufs i) (stagesAt s.refs i) (w.bufs (s.cache.bufs i).blockno)
  absent : ∀ n, (∀ i, (s.cache.bufs i).blockno = n → (s.cache.bufs i).Unused) →
    (w.bufs n).refcnt = 0 ∧ (w.bufs n).lock = sleeplockInit

/-! ## 4. Stages -/

theorem stagesAt_cons_self (refs : List Ref) (r : Ref) :
    stagesAt (r :: refs) r.buf = r.stage :: stagesAt refs r.buf := by
  simp [stagesAt]

theorem stagesAt_cons_of_ne (refs : List Ref) {r : Ref} {i : Fin nbuf} (h : r.buf ≠ i) :
    stagesAt (r :: refs) i = stagesAt refs i := by
  simp [stagesAt, h]

theorem stagesAt_erase {refs : List Ref} {r : Ref} (hr : r ∈ refs) :
    (stagesAt refs r.buf).Perm (r.stage :: stagesAt (refs.erase r) r.buf) := by
  rw [← stagesAt_cons_self]
  exact ((List.perm_cons_erase hr).filter _).map _

theorem stagesAt_erase_of_ne {refs : List Ref} {r : Ref} (hr : r ∈ refs) {i : Fin nbuf}
    (h : r.buf ≠ i) : (stagesAt refs i).Perm (stagesAt (refs.erase r) i) := by
  rw [← stagesAt_cons_of_ne (refs.erase r) h]
  exact ((List.perm_cons_erase hr).filter _).map _

/-- A buffer without references is in no stage. -/
theorem stagesAt_eq_nil {s : CacheState} (h : s.KeysOk) {i : Fin nbuf}
    (hi : (s.cache.bufs i).refcnt = 0) : stagesAt s.refs i = [] := by
  have hcount := h.counted i
  rw [hi] at hcount
  rw [stagesAt, List.map_eq_nil_iff, ← List.length_eq_zero_iff, ← List.countP_eq_length_filter]
  omega

/-- The lock of a buffer without references is free. -/
theorem unlocked_of_stagesAt {s : CacheState} (h : s.LocksOk) {i : Fin nbuf}
    (hi : stagesAt s.refs i = []) : (s.cache.bufs i).lock.locked = false := by
  rw [stagesAt, List.map_eq_nil_iff, List.filter_eq_nil_iff] at hi
  have hcount := h i
  rw [List.countP_eq_zero.mpr fun q hq => by simp [hi q hq]] at hcount
  cases hl : (s.cache.bufs i).lock.locked with
  | false => rfl
  | true => rw [hl] at hcount; exact absurd hcount (by decide)

theorem Mirrors.perm {b : Buf} {ss ss' : List Stage} {c : CachedBlock} (h : Mirrors b ss c)
    (hp : ss.Perm ss') : Mirrors b ss' c where
  refcnt := by rw [← hp.count_eq]; exact h.refcnt
  lock := by rw [← hp.any_eq]; exact h.lock
  valid := by
    rw [h.valid, ← Bool.coe_iff_coe]
    simp [hp.mem_iff]
  data := h.data

/-- No other reference has the lock. -/
def Calm (ss : List Stage) : Prop := ∀ st ∈ ss, st.holdsLock = false

theorem Calm.any {ss : List Stage} (h : Calm ss) : ss.any Stage.entering = false := by
  rw [List.any_eq_false]
  intro st hst hent
  exact absurd (Stage.holdsLock_of_entering hent) (by simp [h st hst])

theorem Calm.contains {ss : List Stage} (h : Calm ss) : ss.contains .writing = false := by
  rw [← Bool.not_eq_true, List.contains_iff_mem]
  exact fun hmem => absurd (h _ hmem) (by decide)

/-- **No other reference has the lock** of a buffer, when one has it or it is free. -/
theorem CacheState.LocksOk.calm {s : CacheState} (h : s.LocksOk) {r : Ref} (hr : r ∈ s.refs)
    (hlock : r.stage.holdsLock = true ∨ (s.bufOf r).lock.locked = false) :
    Calm (stagesAt (s.refs.erase r) r.buf) := by
  intro st hst
  by_contra hheld
  obtain ⟨q, hq, rfl⟩ := List.mem_map.mp hst
  obtain ⟨hq, hbuf⟩ := List.mem_filter.mp hq
  have hcount := h r.buf
  rw [CacheState.countP_locks_erase hr] at hcount
  have hpos : 0 < (s.refs.erase r).countP (fun q => q.buf == r.buf && q.stage.holdsLock) :=
    List.countP_pos_iff.mpr ⟨q, hq, by simpa [beq_iff_eq.mp hbuf] using hheld⟩
  rcases hlock with hlock | hlock
  · have hone := Bool.toNat_le (s.cache.bufs r.buf).lock.locked
    rw [hlock] at hcount
    simp only [beq_self_eq_true, Bool.and_true, if_true] at hcount
    omega
  · rw [show (s.cache.bufs r.buf).lock.locked = false from hlock] at hcount
    simp only [Bool.toNat_false] at hcount
    omega

/-! ## 5. One buffer -/

section Buffer

variable {b b' : Buf} {st st' : Stage} {ss : List Stage} {c c' : CachedBlock}

/-- A change that keeps the reference, of the process that has the lock or takes it. -/
theorem Mirrors.move (h : Mirrors b (st :: ss) c) (hcalm : Calm ss)
    (hcnt : b'.refcnt = b.refcnt ∧ c'.refcnt = c.refcnt) (hst : st ≠ .unlocked ∧ st' ≠ .unlocked)
    (hlock : c'.lock = if st'.entering then sleeplockInit else b'.lock)
    (hvalid : c'.valid = (b'.valid || st' == .writing))
    (hdata : c'.valid = true → c'.data = b'.data) :
    Mirrors b' (st' :: ss) c' where
  refcnt := by
    have hc := h.refcnt
    rw [List.count_cons_of_ne hst.1] at hc
    rw [hcnt.1, hcnt.2, List.count_cons_of_ne hst.2, hc]
  lock := by rw [List.any_cons, hcalm.any, Bool.or_false, hlock]
  valid := by
    rw [hvalid, List.contains_cons, hcalm.contains, Bool.or_false]
    exact congrArg (b'.valid || ·) (Bool.beq_comm ..)
  data := hdata

/-- The lock of a buffer that some process works with. -/
theorem Mirrors.lock_cons (h : Mirrors b (st :: ss) c) (hcalm : Calm ss) :
    c.lock = if st.entering then sleeplockInit else b.lock := by
  rw [h.lock, List.any_cons, hcalm.any, Bool.or_false]

theorem Mirrors.valid_cons (h : Mirrors b (st :: ss) c) (hcalm : Calm ss) :
    c.valid = (b.valid || st == .writing) := by
  rw [h.valid, List.contains_cons, hcalm.contains, Bool.or_false]
  exact congrArg (b.valid || ·) (Bool.beq_comm ..)

/-- `buf_release` gives the lock back. -/
theorem Mirrors.release (h : Mirrors b (.holding :: ss) c) (hcalm : Calm ss) (hcnt : 0 < c.refcnt) :
    Mirrors { b with lock := sleeplockRelease b.lock } (.unlocked :: ss) c.release where
  refcnt := by
    have hc := h.refcnt
    rw [List.count_cons_of_ne (by decide)] at hc
    rw [List.count_cons_self]
    change c.refcnt - 1 + _ = b.refcnt
    omega
  lock := by
    rw [List.any_cons, hcalm.any]
    rfl
  valid := by
    have hv := h.valid_cons hcalm
    rw [List.contains_cons, hcalm.contains]
    exact hv
  data := h.data

/-- `buf_release` drops the reference. -/
theorem Mirrors.drop (h : Mirrors b (.unlocked :: ss) c) :
    Mirrors { b with refcnt := b.refcnt - 1 } ss c where
  refcnt := by
    have hc := h.refcnt
    rw [List.count_cons_self] at hc
    change _ = b.refcnt - 1
    omega
  lock := h.lock
  valid := by
    rw [h.valid, List.contains_cons]
    rfl
  data := h.data

/-- One reference more. -/
theorem Mirrors.pin (h : Mirrors b ss c) : Mirrors { b with refcnt := b.refcnt + 1 } ss c.pin where
  refcnt := by
    have hc := h.refcnt
    change c.refcnt + 1 + _ = b.refcnt + 1
    omega
  lock := h.lock
  valid := h.valid
  data := h.data

/-- One reference less. -/
theorem Mirrors.unpin (h : Mirrors b ss c) (hcnt : 0 < c.refcnt) :
    Mirrors { b with refcnt := b.refcnt - 1 } ss c.unpin where
  refcnt := by
    have hc := h.refcnt
    change c.refcnt - 1 + _ = b.refcnt - 1
    omega
  lock := h.lock
  valid := h.valid
  data := h.data

/-- A reference that waits. -/
theorem Mirrors.wait (h : Mirrors b ss c) : Mirrors b (.waiting :: ss) c where
  refcnt := by rw [List.count_cons_of_ne (by decide), h.refcnt]
  lock := h.lock
  valid := by
    rw [h.valid, List.contains_cons]
    rfl
  data := h.data

/-- The first reference to a buffer that does not have the block yet. -/
theorem Mirrors.fresh (hcnt : b.refcnt = 1) (hvalid : b.valid = false)
    (hlock : b.lock = sleeplockInit) (hc : c.refcnt = 0 ∧ c.lock = sleeplockInit) :
    Mirrors b [.waiting] { c with
      valid := c.valid && (c.refcnt != 0 || !true), refcnt := c.refcnt + 1 } where
  refcnt := by
    rw [hcnt, hc.1]
    rfl
  lock := hc.2.trans hlock.symm
  valid := by
    rw [hvalid, hc.1]
    exact Bool.and_false _
  data := fun hv => by simp [hc.1] at hv

/-- A buffer that nobody refers to. -/
theorem Mirrors.idle (h : Mirrors b [] c) (hcnt : b.refcnt = 0) (hlock : b.lock = sleeplockInit) :
    c.refcnt = 0 ∧ c.lock = sleeplockInit := by
  refine ⟨?_, ?_⟩
  · have hc := h.refcnt
    rw [List.count_nil, hcnt] at hc
    exact hc
  · rw [h.lock, List.any_nil]
    exact hlock

end Buffer

/-! ## 6. The cache and the `World` -/

namespace Layered

variable {devOf : BlockNo → BitVec 32} {s s' : CacheState} {w w' : World} {r : Ref}

/-- After boot nothing is cached. -/
theorem init (devOf : BlockNo → BitVec 32) (disk : Disk) :
    Layered devOf (.init disk) (World.boot disk) where
  keys := CacheState.init_keysOk disk
  locks := CacheState.init_locksOk disk
  known := fun _ hi => absurd ⟨rfl, rfl⟩ hi
  suits := fun _ hr => absurd hr List.not_mem_nil
  free := fun _ _ => rfl
  disk := rfl
  used := fun _ hi => absurd ⟨rfl, rfl⟩ hi
  absent := fun _ _ => ⟨rfl, rfl⟩

theorem inUse (h : Layered devOf s w) (hr : r ∈ s.refs) : ¬ (s.bufOf r).Unused := fun hu => by
  have hpos := h.keys.refsOk.refcnt_pos hr
  have hzero : (s.bufOf r).refcnt = 0 := hu.1
  exact absurd hpos (hzero ▸ Nat.lt_irrefl 0)

/-- No two buffers in use are for one block. -/
theorem others (h : Layered devOf s w) {i : Fin nbuf} (hi : ¬ (s.cache.bufs i).Unused)
    (j : Fin nbuf) (hj : j ≠ i) (hno : (s.cache.bufs j).blockno = (s.cache.bufs i).blockno) :
    (s.cache.bufs j).Unused := by
  by_contra hju
  have hkey : (s.cache.bufs j).SameKey (s.cache.bufs i) := by
    refine ⟨?_, hno⟩
    rw [h.known j hju, h.known i hi, hno]
  rcases h.keys.keyed.unused_or hj hkey with hu | hu
  · exact hju hu
  · exact hi hu

/-- No other reference has the lock. -/
theorem calm (h : Layered devOf s w) (hr : r ∈ s.refs)
    (hlock : r.stage.holdsLock = true ∨ (s.bufOf r).lock.locked = false) :
    Calm (stagesAt (s.refs.erase r) r.buf) := h.locks.calm hr hlock

/-- The references that the `World` counts. -/
theorem refcnt_eq (h : Layered devOf s w) {i : Fin nbuf} (hi : ¬ (s.cache.bufs i).Unused) :
    (w.bufs (s.cache.bufs i).blockno).refcnt =
      (stagesAt s.refs i).countP (fun st => ¬ (st == .unlocked) = true) + s.pins i := by
  have hm := (h.used i hi).refcnt
  have hall := h.keys.counted i
  have hlen : (stagesAt s.refs i).length = s.refs.countP fun r => r.buf == i := by
    rw [stagesAt, List.length_map, List.countP_eq_length_filter]
  rw [List.length_eq_countP_add_countP (fun st => st == Stage.unlocked)] at hlen
  rw [List.count] at hm
  omega

/-- The block of a reference, with the stages of the others. -/
theorem mirrors (h : Layered devOf s w) (hr : r ∈ s.refs) :
    Mirrors (s.bufOf r) (r.stage :: stagesAt (s.refs.erase r) r.buf)
      (w.bufs (s.bufOf r).blockno) :=
  (h.used r.buf (h.inUse hr)).perm (stagesAt_erase hr)

/-- A buffer that nobody refers to. -/
theorem idle (h : Layered devOf s w) {i : Fin nbuf} (hi : ¬ (s.cache.bufs i).Unused)
    (hcnt : (s.cache.bufs i).refcnt = 0) : (w.bufs (s.cache.bufs i).blockno).refcnt = 0 ∧
      (w.bufs (s.cache.bufs i).blockno).lock = sleeplockInit := by
  have hm := h.used i hi
  rw [stagesAt_eq_nil h.keys hcnt] at hm
  exact hm.idle hcnt (h.free i (unlocked_of_stagesAt h.locks (stagesAt_eq_nil h.keys hcnt)))

/-- **A change of one buffer**, that may give it another block, and of its references. -/
theorem change (h : Layered devOf s w) (hkeys : s'.KeysOk) (hlocks : s'.LocksOk) {i : Fin nbuf}
    {b : Buf} {c : CachedBlock} (hbufs : s'.cache.bufs = Function.update s.cache.bufs i b)
    (hw : w'.bufs = Function.update w.bufs b.blockno c) (hdisk : w'.disk = s'.disk)
    (hrefs : ∀ j, j ≠ i → (stagesAt s.refs j).Perm (stagesAt s'.refs j))
    (hsuits : ∀ q ∈ s'.refs, q.buf = i → Suits b q) (hold : ∀ q ∈ s'.refs, q.buf ≠ i → q ∈ s.refs)
    (hdev : ¬ b.Unused → b.dev = devOf b.blockno)
    (hfree : b.lock.locked = false → b.lock = sleeplockInit)
    (hothers : ∀ j, j ≠ i → (s.cache.bufs j).blockno = b.blockno → (s.cache.bufs j).Unused)
    (hleft : ¬ (s.cache.bufs i).Unused → (s.cache.bufs i).blockno ≠ b.blockno →
      (s.cache.bufs i).refcnt = 0)
    (hm : Mirrors b (stagesAt s'.refs i) c) : Layered devOf s' w' := by
  have hself : s'.cache.bufs i = b := by rw [hbufs, Function.update_self]
  have hne : ∀ j, j ≠ i → s'.cache.bufs j = s.cache.bufs j := fun j hj => by
    rw [hbufs, Function.update_of_ne hj]
  refine ⟨hkeys, hlocks, fun j hj => ?_, fun q hq => ?_, fun j hj => ?_, hdisk, fun j hj => ?_,
    fun n hn => ?_⟩
  · by_cases hji : j = i
    · subst hji
      rw [hself] at hj ⊢
      exact hdev hj
    · rw [hne j hji] at hj ⊢
      exact h.known j hj
  · by_cases hqi : q.buf = i
    · rw [CacheState.bufOf, hqi, hself]
      exact hsuits q hq hqi
    · rw [CacheState.bufOf, hne _ hqi]
      exact h.suits q (hold q hq hqi)
  · by_cases hji : j = i
    · subst hji
      rw [hself] at hj ⊢
      exact hfree hj
    · rw [hne j hji] at hj ⊢
      exact h.free j hj
  · by_cases hji : j = i
    · subst hji
      rw [hself, hw, Function.update_self]
      exact hm
    · rw [hne j hji] at hj ⊢
      rw [hw, Function.update_of_ne fun e => hj (hothers j hji e)]
      exact (h.used j hj).perm (hrefs j hji)
  · by_cases hnb : n = b.blockno
    · subst hnb
      have hu := hn i (by rw [hself])
      rw [hself] at hu
      have hnil : stagesAt s'.refs i = [] := stagesAt_eq_nil hkeys (by rw [hself]; exact hu.1)
      have hlock := unlocked_of_stagesAt hlocks hnil
      rw [hself] at hlock
      rw [hnil] at hm
      rw [hw, Function.update_self]
      exact hm.idle hu.1 (hfree hlock)
    · rw [hw, Function.update_of_ne hnb]
      by_cases hi : ¬ (s.cache.bufs i).Unused ∧ (s.cache.bufs i).blockno = n
      · obtain ⟨hi, rfl⟩ := hi
        exact h.idle hi (hleft hi hnb)
      · refine h.absent n fun j hj => ?_
        by_cases hji : j = i
        · subst hji
          by_contra hu
          exact hi ⟨hu, hj⟩
        · have hu := hn j (by rw [hne j hji, hj])
          rwa [hne j hji] at hu

/-- **The process that has the lock, or takes it, goes on.** -/
theorem advance (h : Layered devOf s w) (hr : r ∈ s.refs) {st : Stage} {b : Buf}
    {c : CachedBlock} {disk : Disk}
    (hlock : r.stage.holdsLock = true ∨ (s.bufOf r).lock.locked = false)
    (hkey : b.SameKey (s.bufOf r)) (hcnt : b.refcnt = (s.bufOf r).refcnt)
    (hheld : b.lock.locked.toNat + r.stage.holdsLock.toNat =
      (s.bufOf r).lock.locked.toNat + st.holdsLock.toNat)
    (hfree : b.lock.locked = false → b.lock = sleeplockInit)
    (hsuits : Suits b { r with stage := st })
    (hw : w'.bufs = Function.update w.bufs (s.bufOf r).blockno c) (hdisk : w'.disk = disk)
    (hm : Mirrors b (st :: stagesAt (s.refs.erase r) r.buf) c) :
    Layered devOf { s.advance r st b with disk := disk } w' := by
  have hcalm := h.calm hr hlock
  have hdev : b.dev = devOf b.blockno := by
    rw [hkey.1, hkey.2]
    exact h.known r.buf (h.inUse hr)
  rw [← hkey.2] at hw
  refine h.change (h.keys.step (.moved r hr st hkey hcnt disk)) (h.locks.advance hr hheld)
    rfl hw hdisk (fun j hj => ?_) (fun q hq hbuf => ?_) (fun q hq hbuf => ?_) (fun _ => hdev) hfree
    (fun j hj hno => h.others (h.inUse hr) j hj (hno.trans hkey.2))
    (fun _ hne => absurd hkey.2.symm hne) ?_
  · refine (stagesAt_erase_of_ne hr hj.symm).trans ?_
    exact .of_eq (stagesAt_cons_of_ne (r := { r with stage := st }) _ hj.symm).symm
  · rcases List.mem_cons.mp hq with rfl | hq
    · exact hsuits
    · have hq' : q.stage.holdsLock = false :=
        hcalm q.stage (List.mem_map.mpr ⟨q, List.mem_filter.mpr ⟨hq, by simp [hbuf]⟩, rfl⟩)
      exact .of_unheld hq'
  · rcases List.mem_cons.mp hq with rfl | hq
    · exact absurd rfl hbuf
    · exact List.mem_of_mem_erase hq
  · rw [show stagesAt (s.advance r st b).refs r.buf = _ from
      stagesAt_cons_self (s.refs.erase r) { r with stage := st }]
    exact hm

/-! ## 7. Each section -/

/-- **Another reference to a buffer**, that may get another block with it. -/
theorem refer (h : Layered devOf s w) (pid : Pid) {i : Fin nbuf} {b : Buf} {c : CachedBlock}
    (hkeys : ({ s with
      cache := s.cache.set i b, refs := ⟨pid, i, .waiting⟩ :: s.refs } : CacheState).KeysOk)
    (hlocks : ({ s with
      cache := s.cache.set i b, refs := ⟨pid, i, .waiting⟩ :: s.refs } : CacheState).LocksOk)
    (hw : w'.bufs = Function.update w.bufs b.blockno c) (hdisk : w'.disk = w.disk)
    (hlock : b.lock = (s.cache.bufs i).lock) (hsuits : ∀ q ∈ s.refs, q.buf = i → Suits b q)
    (hdev : b.dev = devOf b.blockno)
    (hothers : ∀ j, j ≠ i → (s.cache.bufs j).blockno = b.blockno → (s.cache.bufs j).Unused)
    (hleft : ¬ (s.cache.bufs i).Unused → (s.cache.bufs i).blockno ≠ b.blockno →
      (s.cache.bufs i).refcnt = 0)
    (hm : Mirrors b (.waiting :: stagesAt s.refs i) c) :
    Layered devOf { s with cache := s.cache.set i b, refs := ⟨pid, i, .waiting⟩ :: s.refs } w' := by
  refine h.change hkeys hlocks rfl hw (hdisk.trans h.disk) (fun j hj => ?_) (fun q hq hbuf => ?_)
    (fun q hq hbuf => (List.mem_cons.mp hq).resolve_left fun e => hbuf (e ▸ rfl)) (fun _ => hdev)
    (hlock ▸ h.free i) hothers hleft ?_
  · exact .of_eq (stagesAt_cons_of_ne (r := ⟨pid, i, .waiting⟩) s.refs hj.symm).symm
  · rcases List.mem_cons.mp hq with rfl | hq
    · exact .of_unheld rfl
    · exact hsuits q hq hbuf
  · rw [stagesAt_cons_self s.refs ⟨pid, i, .waiting⟩]
    exact hm

/-- **`buf_get`** finds a buffer, or makes one for the block. -/
theorem got (h : Layered devOf s w) (pid : Pid) {blockno : BlockNo} {c : Bcache} {i : Fin nbuf}
    (hget : GetEnd s.cache (devOf blockno) blockno c (some i)) (hkeyed : c.Keyed) :
    ∃ recycled, Layered devOf { s with cache := c, refs := ⟨pid, i, .waiting⟩ :: s.refs }
      (w.getBuf blockno recycled) := by
  have hkeys := h.keys.step (.got pid (devOf blockno) blockno hget hkeyed)
  have hlocks := h.locks.got pid hget
  cases hget with
  | hit i hdev hblockno =>
    subst hblockno
    -- whoever has the same block is unused, now that this buffer is referenced
    have hothers : ∀ j, j ≠ i → (s.cache.bufs j).blockno = (s.cache.bufs i).blockno →
        (s.cache.bufs j).Unused := fun j hj hno => by
      by_contra hju
      have hkey : (s.cache.bufs j).SameKey (s.cache.bufs i) :=
        ⟨(h.known j hju).trans (hno ▸ hdev.symm), hno⟩
      rcases hkeyed.unused_or hj (by
          rw [Bcache.set_bufs_self, Bcache.set_bufs_of_ne _ hj]
          exact hkey) with hu | hu
      · rw [Bcache.set_bufs_of_ne _ hj] at hu
        exact hju hu
      · rw [Bcache.set_bufs_self] at hu
        exact absurd hu.1 (Nat.succ_ne_zero _)
    have hsuits : ∀ q ∈ s.refs, q.buf = i →
        Suits { s.cache.bufs i with refcnt := (s.cache.bufs i).refcnt + 1 } q := fun q hq hbuf => by
      have hf := h.suits q hq
      rw [CacheState.bufOf, hbuf] at hf
      exact ⟨hf.owner, hf.holding, hf.reading⟩
    by_cases hu : (s.cache.bufs i).Unused
    · refine ⟨true, h.refer pid hkeys hlocks rfl rfl rfl hsuits hdev hothers
        (fun hne => absurd hu hne) ?_⟩
      have habsent := h.absent _ fun j hj => by
        by_cases hji : j = i
        · exact hji ▸ hu
        · exact hothers j hji hj
      have hnil := stagesAt_eq_nil h.keys hu.1
      rw [hnil]
      exact .fresh (congrArg (· + 1) hu.1) (by simp [Buf.valid, hu.2])
        (h.free i (unlocked_of_stagesAt h.locks hnil)) habsent
    · refine ⟨false, h.refer pid hkeys hlocks rfl rfl rfl hsuits hdev hothers
        (fun _ hne => absurd rfl hne) ?_⟩
      have hm := ((h.used i hu).pin).wait
      refine ⟨hm.refcnt, hm.lock, ?_, fun hv => hm.data ?_⟩
      · rw [← hm.valid]
        simp [CachedBlock.pin]
      · simpa [CachedBlock.pin] using hv
  | recycled i hfree hclean hmiss =>
    have hnone : ∀ j, (s.cache.bufs j).blockno = blockno → (s.cache.bufs j).Unused :=
      fun j hj => by
        by_contra hju
        exact hmiss j ⟨hj ▸ h.known j hju, hj⟩
    have hnil := stagesAt_eq_nil h.keys hfree
    refine ⟨true, h.refer pid hkeys hlocks rfl rfl rfl (fun q hq hbuf => ?_) rfl
      (fun j _ hj => hnone j hj) (fun _ _ => hfree) ?_⟩
    · have hmem : q.stage ∈ stagesAt s.refs i :=
        List.mem_map.mpr ⟨q, List.mem_filter.mpr ⟨hq, by simp [hbuf]⟩, rfl⟩
      rw [hnil] at hmem
      exact absurd hmem List.not_mem_nil
    · rw [hnil]
      exact .fresh rfl (by simp [Buf.valid]) (h.free i (unlocked_of_stagesAt h.locks hnil))
        (h.absent blockno hnone)

/-- The `World` follows to a state like this one, and the callers see the same. -/
abbrev Follows (devOf : BlockNo → BitVec 32) (s' : CacheState) (w : World)
    (e : Option BlockEvent) : Prop :=
  ∃ w', Layered devOf s' w' ∧ Transition.Shows World.step World.event? w w' e.toList

/-- A step that the `World` does not see. -/
theorem quiet (h : Layered devOf s' w) : Follows devOf s' w none := ⟨w, h, .refl w⟩

theorem follows_of_step {o : LayerOp} {e : Option BlockEvent} (hs : w.step o = some w')
    (he : w.event? o = e) (h : Layered devOf s' w') : Follows devOf s' w e :=
  ⟨w', h, he ▸ .single hs⟩

/-- The lock of a reference that has it. -/
theorem locked (h : Layered devOf s w) (hr : r ∈ s.refs) (hst : r.stage.holdsLock = true)
    (hent : r.stage.entering = false) :
    (w.bufs (s.bufOf r).blockno).lock = ⟨true, r.pid⟩ := by
  have hm := (h.mirrors hr).lock_cons (h.calm hr (.inl hst))
  rw [hent] at hm
  exact hm.trans ((h.suits r hr).owner hst)

/-- **`block_read` returns.** -/
theorem loaded (h : Layered devOf s w) (hr : r ∈ s.refs) (hst : r.stage.entering = true)
    {b : Buf} (hkey : b.SameKey (s.bufOf r)) (hcnt : b.refcnt = (s.bufOf r).refcnt)
    (hlock : b.lock = (s.bufOf r).lock) (hvalid : b.valid = true)
    (hdata : b.data = w.view (s.bufOf r).blockno) :
    Follows devOf (s.advance r .holding b) w
      (some (.read r.pid (s.bufOf r).blockno b.data)) := by
  have hheld := Stage.holdsLock_of_entering hst
  have hcalm := h.calm hr (.inl hheld)
  have hm := h.mirrors hr
  have howner := (h.suits r hr).owner hheld
  have hinit := hm.lock_cons hcalm
  rw [hst, if_pos rfl] at hinit
  set n := (s.bufOf r).blockno with hn
  let c : CachedBlock :=
    { w.bufs n with valid := true, data := w.view n, lock := ⟨true, r.pid⟩ }
  have hstep : w.step (.call r.pid (.lock n)) = some (w.put n c) := by
    rw [World.step, World.blockCall, World.lockBuf, hinit]
    rfl
  refine follows_of_step hstep (by rw [hdata]; rfl) ?_
  refine h.advance hr (.inl hheld) hkey hcnt (by rw [hlock, hheld]; rfl) ?_
    ⟨fun _ => hlock.trans howner, fun _ => hvalid, fun e => Stage.noConfusion e⟩ rfl h.disk
    (hm.move hcalm ⟨hcnt, rfl⟩ ⟨?_, by decide⟩ ?_ ?_ fun _ => hdata.symm)
  · rw [hlock, howner]
    exact fun e => absurd e.symm Bool.false_ne_true
  · rintro e
    rw [e] at hst
    exact absurd hst (by decide)
  · exact (hlock.trans howner).symm
  · rw [hvalid]
    rfl

/-- A change of the data, or a request to the disk that begins or ends, by the process that has the
buffer. -/
theorem changed (h : Layered devOf s w) (hr : r ∈ s.refs) {st : Stage} {b : Buf} {c : CachedBlock}
    {disk : Disk} (hst : r.stage = .holding ∨ r.stage = .writing)
    (hst' : st = .holding ∨ st = .writing) (hkey : b.SameKey (s.bufOf r))
    (hsame : b.refcnt = (s.bufOf r).refcnt ∧ b.lock = (s.bufOf r).lock)
    (hc : c.refcnt = (w.bufs (s.bufOf r).blockno).refcnt ∧
      c.lock = (w.bufs (s.bufOf r).blockno).lock)
    (hvalid : c.valid = true ∧ (b.valid = true ∨ st = .writing) ∧ (st = .holding → b.valid = true))
    (hdata : c.data = b.data) (hw : w'.bufs = Function.update w.bufs (s.bufOf r).blockno c)
    (hdisk : w'.disk = disk) : Layered devOf { s.advance r st b with disk := disk } w' := by
  have hheld : r.stage.holdsLock = true := by rcases hst with hst | hst <;> rw [hst] <;> rfl
  have hheld' : st.holdsLock = true := by rcases hst' with hst | hst <;> rw [hst] <;> rfl
  have hent : r.stage.entering = false := by rcases hst with hst | hst <;> rw [hst] <;> rfl
  have hent' : st.entering = false := by rcases hst' with hst | hst <;> rw [hst] <;> rfl
  have howner := hsame.2.trans ((h.suits r hr).owner hheld)
  refine h.advance hr (.inl hheld) hkey hsame.1 (by rw [hsame.2, hheld, hheld']) ?_
    ⟨fun _ => howner, hvalid.2.2, ?_⟩ hw hdisk
    ((h.mirrors hr).move (h.calm hr (.inl hheld)) ⟨hsame.1, hc.1⟩ ⟨?_, ?_⟩ ?_ ?_ fun _ => hdata)
  · rw [howner]
    exact fun e => absurd e.symm Bool.false_ne_true
  · rcases hst' with rfl | rfl <;> exact fun e => Stage.noConfusion e
  · rcases hst with e | e <;> rw [e] <;> decide
  · rcases hst' with rfl | rfl <;> decide
  · rw [hent', hc.2, h.locked hr hheld hent]
    exact howner.symm
  · rcases hvalid.2.1 with hv | rfl
    · rw [hvalid.1, hv]
      rfl
    · rw [hvalid.1]
      exact (Bool.or_true _).symm

/-- `block_read` takes the sleeplock. -/
theorem takes (h : Layered devOf s w) (hr : r ∈ s.refs) (hst : r.stage = .waiting) {lk : Sleeplock}
    (hlk : sleeplockAcquire (s.bufOf r).lock (some r.pid) = some lk) :
    Layered devOf (s.advance r .locked { s.bufOf r with lock := lk }) w := by
  rw [sleeplockAcquire, Option.ite_none_left_eq_some, Option.some.injEq] at hlk
  obtain ⟨hlocked, rfl⟩ := hlk
  have hfree : (s.bufOf r).lock.locked = false := by simpa using hlocked
  have hcalm := h.calm hr (.inr hfree)
  have hm := h.mirrors hr
  have hinit := hm.lock_cons hcalm
  have hvalid := hm.valid_cons hcalm
  rw [hst] at hinit hvalid
  refine h.advance hr (.inr hfree) ⟨rfl, rfl⟩ rfl ?_ (fun e => absurd e.symm Bool.false_ne_true)
    ⟨fun _ => rfl, fun e => Stage.noConfusion e, fun e => Stage.noConfusion e⟩
    (Function.update_eq_self _ _).symm h.disk
    (hm.move hcalm ⟨rfl, rfl⟩ ⟨by rw [hst]; decide, by decide⟩ ?_ hvalid hm.data)
  · rw [hfree, hst]
    rfl
  · exact hinit.trans (h.free r.buf hfree)

/-- It finds the buffer invalid, and asks the disk. -/
theorem asks (h : Layered devOf s w) (hr : r ∈ s.refs) (hst : r.stage = .locked)
    (hvalid : ¬ (s.bufOf r).valid = true) :
    Layered devOf (s.advance r .reading (virtioDiskRw (s.bufOf r))) w := by
  have hheld : r.stage.holdsLock = true := by rw [hst]; rfl
  have hcalm := h.calm hr (.inl hheld)
  have hm := h.mirrors hr
  have hinit := hm.lock_cons hcalm
  have hv := hm.valid_cons hcalm
  rw [hst] at hinit hv
  rw [Bool.not_eq_true] at hvalid
  refine h.advance hr (.inl hheld) ⟨rfl, rfl⟩ rfl (by rw [hst]; rfl) (h.free r.buf)
    ⟨fun _ => (h.suits r hr).owner hheld, fun e => Stage.noConfusion e,
      fun _ => virtioDiskRw_valid _⟩
    (Function.update_eq_self _ _).symm h.disk
    (hm.move hcalm ⟨rfl, rfl⟩ ⟨by rw [hst]; decide, by decide⟩ hinit ?_ hm.data)
  rw [hv, hvalid, virtioDiskRw_valid]
  rfl

/-- **`block_release`** gives the lock back. -/
theorem releases (h : Layered devOf s w) (hr : r ∈ s.refs) (hst : r.stage = .holding) :
    Follows devOf (s.advance r .unlocked
        { s.bufOf r with lock := sleeplockRelease (s.bufOf r).lock }) w
      (some (.released r.pid (s.bufOf r).blockno)) := by
  have hheld : r.stage.holdsLock = true := by rw [hst]; rfl
  have hcalm := h.calm hr (.inl hheld)
  have hm := h.mirrors hr
  rw [hst] at hm
  have hlocked := h.locked hr hheld (by rw [hst]; rfl)
  set n := (s.bufOf r).blockno with hn
  have hpos : 0 < (w.bufs n).refcnt := by
    have hmem : r.stage ∈ stagesAt s.refs r.buf :=
      List.mem_map.mpr ⟨r, List.mem_filter.mpr ⟨hr, by simp⟩, rfl⟩
    have hcount : 0 < (stagesAt s.refs r.buf).countP (fun st => ¬ (st == .unlocked) = true) :=
      List.countP_pos_iff.mpr ⟨r.stage, hmem, by rw [hst]; decide⟩
    rw [hn, CacheState.bufOf, h.refcnt_eq (h.inUse hr)]
    exact Nat.add_pos_left hcount _
  have hstep : w.step (.call r.pid (.release n)) = some (w.put n (w.bufs n).release) := by
    have hrun : (blockRelease (asPid r.pid false) n).run w = .ok () (w.put n (w.bufs n).release) :=
      blockRelease_held hlocked
    rw [World.step, World.blockCall, hrun]
    rfl
  refine follows_of_step hstep rfl (h.advance hr (.inl hheld) ⟨rfl, rfl⟩ rfl ?_ (fun _ => rfl)
    (.of_unheld rfl) rfl h.disk (hm.release hcalm hpos))
  rw [hst, (h.suits r hr).owner hheld]
  rfl

/-- It drops the reference. -/
theorem drops (h : Layered devOf s w) (hr : r ∈ s.refs) (hst : r.stage = .unlocked) :
    Layered devOf { s with cache := bufDrop s.cache r.buf, refs := s.refs.erase r } w := by
  have hm := h.mirrors hr
  rw [hst] at hm
  refine h.change (h.keys.step (.dropped r hr)) (h.locks.dropped hr hst)
    (CacheState.bufDrop_bufs s.cache r.buf |> funext) (Function.update_eq_self _ _).symm h.disk
    (fun j hj => stagesAt_erase_of_ne hr hj.symm) (fun q hq hbuf => ?_)
    (fun q hq _ => List.mem_of_mem_erase hq) (fun _ => h.known r.buf (h.inUse hr)) (h.free r.buf)
    (h.others (h.inUse hr)) (fun _ hne => absurd rfl hne) hm.drop
  have hf := h.suits q (List.mem_of_mem_erase hq)
  rw [CacheState.bufOf, hbuf] at hf
  exact ⟨hf.owner, hf.holding, hf.reading⟩

/-- `buf_pin` and `buf_unpin` change a counter. -/
theorem counts (h : Layered devOf s w) {i : Fin nbuf} (hi : ¬ (s.cache.bufs i).Unused) {n : Nat}
    {pins : Fin nbuf → Nat} {c : CachedBlock}
    (hend : CacheState.StepEnd s { s with
      cache := s.cache.set i { s.cache.bufs i with refcnt := n }, pins := pins })
    (hw : w'.bufs = Function.update w.bufs (s.cache.bufs i).blockno c) (hdisk : w'.disk = w.disk)
    (hm : Mirrors { s.cache.bufs i with refcnt := n } (stagesAt s.refs i) c) :
    Layered devOf { s with
      cache := s.cache.set i { s.cache.bufs i with refcnt := n }, pins := pins } w' := by
  refine h.change (h.keys.step hend)
    (h.locks.congr (CacheState.lock_set _ (by rfl)) fun _ => rfl) rfl hw (hdisk.trans h.disk)
    (fun _ _ => .refl _) (fun q hq hbuf => ?_) (fun _ hq _ => hq) (fun _ => h.known i hi) (h.free i)
    (h.others hi) (fun _ hne => absurd rfl hne) hm
  have hf := h.suits q hq
  rw [CacheState.bufOf, hbuf] at hf
  exact ⟨hf.owner, hf.holding, hf.reading⟩

/-- What a process that holds a buffer finds in it. -/
theorem held (h : Layered devOf s w) (hr : r ∈ s.refs)
    (hst : r.stage = .holding ∨ r.stage = .writing) :
    (w.bufs (s.bufOf r).blockno).valid = true ∧
      (w.bufs (s.bufOf r).blockno).data = (s.bufOf r).data ∧
      (w.bufs (s.bufOf r).blockno).lock = ⟨true, r.pid⟩ := by
  have hheld : r.stage.holdsLock = true := by rcases hst with hst | hst <;> rw [hst] <;> rfl
  have hm := h.mirrors hr
  have hvalid : (w.bufs (s.bufOf r).blockno).valid = true := by
    rw [hm.valid_cons (h.calm hr (.inl hheld))]
    rcases hst with hst | hst
    · rw [(h.suits r hr).holding hst]
      rfl
    · rw [hst]
      exact Bool.or_true _
  refine ⟨hvalid, hm.data hvalid, h.locked hr hheld ?_⟩
  rcases hst with hst | hst <;> rw [hst] <;> rfl

/-- `block_read` finds the buffer valid. -/
theorem hits (h : Layered devOf s w) (hr : r ∈ s.refs) (hst : r.stage = .locked)
    (hvalid : (s.bufOf r).valid = true) :
    Follows devOf (s.advance r .holding (s.bufOf r)) w
      (some (.read r.pid (s.bufOf r).blockno (s.bufOf r).data)) := by
  have hm := h.mirrors hr
  refine h.loaded hr (by rw [hst]; rfl) ⟨rfl, rfl⟩ rfl rfl hvalid ?_
  have hv := hm.valid_cons (h.calm hr (.inl (by rw [hst]; rfl)))
  rw [hvalid, Bool.true_or] at hv
  rw [World.view, if_pos hv, hm.data hv]

/-- The disk has answered a read. -/
theorem hasRead (h : Layered devOf s w) (hr : r ∈ s.refs) (hst : r.stage = .reading) :
    Follows devOf (s.advance r .holding { virtioDiskIntr (s.bufOf r) with
        data := s.disk (virtioDiskIntr (s.bufOf r)).blockno }) w
      (some (.read r.pid (s.bufOf r).blockno (s.disk (s.bufOf r).blockno))) := by
  have hm := h.mirrors hr
  refine h.loaded hr (by rw [hst]; rfl) ⟨rfl, rfl⟩ rfl rfl (virtioDiskIntr_valid _) ?_
  have hv := hm.valid_cons (h.calm hr (.inl (by rw [hst]; rfl)))
  rw [(h.suits r hr).reading hst, hst] at hv
  rw [World.view, if_neg (by rw [hv]; decide), h.disk]
  rfl

/-- `block_write` asks the disk. -/
theorem writes (h : Layered devOf s w) (hr : r ∈ s.refs) (hst : r.stage = .holding) {b : Buf}
    (hb : Lithium.blockWrite (s.bufOf r) (some r.pid) = some b) :
    Layered devOf (s.advance r .writing b) w := by
  rw [Lithium.blockWrite, Option.ite_none_right_eq_some, Option.some.injEq] at hb
  obtain ⟨-, rfl⟩ := hb
  obtain ⟨hvalid, hdata, -⟩ := h.held hr (.inl hst)
  exact h.changed hr (.inl hst) (.inr rfl) ⟨rfl, rfl⟩ ⟨rfl, rfl⟩ ⟨rfl, rfl⟩
    ⟨hvalid, .inr rfl, fun e => Stage.noConfusion e⟩ hdata
    (Function.update_eq_self _ _).symm h.disk

/-- **The disk has answered a write.** -/
theorem hasWritten (h : Layered devOf s w) (hr : r ∈ s.refs) (hst : r.stage = .writing) :
    Follows devOf { s.advance r .holding (virtioDiskIntr (s.bufOf r)) with
        disk := Function.update s.disk (virtioDiskIntr (s.bufOf r)).blockno
          (virtioDiskIntr (s.bufOf r)).data } w
      (some (.written r.pid (s.bufOf r).blockno (s.bufOf r).data)) := by
  obtain ⟨hvalid, hdata, hlock⟩ := h.held hr (.inr hst)
  have hstep : w.step (.call r.pid (.write (s.bufOf r).blockno)) =
      some (w.stored (s.bufOf r).blockno (w.bufs (s.bufOf r).blockno).data) := by
    have hrun : (Wal.blockWrite (asPid r.pid false) (s.bufOf r).blockno).run w =
        .ok () (w.stored (s.bufOf r).blockno (w.bufs (s.bufOf r).blockno).data) :=
      blockWrite_held hlock
    rw [World.step, World.blockCall, hrun]
    rfl
  have hv := virtioDiskIntr_valid (s.bufOf r)
  rw [← hdata]
  refine follows_of_step hstep rfl (h.changed hr (.inr hst) (.inl rfl) ⟨rfl, rfl⟩ ⟨rfl, rfl⟩
    ⟨rfl, rfl⟩ ⟨hvalid, .inl hv, fun _ => hv⟩ hdata (Function.update_eq_self _ _).symm ?_)
  rw [← h.disk, hdata]
  rfl

/-- **One section.** -/
theorem step (h : Layered devOf s w) {o : CacheOp} (ho : Regular devOf o)
    (hs : s.step o = some s') : Follows devOf s' w (s.event? o) := by
  cases CacheState.step_to hs with
  | got pid hget =>
    obtain ⟨hend, hkeyed⟩ := bufGet_spec h.keys.keyed hget
    obtain rfl : _ = devOf _ := ho
    obtain ⟨recycled, hnext⟩ := h.got pid hend hkeyed
    refine follows_of_step (o := .call pid (.get _ recycled)) rfl ?_ hnext
    rw [CacheState.event?, hget]
    rfl
  | missed pid hget =>
    obtain ⟨hend, -⟩ := bufGet_spec h.keys.keyed hget
    cases hend with
    | null =>
      refine ⟨w, h, ?_⟩
      rw [CacheState.event?, hget]
      exact .single (l := LayerOp.refuse pid _) rfl
  | locked r hr hst hlk => exact (h.takes hr hst hlk).quiet
  | hit r hr hst hvalid =>
    rw [CacheState.event?, if_pos hvalid]
    exact h.hits hr hst hvalid
  | readStarted r hr hst hvalid =>
    rw [CacheState.event?, if_neg hvalid]
    exact (h.asks hr hst hvalid).quiet
  | modified r data hr hst =>
    obtain ⟨hvalid, -, -⟩ := h.held hr (.inl hst)
    have hv := (h.suits r hr).holding hst
    exact follows_of_step (o := .call r.pid (.assign (s.bufOf r).blockno data)) rfl rfl
      (h.changed (c := (w.bufs (s.bufOf r).blockno).assign data) hr (.inl hst) (.inl rfl)
        ⟨rfl, rfl⟩ ⟨rfl, rfl⟩ ⟨rfl, rfl⟩ ⟨hvalid, .inl hv, fun _ => hv⟩ rfl rfl h.disk)
  | writeStarted r hr hst hb => exact (h.writes hr hst hb).quiet
  | notWritten r hr hst => exact h.quiet
  | readDone r status hr hst =>
    obtain rfl : status = 0 := ho
    rw [CacheState.event?, if_pos hst, if_pos rfl]
    exact h.hasRead hr hst
  | writeDone r status hr hst =>
    obtain rfl : status = 0 := ho
    have hread : ¬ r.stage = .reading := by rw [hst]; decide
    rw [CacheState.event?, if_neg hread, if_pos rfl]
    exact h.hasWritten hr hst
  | unlocked r hr hst hheld =>
    rw [CacheState.event?, if_pos hheld]
    exact h.releases hr hst
  | notUnlocked r hr hst =>
    have hheld : sleeplockHeld (s.bufOf r).lock (some r.pid) = true := by
      rw [(h.suits r hr).owner (by rw [hst]; rfl)]
      simp [sleeplockHeld]
    rw [CacheState.step, if_pos ⟨hr, hst⟩, if_pos hheld, Option.some.injEq] at hs
    have hnext := h.releases hr hst
    rw [hs] at hnext
    rw [CacheState.event?, if_pos hheld]
    exact hnext
  | dropped r hr hst => exact (h.drops hr hst).quiet
  | pinned r hr hst =>
    exact follows_of_step (o := .pin (s.bufOf r).blockno) rfl rfl
      (h.counts (h.inUse hr) (.pinned r hr) rfl rfl (h.used r.buf (h.inUse hr)).pin)
  | unpinned i hi =>
    have huse : ¬ (s.cache.bufs i).Unused := fun hu => by
      have hc := h.keys.counted i
      rw [hu.1] at hc
      omega
    refine follows_of_step (o := .call 0 (.unpin (s.cache.bufs i).blockno)) rfl rfl
      (h.counts huse (.unpinned i hi) rfl rfl ((h.used i huse).unpin ?_))
    rw [h.refcnt_eq huse]
    exact Nat.add_pos_right _ hi

end Layered

/-! ## 8. Every run -/

/-- **The cache is the block layer that the log and the inodes rely on.**  In every run, by any
number of processes, that uses each block under one device number, the callers see what they would
see of the `World`, in a run of it over the same disk. -/
theorem cache_refines_layer (devOf : BlockNo → BitVec 32) (disk : Disk) (os : List CacheOp)
    (hos : ∀ o ∈ os, Regular devOf o) {s : CacheState}
    (hs : Transition.run CacheState.step (.init disk) os = some s) :
    ∃ w, Layered devOf s w ∧ Transition.Shows World.step World.event? (World.boot disk) w
      (Transition.trace CacheState.step CacheState.event? (.init disk) os) :=
  Transition.shows_of_simulation (R := Layered devOf) (C := Regular devOf)
    (fun _ _ _ _ h ho hstep => h.step ho hstep) os (.init devOf disk) hos hs

/-- A process reads block 5 into the first buffer, fills it and writes it; another one, which has
asked for it meanwhile, reads it after the first has released it. -/
def handOver : List CacheOp :=
  Observed.readBlock 0 0 ++ [.bufGet 2 0 5] ++ Observed.fillBlock 0 ++
    [.lock ⟨2, 0, .waiting⟩, .blockRead ⟨2, 0, .locked⟩]

theorem cache_refines_layer_handOver : ∃ s w,
    Transition.run CacheState.step (.init fun _ _ => 0) handOver = some s ∧
      Layered (fun _ => 0) s w ∧
      Transition.Shows World.step World.event? (World.boot fun _ _ => 0) w
        (Transition.trace CacheState.step CacheState.event? (.init fun _ _ => 0) handOver) := by
  have hrun : (Transition.run CacheState.step (.init fun _ _ => 0) handOver).isSome = true := by
    decide +kernel
  obtain ⟨s, hs⟩ := Option.isSome_iff_exists.mp hrun
  obtain ⟨w, hlayered, hshows⟩ :=
    cache_refines_layer (fun _ => 0) (fun _ _ => 0) handOver (by decide) hs
  exact ⟨s, w, hs, hlayered, hshows⟩

end Lithium
