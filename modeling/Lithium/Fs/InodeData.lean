/-
# Reading and writing files

`inode_read` and `inode_write` of `inode.c`: the loops that go through a range of a file block by
block.  They take the block from `ip->addrs[off / BSIZE]`; the range checks admit files of
`MAXFILE` blocks, but beyond the `NDIRECT` direct ones that entry is the indirect block, and then
there is none.  The buffers of the file are free when the call starts: one that somebody else holds
only makes it wait.
-/
import Lithium.Fs.Inode
import Lithium.Fs.Block
import Lithium.Lib.Extents

namespace Lithium.Wal

/-! ## 1. The code -/

/-- `NINDIRECT`. -/
def nindirect : Nat := bsize / 4

/-- `MAXFILE`. -/
def maxfile : Nat := ndirect + nindirect

/-- A pass of a loop: the bytes of the file from `off` on, and the block they are read from or
written to. -/
structure Pass where
  off : BitVec 32
  len : BitVec 32
  block : BlockNo

/-- The block layer and the log; and of a call of `inode_read` or `inode_write`, whether a
`log_write` has been refused, the passes, the last one first, and the bytes stored at `dst`. -/
structure FileState where
  world : World
  log : Log
  refused : Bool
  passes : List Pass
  dst : List (BitVec 8)

/-- A call: it changes the state, and may not return. -/
abbrev FileM := EStateM Halt FileState

/-- A call of the block layer. -/
def call {α : Type} (m : BlockM α) : FileM α := fun s =>
  match m.run s.world with
  | .ok a w => .ok a { s with world := w }
  | .error e w => .error e { s with world := w }

/-- `log_write`. -/
def logWrite (b : BlockNo) : FileM Unit := fun s =>
  let r := s.log.write b
  .ok () { s with
    log := r.1
    world := if r.2 = .recorded then s.world.put b (s.world.bufs b).pin else s.world
    refused := s.refused || !r.2.accepted }

/-- A call starts. -/
def FileState.fresh (s : FileState) : FileState :=
  { s with refused := false, passes := [], dst := [] }

/-- Forget the call before. -/
def startCall : FileM Unit := modify FileState.fresh

/-- Note a pass. -/
def notePass (a : Pass) : FileM Unit := modify fun s => { s with passes := a :: s.passes }

/-- `ip->addrs[i]`. -/
def addrAt (ip : Dinode) (i : Nat) : FileM BlockNo :=
  if h : i < ndirect + 1 then pure (ip.addrs ⟨i, h⟩) else throw .outOfBounds

/-- `m`, the number of bytes of a pass. -/
def passLen (n tot off : BitVec 32) : BitVec 32 :=
  let m := BitVec.ofNat 32 bsize - off % BitVec.ofNat 32 bsize
  if n - tot < m then n - tot else m

/-- The loop, with what is done to the block; the result is `tot` and `off`.  A pass advances by a
byte at least, so `n` passes are enough. -/
def fileLoop (env : Env) (ip : Dinode) (n : BitVec 32)
    (copy : BlockNo → BitVec 32 → BitVec 32 → BitVec 32 → FileM Unit) :
    Nat → BitVec 32 → BitVec 32 → FileM (BitVec 32 × BitVec 32)
  | 0, tot, off => pure (tot, off)
  | fuel + 1, tot, off =>
    if tot < n then do
      let addr ← addrAt ip (off.toNat / bsize)
      if addr = 0 then pure (tot, off)
      else
        match ← call (blockRead env addr) with
        | none => pure (tot, off)
        | some bp =>
          let m := passLen n tot off
          notePass ⟨off, m, bp⟩
          copy bp tot off m
          call (blockRelease env bp)
          fileLoop env ip n copy fuel (tot + m) (off + m)
    else pure (tot, off)

/-- `m` bytes of the block, from `off % BSIZE` on, go to `dst`. -/
def copyOut (bp : BlockNo) (_ off m : BitVec 32) : FileM Unit := do
  let data ← call (getData bp)
  modify fun s => { s with
    dst := s.dst ++ (List.range m.toNat).map fun i =>
      data.byte (off.toNat % bsize + i) }

/-- The block with `len` bytes of `src` from `start` on. -/
def Block.splice (data : Block) (start len : Nat) (src : Nat → BitVec 8) : Block := fun j =>
  if start ≤ j.val ∧ j.val < start + len then src (j.val - start) else data j

/-- `m` bytes from `src + tot` go to the block, from `off % BSIZE` on. -/
def copyIn (src : Nat → BitVec 8) (bp : BlockNo) (tot off m : BitVec 32) : FileM Unit := do
  let data ← call (getData bp)
  call (setData bp (Block.splice data (off.toNat % bsize) m.toNat fun i => src (tot.toNat + i)))
  logWrite bp

/-- `inode_update`. -/
def inodeUpdate (env : Env) (sb : Superblock) (inum : BitVec 32) (ip : Dinode) : FileM Unit := do
  match ← call (blockRead env (iblock inum sb)) with
  | none => pure ()
  | some bp =>
    let data ← call (getData bp)
    call (setData bp (Block.setDinode data (inodeSlot inum) ip))
    logWrite bp
    call (blockRelease env bp)

/-- The first test of `inode_read` and of `inode_write`. -/
def rangeOk (ip : Dinode) (off n : BitVec 32) : Bool := !(ip.size < off || off + n < off)

/-- The second test of `inode_read`. -/
def clip (ip : Dinode) (off n : BitVec 32) : BitVec 32 :=
  if ip.size < off + n then ip.size - off else n

/-- `inode_read`. -/
def inodeRead (env : Env) (ip : Dinode) (off n : BitVec 32) : FileM (BitVec 32) := do
  startCall
  if rangeOk ip off n then
    let n := clip ip off n
    let r ← fileLoop env ip n copyOut n.toNat 0 off
    pure r.1
  else pure (-1)

/-- The second test of `inode_write`. -/
def fits (off n : BitVec 32) : Bool := (off + n).toNat ≤ maxfile * bsize

/-- `ip->size` after the loop of `inode_write`, which ends at `off`. -/
def grown (ip : Dinode) (off : BitVec 32) : Dinode :=
  if ip.size < off then { ip with size := off } else ip

/-- `inode_write`; the inode in memory is part of the result. -/
def inodeWrite (env : Env) (sb : Superblock) (inum : BitVec 32) (ip : Dinode)
    (src : Nat → BitVec 8) (off n : BitVec 32) : FileM (BitVec 32 × Dinode) := do
  startCall
  if rangeOk ip off n && fits off n then
    let r ← fileLoop env ip n (copyIn src) n.toNat 0 off
    let ip := grown ip r.2
    inodeUpdate env sb inum ip
    pure (r.1, ip)
  else pure (-1, ip)

/-! ## 2. The property -/

/-- The state a call leaves behind, whether it returned or not. -/
def finalState {α : Type} : EStateM.Result Halt FileState α → FileState
  | .ok _ s => s
  | .error _ s => s

/-- Block `i` of the file, or the indirect block. -/
def blockOf (ip : Dinode) (i : Nat) : BlockNo := ip.addr i

/-- The bytes of a pass belong to its block; `table` is the indirect block. -/
def Pass.Right (ip : Dinode) (table : Block) (a : Pass) : Prop :=
  ∀ o, a.off.toNat ≤ o → o < a.off.toNat + a.len.toNat →
    (o / bsize < ndirect → a.block = blockOf ip (o / bsize)) ∧
      (ndirect ≤ o / bsize →
        a.block = table.word (o / bsize - ndirect) ∧ a.block ≠ ip.addrs (Fin.last ndirect))

/-- A call stays within `ip->addrs`, and takes every byte from the block it belongs to, or puts it
there. -/
structure MapsOffsets {α : Type} (ip : Dinode) (table : Block)
    (r : EStateM.Result Halt FileState α) : Prop where
  inBounds : ∀ s, r ≠ .error .outOfBounds s
  right : ∀ a ∈ (finalState r).passes, a.Right ip table

/-- The loop ends at block `i` of the file, where it comes after `j` passes: there is no address, or
`block_read` returns `NULL`. -/
def Stops (env : Env) (ip : Dinode) (w : World) (j i : Nat) : Prop :=
  blockOf ip i = 0 ∨ env.null (w.reads + j) = true

/-- Nobody has a buffer of the file. -/
def BlocksFree (ip : Dinode) (w : World) : Prop := ∀ i ≤ ndirect, w.FreeAt (blockOf ip i)

/-- The condition: the range is empty, or lies in the direct blocks, or the loop stops before it
uses the indirect block as one. -/
def StaysDirect (env : Env) (ip : Dinode) (w : World) (off n : Nat) : Prop :=
  n = 0 ∨ off + n ≤ ndirect * bsize ∨
    ∃ i, off / bsize ≤ i ∧ i ≤ ndirect ∧ Stops env ip w (i - off / bsize) i

/-! ## 3. Single calls -/

section Calls

variable {α β : Type} {env : Env} {ip : Dinode} {s s' : FileState} {table : Block}

theorem call_ok {m : BlockM α} {w : World} {a : α} (h : m.run s.world = .ok a w) :
    (call m).run s = .ok a { s with world := w } := by
  rw [EStateM.run, call, h]

theorem call_error {m : BlockM α} {w : World} {e : Halt} (h : m.run s.world = .error e w) :
    (call m).run s = .error e { s with world := w } := by
  rw [EStateM.run, call, h]

/-- **`block_read`**, whoever has the buffer. -/
theorem blockRead_cases (env : Env) (w : World) (b : BlockNo) :
    (env.null w.reads = true ∧ (blockRead env b).run w = .ok none (w.tick 1)) ∨
    (env.null w.reads = false ∧ (w.bufs b).lock.locked = true ∧
      (blockRead env b).run w = .error .asleep ((w.tick 1).put b (w.bufs b).pin)) ∨
    (env.null w.reads = false ∧ (w.bufs b).lock.locked = false ∧ ∃ c : CachedBlock,
      c.lock = env.lock ∧ (blockRead env b).run w = .ok (some b) ((w.tick 1).put b c)) := by
  cases hnull : env.null w.reads with
  | true => exact .inl ⟨rfl, blockRead_null b hnull⟩
  | false =>
    refine .inr ?_
    cases hlock : (w.bufs b).lock.locked with
    | true => exact .inl ⟨rfl, rfl, blockRead_held hnull hlock⟩
    | false =>
      refine .inr ⟨rfl, rfl, ?_⟩
      have hacquire : sleeplockAcquire (w.bufs b).lock (some env.pid) = some env.lock := by
        rw [sleeplockAcquire, if_neg (by rw [hlock]; exact Bool.false_ne_true)]
        rfl
      refine ⟨{ valid := true
                data := if (w.bufs b).valid && ((w.bufs b).refcnt != 0 || !env.recycled w.reads)
                  then (w.bufs b).data else w.disk b
                refcnt := (w.bufs b).refcnt + 1
                lock := env.lock }, rfl, ?_⟩
      simp only [EStateM.run, blockRead, hnull, Bool.false_eq_true, if_false, tick_bufs, tick_disk,
        hacquire]
      congr 3

/-- The step touches no sleeplock, makes no call of `block_read` and notes no pass. -/
def Steady (m : FileM Unit) : Prop :=
  ∀ s, ∃ s', m.run s = .ok () s' ∧ s'.world.reads = s.world.reads ∧
    (∀ b, (s'.world.bufs b).lock = (s.world.bufs b).lock) ∧ s'.passes = s.passes ∧
    (s.refused = true → s'.refused = true)

theorem Steady.bind {m m' : FileM Unit} (h : Steady m) (h' : Steady m') :
    Steady (m >>= fun _ => m') := by
  intro s
  obtain ⟨s₁, hrun, hreads, hlock, hpasses, hrefused⟩ := h s
  obtain ⟨s₂, hrun', hreads', hlock', hpasses', hrefused'⟩ := h' s₁
  exact ⟨s₂, (bind_ok hrun).trans hrun', hreads'.trans hreads, fun b => (hlock' b).trans (hlock b),
    hpasses'.trans hpasses, fun hs => hrefused' (hrefused hs)⟩

/-- Another buffer in place of `b`, with the sleeplock as it was. -/
theorem put_lock (w : World) (b : BlockNo) {c : CachedBlock} (h : c.lock = (w.bufs b).lock)
    (b' : BlockNo) : ((w.put b c).bufs b').lock = (w.bufs b').lock := by
  by_cases hb : b' = b
  · rw [hb, put_self, h]
  · rw [put_of_ne w hb]

theorem setData_steady (b : BlockNo) (data : Block) : Steady (call (setData b data)) :=
  fun s => ⟨_, call_ok (setData_run b data s.world), rfl, put_lock s.world b rfl, rfl, id⟩

theorem logWrite_steady (b : BlockNo) : Steady (logWrite b) := by
  intro s
  refine ⟨_, rfl, ?_, fun b' => ?_, rfl, fun hs => ?_⟩
  · by_cases h : (s.log.write b).2 = .recorded
    · simp only [if_pos h, put_reads]
    · simp only [if_neg h]
  · by_cases h : (s.log.write b).2 = .recorded
    · simp only [if_pos h]
      exact put_lock s.world b (c := (s.world.bufs b).pin) rfl b'
    · simp only [if_neg h]
  · dsimp only
    rw [hs, Bool.true_or]

theorem getData_bind (b : BlockNo) (f : Block → FileM β) (s : FileState) :
    (call (getData b) >>= f).run s = (f (s.world.bufs b).data).run s :=
  bind_ok (call_ok (getData_run b s.world))

theorem copyOut_steady (bp : BlockNo) (tot off m : BitVec 32) : Steady (copyOut bp tot off m) := by
  intro s
  rw [copyOut, getData_bind]
  exact ⟨_, rfl, rfl, fun _ => rfl, rfl, id⟩

theorem copyIn_steady (src : Nat → BitVec 8) (bp : BlockNo) (tot off m : BitVec 32) :
    Steady (copyIn src bp tot off m) := by
  intro s
  rw [copyIn, getData_bind]
  exact (setData_steady bp _).bind (logWrite_steady bp) s

/-- What is called after the loop does not matter, if it stays in bounds and makes no passes. -/
theorem mapsOffsets_bind {m : FileM α} {f : α → FileM β}
    (hf : ∀ a s, (∀ s', (f a).run s ≠ .error .outOfBounds s') ∧
      (finalState ((f a).run s)).passes = s.passes) :
    MapsOffsets ip table ((m >>= f).run s) ↔ MapsOffsets ip table (m.run s) := by
  cases hm : m.run s with
  | error e s' =>
    rw [bind_error hm]
    exact ⟨fun h => ⟨fun t ht => h.inBounds t (by cases ht; rfl), h.right⟩,
      fun h => ⟨fun t ht => h.inBounds t (by cases ht; rfl), h.right⟩⟩
  | ok a s' =>
    rw [bind_ok hm]
    obtain ⟨hbounds, hpasses⟩ := hf a s'
    constructor
    · intro h
      refine ⟨fun t ht => (by cases ht), fun x hx => h.right x ?_⟩
      rw [hpasses]
      exact hx
    · intro h
      refine ⟨hbounds, fun x hx => h.right x ?_⟩
      rw [hpasses] at hx
      exact hx

/-- `inode_update`, when it has got the buffer. -/
theorem inodeUpdate_returns (sb : Superblock) (inum : BitVec 32) (ip : Dinode)
    (hnull : env.null s.world.reads = false)
    (hfree : (s.world.bufs (iblock inum sb)).lock.locked = false) :
    ∃ s', (inodeUpdate env sb inum ip).run s = .ok () s' ∧ s'.passes = s.passes ∧
      (s.refused = true → s'.refused = true) := by
  rcases blockRead_cases env s.world (iblock inum sb) with
    ⟨hnull', -⟩ | ⟨-, hlocked, -⟩ | ⟨-, -, c, hc, hread⟩
  · rw [hnull] at hnull'
    cases hnull'
  · rw [hfree] at hlocked
    cases hlocked
  · rw [inodeUpdate, bind_ok (call_ok hread)]
    dsimp only
    rw [getData_bind]
    obtain ⟨s₁, hset, -, hlock₁, hpasses₁, hrefused₁⟩ := setData_steady (iblock inum sb)
      (Block.setDinode c.data (inodeSlot inum) ip)
      { s with world := (s.world.tick 1).put (iblock inum sb) c }
    obtain ⟨s₂, hlog, -, hlock₂, hpasses₂, hrefused₂⟩ := logWrite_steady (iblock inum sb) s₁
    have hheld : (s₂.world.bufs (iblock inum sb)).lock = env.lock := by
      rw [hlock₂, hlock₁, put_self, hc]
    rw [put_self, bind_ok hset, bind_ok hlog, call_ok (blockRelease_held hheld)]
    exact ⟨_, rfl, hpasses₂.trans hpasses₁, fun hs => hrefused₂ (hrefused₁ hs)⟩

/-- `inode_update` makes no passes. -/
theorem inodeUpdate_passes (env : Env) (sb : Superblock) (inum : BitVec 32) (ip : Dinode)
    (s : FileState) : (∀ s', (inodeUpdate env sb inum ip).run s ≠ .error .outOfBounds s') ∧
      (finalState ((inodeUpdate env sb inum ip).run s)).passes = s.passes := by
  rcases blockRead_cases env s.world (iblock inum sb) with
    ⟨-, hread⟩ | ⟨-, -, hread⟩ | ⟨hnull, hfree, -⟩
  · rw [inodeUpdate, bind_ok (call_ok hread)]
    exact ⟨fun s' h => (by cases h), rfl⟩
  · rw [inodeUpdate, bind_error (call_error hread)]
    exact ⟨fun s' h => (by cases h), rfl⟩
  · obtain ⟨s', hrun, hpasses, -⟩ := inodeUpdate_returns sb inum ip hnull hfree
    rw [hrun]
    exact ⟨fun t h => (by cases h), hpasses⟩

/-! ## 4. The passes of the loop -/

/-- **The length of a pass**: to the end of the block or of the range. -/
theorem passLen_toNat {n tot : BitVec 32} (off : BitVec 32) (h : tot < n) :
    (passLen n tot off).toNat = min (bsize - off.toNat % bsize) (n.toNat - tot.toNat) := by
  have hn := n.isLt
  have hlt : tot.toNat < n.toNat := h
  have hmod : off.toNat % 512 < 512 := Nat.mod_lt _ (by omega)
  have hrest : (n - tot).toNat = n.toNat - tot.toNat := BitVec.toNat_sub_of_le (Nat.le_of_lt hlt)
  have hblock : (BitVec.ofNat 32 bsize - off % BitVec.ofNat 32 bsize).toNat
      = 512 - off.toNat % 512 := by
    have hb : (BitVec.ofNat 32 bsize).toNat = 512 := rfl
    rw [BitVec.toNat_sub_of_le, BitVec.toNat_umod, hb]
    rw [BitVec.le_def, BitVec.toNat_umod, hb]
    omega
  rw [passLen]
  simp only [BitVec.lt_def, hrest, hblock]
  split
  · rw [hrest]
    simp only [bsize]
    omega
  · rw [hblock]
    simp only [bsize]
    omega

/-- What a pass does to `tot` and `off`, which do not wrap around. -/
theorem pass_advance {n tot : BitVec 32} (off : BitVec 32) (h : tot < n)
    (hend : off.toNat + (n.toNat - tot.toNat) < 2 ^ 32) :
    0 < (passLen n tot off).toNat ∧
    (tot + passLen n tot off).toNat = tot.toNat + (passLen n tot off).toNat ∧
    (off + passLen n tot off).toNat = off.toNat + (passLen n tot off).toNat := by
  have hn := n.isLt
  have hlt : tot.toNat < n.toNat := h
  have hmod : off.toNat % bsize < bsize := Nat.mod_lt _ (by decide)
  have hlen := passLen_toNat off h
  refine ⟨by omega, ?_, ?_⟩
  · rw [BitVec.toNat_add]
    omega
  · rw [BitVec.toNat_add]
    omega

/-- `ip->addrs[i]`, for an index the array has. -/
theorem addrAt_eq (ip : Dinode) {i : Nat} (h : i ≤ ndirect) :
    addrAt ip i = pure (blockOf ip i) := by
  rw [addrAt, dif_pos (Nat.lt_succ_of_le h)]
  have hval : (⟨i, Nat.lt_succ_of_le h⟩ : Fin (ndirect + 1)) = Fin.ofNat (ndirect + 1) i :=
    Fin.ext (Nat.mod_eq_of_lt (Nat.lt_succ_of_le h)).symm
  rw [hval, blockOf, Dinode.addr]

variable {n tot off : BitVec 32} {fuel : Nat}
  {copy : BlockNo → BitVec 32 → BitVec 32 → BitVec 32 → FileM Unit}

/-- The loop is at its end. -/
theorem fileLoop_done (h : ¬ tot < n) :
    (fileLoop env ip n copy fuel tot off).run s = .ok (tot, off) s := by
  cases fuel with
  | zero => rfl
  | succ fuel =>
    rw [fileLoop, if_neg h]
    rfl

/-- There is no such entry. -/
theorem fileLoop_out (h : tot < n) (hi : ndirect < off.toNat / bsize) :
    (fileLoop env ip n copy (fuel + 1) tot off).run s = .error .outOfBounds s := by
  rw [fileLoop, if_pos h, addrAt, dif_neg (by omega)]
  rfl

/-- The loop stops. -/
theorem fileLoop_stop (fuel : Nat)
    (copy : BlockNo → BitVec 32 → BitVec 32 → BitVec 32 → FileM Unit) (h : tot < n)
    (hi : off.toNat / bsize ≤ ndirect)
    (hstop : Stops env ip s.world 0 (off.toNat / bsize)) :
    ∃ s', (fileLoop env ip n copy (fuel + 1) tot off).run s = .ok (tot, off) s' ∧
      s'.passes = s.passes := by
  rw [fileLoop, if_pos h, addrAt_eq ip hi, pure_bind]
  by_cases hzero : blockOf ip (off.toNat / bsize) = 0
  · rw [if_pos hzero]
    exact ⟨s, rfl, rfl⟩
  · have hnull : env.null s.world.reads = true := hstop.resolve_left hzero
    rw [if_neg hzero, bind_ok (call_ok (blockRead_null _ hnull))]
    exact ⟨_, rfl, rfl⟩

/-- **A pass of the loop.** -/
theorem fileLoop_pass (fuel : Nat) (hcopy : ∀ bp tot off m, Steady (copy bp tot off m))
    (h : tot < n) (hi : off.toNat / bsize ≤ ndirect)
    (hgo : ¬ Stops env ip s.world 0 (off.toNat / bsize))
    (hfree : s.world.FreeAt (blockOf ip (off.toNat / bsize))) :
    ∃ s', (fileLoop env ip n copy (fuel + 1) tot off).run s
        = (fileLoop env ip n copy fuel (tot + passLen n tot off) (off + passLen n tot off)).run s' ∧
      s'.world.reads = s.world.reads + 1 ∧
      (∀ b, (s'.world.bufs b).lock.locked = (s.world.bufs b).lock.locked) ∧
      s'.passes = ⟨off, passLen n tot off, blockOf ip (off.toNat / bsize)⟩ :: s.passes ∧
      (s.refused = true → s'.refused = true) := by
  simp only [Stops, not_or, Nat.add_zero, Bool.not_eq_true] at hgo
  obtain ⟨hne, hnull⟩ := hgo
  rw [World.FreeAt] at hfree
  rw [fileLoop, if_pos h, addrAt_eq ip hi, pure_bind, if_neg hne]
  generalize blockOf ip (off.toNat / bsize) = addr at hfree ⊢
  rcases blockRead_cases env s.world addr with ⟨hnull', -⟩ | ⟨-, hlocked, -⟩ | ⟨-, -, c, hc, hread⟩
  · rw [hnull] at hnull'
    cases hnull'
  · rw [hfree] at hlocked
    cases hlocked
  · rw [bind_ok (call_ok hread)]
    dsimp only
    rw [bind_ok (m := notePass _) rfl]
    obtain ⟨s₁, hrun, hreads, hlock, hpasses, hrefused⟩ := hcopy addr tot off (passLen n tot off)
      { s with
        world := (s.world.tick 1).put addr c
        passes := ⟨off, passLen n tot off, addr⟩ :: s.passes }
    have hheld : (s₁.world.bufs addr).lock = env.lock := by
      rw [hlock, put_self, hc]
    rw [bind_ok hrun, bind_ok (call_ok (blockRelease_held hheld))]
    refine ⟨_, rfl, hreads, fun b => ?_, hpasses, hrefused⟩
    by_cases hb : b = addr
    · rw [hb, put_self, hfree]
      rfl
    · rw [put_of_ne _ hb, hlock, put_of_ne _ hb, tick_bufs]

/-- What is not locked stays free. -/
theorem BlocksFree.keep {w w' : World} (h : BlocksFree ip w)
    (hlock : ∀ b, (w'.bufs b).lock.locked = (w.bufs b).lock.locked) : BlocksFree ip w' :=
  fun i hi => (hlock _).trans (h i hi)

/-- The passes that are noted stay noted. -/
theorem mem_passes (hcopy : ∀ bp tot off m, Steady (copy bp tot off m)) {a : Pass} :
    ∀ (fuel : Nat) (tot off : BitVec 32) {s : FileState}, BlocksFree ip s.world → a ∈ s.passes →
      a ∈ (finalState ((fileLoop env ip n copy fuel tot off).run s)).passes
  | 0, _, _, _, _, ha => ha
  | fuel + 1, tot, off, s, hfree, ha => by
    by_cases h : tot < n
    · by_cases hi : off.toNat / bsize ≤ ndirect
      · by_cases hstop : Stops env ip s.world 0 (off.toNat / bsize)
        · obtain ⟨s', hrun, hpasses⟩ := fileLoop_stop fuel copy h hi hstop
          rw [hrun]
          exact hpasses ▸ ha
        · obtain ⟨s', hrun, -, hlock, hpasses, -⟩ :=
            fileLoop_pass fuel hcopy h hi hstop (hfree _ hi)
          rw [hrun]
          refine mem_passes hcopy fuel _ _ (hfree.keep hlock) ?_
          rw [hpasses]
          exact List.mem_cons_of_mem _ ha
      · rw [fileLoop_out h (by omega)]
        exact ha
    · rw [fileLoop_done h]
      exact ha

/-! ## 5. Which calls take the right blocks -/

/-- A pass over a direct block. -/
theorem pass_right (ip : Dinode) (table : Block) {off m : BitVec 32}
    (hi : off.toNat / bsize < ndirect) (hm : off.toNat % bsize + m.toNat ≤ bsize) :
    Pass.Right ip table
      ⟨off, m, blockOf ip (off.toNat / bsize)⟩ := by
  intro o hlo hhi
  obtain ⟨hsame, -⟩ := (Extents.piece_iff hm).mpr ⟨hlo, hhi⟩
  rw [hsame]
  exact ⟨fun _ => rfl, fun hge => absurd hi (by omega)⟩

/-- A pass over the indirect block. -/
theorem pass_not_right (ip : Dinode) (table : Block) {off m : BitVec 32}
    (hi : off.toNat / bsize = ndirect) (hm : 0 < m.toNat) :
    ¬ Pass.Right ip table
      ⟨off, m, blockOf ip (off.toNat / bsize)⟩ := by
  intro h
  obtain ⟨-, hindirect⟩ := h off.toNat (Nat.le_refl _) (Nat.lt_add_of_pos_right hm)
  refine (hindirect (Nat.le_of_eq hi.symm)).2 ?_
  rw [hi]
  rfl

/-- The condition after a pass over a direct block. -/
theorem staysDirect_pass {w w' : World} {o rest m : Nat} (hrest : 0 < rest)
    (hm : m = min (bsize - o % bsize) rest) (hi : o / bsize < ndirect)
    (hgo : ¬ Stops env ip w 0 (o / bsize)) (hreads : w'.reads = w.reads + 1) :
    StaysDirect env ip w o rest ↔ StaysDirect env ip w' (o + m) (rest - m) := by
  have hdiv := Nat.div_add_mod o bsize
  have hmod : o % bsize < bsize := Nat.mod_lt _ (by decide)
  have hfit : o / bsize + 1 ≤ ndirect := hi
  have hends : bsize * (o / bsize + 1) ≤ ndirect * bsize := by
    rw [Nat.mul_comm]
    exact Nat.mul_le_mul_right _ hfit
  rw [Nat.mul_add, Nat.mul_one] at hends
  by_cases hlast : m = rest
  · -- the range ends in this block
    refine iff_of_true (.inr (.inl (by omega))) (.inl (by omega))
  · have hnext : o + m = bsize * (o / bsize + 1) := by
      rw [Nat.mul_add, Nat.mul_one]
      omega
    have hindex : (o + m) / bsize = o / bsize + 1 := by
      rw [hnext, Nat.mul_div_cancel_left _ (by decide)]
    have hstops : ∀ i, o / bsize + 1 ≤ i →
        (Stops env ip w (i - o / bsize) i ↔ Stops env ip w' (i - (o / bsize + 1)) i) := by
      intro i hle
      have hcount : w'.reads + (i - (o / bsize + 1)) = w.reads + (i - o / bsize) := by omega
      simp only [Stops, hcount]
    constructor
    · rintro (hzero | hle | ⟨i, hlo, hhi, hstop⟩)
      · omega
      · exact .inr (.inl (by omega))
      · have hlt : o / bsize ≠ i := by
          rintro rfl
          rw [Nat.sub_self] at hstop
          exact hgo hstop
        have hle : o / bsize + 1 ≤ i := by omega
        refine .inr (.inr ⟨i, by omega, hhi, ?_⟩)
        rw [hindex]
        exact (hstops i hle).mp hstop
    · rintro (hzero | hle | ⟨i, hlo, hhi, hstop⟩)
      · omega
      · exact .inr (.inl (by omega))
      · rw [hindex] at hlo hstop
        exact .inr (.inr ⟨i, by omega, hhi, (hstops i hlo).mpr hstop⟩)

/-- It fails behind the last entry of `addrs`. -/
theorem not_staysDirect_out {w : World} {o rest : Nat} (hrest : 0 < rest)
    (hi : ndirect < o / bsize) : ¬ StaysDirect env ip w o rest := by
  rintro (hzero | hle | ⟨i, hlo, hhi, -⟩)
  · omega
  · have hdiv := Nat.div_le_div_right (c := bsize) (Nat.le_of_add_right_le hle)
    rw [Nat.mul_div_cancel _ (by decide : 0 < bsize)] at hdiv
    omega
  · omega

/-- It fails at the indirect block, unless the loop stops there. -/
theorem not_staysDirect_indirect {w : World} {o rest : Nat} (hrest : 0 < rest)
    (hi : o / bsize = ndirect) (hgo : ¬ Stops env ip w 0 (o / bsize)) :
    ¬ StaysDirect env ip w o rest := by
  rintro (hzero | hle | ⟨i, hlo, hhi, hstops⟩)
  · omega
  · have hdiv := Nat.div_mul_le_self o bsize
    rw [hi] at hdiv
    omega
  · obtain rfl : i = o / bsize := by omega
    rw [Nat.sub_self] at hstops
    exact hgo hstops

/-- **The loop.** -/
theorem fileLoop_maps (hcopy : ∀ bp tot off m, Steady (copy bp tot off m)) :
    ∀ (fuel : Nat) (tot off : BitVec 32) (s : FileState), n.toNat - tot.toNat ≤ fuel →
      off.toNat + (n.toNat - tot.toNat) < 2 ^ 32 → BlocksFree ip s.world →
      (∀ a ∈ s.passes, a.Right ip table) →
      (MapsOffsets ip table ((fileLoop env ip n copy fuel tot off).run s) ↔
        StaysDirect env ip s.world off.toNat (n.toNat - tot.toNat)) := by
  intro fuel
  induction fuel with
  | zero =>
    intro tot off s hfuel hend _ hright
    have hdone : ¬ tot < n := fun h => by
      have hlt : tot.toNat < n.toNat := h
      omega
    rw [fileLoop_done hdone]
    exact iff_of_true ⟨fun t h => (by cases h), hright⟩ (.inl (by omega))
  | succ fuel ih =>
    intro tot off s hfuel hend hfree hright
    by_cases h : tot < n
    case neg =>
      have hge : ¬ tot.toNat < n.toNat := h
      rw [fileLoop_done h]
      exact iff_of_true ⟨fun t h => (by cases h), hright⟩ (.inl (by omega))
    have hlt : tot.toNat < n.toNat := h
    by_cases hi : off.toNat / bsize ≤ ndirect
    case neg =>
      -- there is no such entry
      rw [fileLoop_out h (by omega)]
      exact iff_of_false (fun hmaps => hmaps.inBounds s rfl)
        (not_staysDirect_out (by omega) (by omega))
    by_cases hstop : Stops env ip s.world 0 (off.toNat / bsize)
    case pos =>
      have hstays : StaysDirect env ip s.world off.toNat (n.toNat - tot.toNat) :=
        .inr (.inr ⟨_, Nat.le_refl _, hi, by rwa [Nat.sub_self]⟩)
      obtain ⟨s', hrun, hpasses⟩ := fileLoop_stop fuel copy h hi hstop
      rw [hrun]
      refine iff_of_true ⟨fun t h => (by cases h), ?_⟩ hstays
      rw [finalState, hpasses]
      exact hright
    obtain ⟨hpos, htot, hoff⟩ := pass_advance off h hend
    have hlen := passLen_toNat off h
    obtain ⟨s', hrun, hreads, hlock, hpasses, -⟩ :=
      fileLoop_pass fuel hcopy h hi hstop (hfree _ hi)
    have hfree' := hfree.keep hlock
    rw [hrun]
    by_cases hdirect : off.toNat / bsize < ndirect
    case pos =>
      have hmod : off.toNat % bsize < bsize := Nat.mod_lt _ (by decide)
      rw [staysDirect_pass (by omega) hlen hdirect hstop hreads, ← hoff, Nat.sub_sub, ← htot]
      refine ih _ _ s' (by omega) (by omega) hfree' fun a ha => ?_
      rw [hpasses] at ha
      rcases List.mem_cons.mp ha with rfl | ha
      · exact pass_right ip table hdirect (by omega)
      · exact hright a ha
    case neg =>
      -- the indirect block is used as a block of the file
      have hindirect : off.toNat / bsize = ndirect := by omega
      have hnoted : ⟨off, passLen n tot off, blockOf ip (off.toNat / bsize)⟩ ∈ s'.passes := by
        rw [hpasses]
        exact List.mem_cons_self
      have hmem : _ ∈ (finalState ((fileLoop env ip n copy fuel (tot + passLen n tot off)
          (off + passLen n tot off)).run s')).passes := mem_passes hcopy _ _ _ hfree' hnoted
      exact iff_of_false
        (fun hmaps => pass_not_right ip table hindirect hpos (hmaps.right _ hmem))
        (not_staysDirect_indirect (by omega) hindirect hstop)

/-- **The first test**: the range starts in the file, and its end does not wrap around. -/
theorem rangeOk_iff (ip : Dinode) (off n : BitVec 32) : rangeOk ip off n = true ↔
    off.toNat ≤ ip.size.toNat ∧ off.toNat + n.toNat < 2 ^ 32 := by
  have hoff := off.isLt
  have hn := n.isLt
  rw [rangeOk, Bool.not_eq_true', Bool.or_eq_false_iff, decide_eq_false_iff_not,
    decide_eq_false_iff_not, BitVec.lt_def, BitVec.lt_def, BitVec.toNat_add]
  omega

/-- The range of `inode_read` ends in the file. -/
theorem clip_toNat {ip : Dinode} {off n : BitVec 32} (h : rangeOk ip off n = true) :
    (clip ip off n).toNat = min n.toNat (ip.size.toNat - off.toNat) := by
  obtain ⟨hsize, hwrap⟩ := (rangeOk_iff ip off n).mp h
  have hsum : (off + n).toNat = off.toNat + n.toNat := by
    rw [BitVec.toNat_add]
    exact Nat.mod_eq_of_lt hwrap
  rw [clip]
  simp only [BitVec.lt_def, hsum]
  split
  · rw [BitVec.toNat_sub_of_le hsize]
    omega
  · omega

/-- `inode_read` of a range that the test accepts, -/
theorem inodeRead_accepted (h : rangeOk ip off n = true) : (inodeRead env ip off n).run s =
    (fileLoop env ip (clip ip off n) copyOut (clip ip off n).toNat 0 off >>= fun r =>
      pure r.1).run s.fresh := by
  rw [inodeRead, if_pos h]
  exact bind_ok rfl

/-- and of one that it does not. -/
theorem inodeRead_refused (h : ¬ rangeOk ip off n = true) :
    (inodeRead env ip off n).run s = .ok (-1) s.fresh := by
  rw [inodeRead, if_neg h]
  rfl

theorem inodeWrite_accepted {sb : Superblock} {inum : BitVec 32} {src : Nat → BitVec 8}
    (h : (rangeOk ip off n && fits off n) = true) :
    (inodeWrite env sb inum ip src off n).run s =
      (fileLoop env ip n (copyIn src) n.toNat 0 off >>= fun r =>
        inodeUpdate env sb inum (grown ip r.2) >>= fun _ => pure (r.1, grown ip r.2)).run
        s.fresh := by
  rw [inodeWrite, if_pos h]
  exact bind_ok rfl

theorem inodeWrite_refused {sb : Superblock} {inum : BitVec 32} {src : Nat → BitVec 8}
    (h : ¬ (rangeOk ip off n && fits off n) = true) :
    (inodeWrite env sb inum ip src off n).run s = .ok (-1, ip) s.fresh := by
  rw [inodeWrite, if_neg h]
  rfl

/-- A refused call makes no passes. -/
theorem mapsOffsets_fresh (a : α) :
    MapsOffsets ip table (EStateM.Result.ok a s.fresh : EStateM.Result Halt FileState α) :=
  ⟨fun t h => (by cases h), fun x hx => absurd hx List.not_mem_nil⟩

theorem inodeRead_maps_iff (env : Env) (ip : Dinode) (s : FileState) (off n : BitVec 32)
    (hfree : BlocksFree ip s.world) :
    MapsOffsets ip (s.world.view (ip.addrs (Fin.last ndirect))) ((inodeRead env ip off n).run s) ↔
      (rangeOk ip off n = true → StaysDirect env ip s.world off.toNat (clip ip off n).toNat) := by
  by_cases h : rangeOk ip off n = true
  · obtain ⟨hsize, hwrap⟩ := (rangeOk_iff ip off n).mp h
    have hclip := clip_toNat h
    rw [inodeRead_accepted h, mapsOffsets_bind fun r s' => ⟨fun t ht => (by cases ht), rfl⟩,
      fileLoop_maps copyOut_steady _ _ _ s.fresh (Nat.sub_le _ _) ?_ hfree fun a ha =>
        absurd ha List.not_mem_nil]
    · exact ⟨fun hstays _ => hstays, fun hstays => hstays h⟩
    · have hzero : (0 : BitVec 32).toNat = 0 := rfl
      omega
  · rw [inodeRead_refused h]
    exact iff_of_true (mapsOffsets_fresh _) fun hok => absurd hok h

theorem inodeWrite_maps_iff (env : Env) (sb : Superblock) (inum : BitVec 32) (ip : Dinode)
    (src : Nat → BitVec 8) (s : FileState) (off n : BitVec 32) (hfree : BlocksFree ip s.world) :
    MapsOffsets ip (s.world.view (ip.addrs (Fin.last ndirect)))
        ((inodeWrite env sb inum ip src off n).run s) ↔
      ((rangeOk ip off n && fits off n) = true →
        StaysDirect env ip s.world off.toNat n.toNat) := by
  by_cases h : (rangeOk ip off n && fits off n) = true
  · obtain ⟨hsize, hwrap⟩ := (rangeOk_iff ip off n).mp ((Bool.and_eq_true _ _).mp h).1
    rw [inodeWrite_accepted h, mapsOffsets_bind ?_,
      fileLoop_maps (copyIn_steady src) _ _ _ s.fresh (Nat.sub_le _ _) ?_ hfree fun a ha =>
        absurd ha List.not_mem_nil]
    · exact ⟨fun hstays _ => hstays, fun hstays => hstays h⟩
    · have hzero : (0 : BitVec 32).toNat = 0 := rfl
      omega
    · intro r s'
      obtain ⟨hbounds, hpasses⟩ := inodeUpdate_passes env sb inum (grown ip r.2) s'
      cases hrun : (inodeUpdate env sb inum (grown ip r.2)).run s' with
      | ok a t =>
        rw [bind_ok hrun]
        rw [hrun] at hpasses
        exact ⟨fun t' ht => (by cases ht), hpasses⟩
      | error e t =>
        rw [bind_error hrun]
        rw [hrun] at hbounds hpasses
        exact ⟨fun t' ht => hbounds t' (by cases ht; rfl), hpasses⟩
  · rw [inodeWrite_refused h]
    exact iff_of_true (mapsOffsets_fresh _) fun hok => absurd hok h

end Calls

/-- **`inode_read` and `inode_write` take every byte from the block it belongs to, or put it there,
exactly when the range lies in the direct blocks or the loop stops before it leaves them**, for
every inode, every range that the tests accept, and whatever the buffers hold. -/
theorem inode_offsets_iff (env : Env) (ip : Dinode) (s : FileState) (off n : BitVec 32)
    (hfree : BlocksFree ip s.world) :
    (MapsOffsets ip (s.world.view (ip.addrs (Fin.last ndirect)))
        ((inodeRead env ip off n).run s) ↔
      (rangeOk ip off n = true →
        StaysDirect env ip s.world off.toNat (clip ip off n).toNat)) ∧
    ∀ (sb : Superblock) (inum : BitVec 32) (src : Nat → BitVec 8),
      MapsOffsets ip (s.world.view (ip.addrs (Fin.last ndirect)))
          ((inodeWrite env sb inum ip src off n).run s) ↔
        ((rangeOk ip off n && fits off n) = true →
          StaysDirect env ip s.world off.toNat n.toNat) :=
  ⟨inodeRead_maps_iff env ip s off n hfree,
    fun sb inum src => inodeWrite_maps_iff env sb inum ip src s off n hfree⟩

/-- A file of 13 blocks: twelve direct ones, and the indirect block 112. -/
def longFile : Dinode := ⟨2, 0, 0, 1, 6656, fun i => 100 + BitVec.ofNat 32 i.val⟩

/-- The machine just booted, with an operation of the log open. -/
def bootFiles : FileState :=
  ⟨.boot fun _ _ => 0,
    { start := 2, size := logSize, outstanding := 1, committing := false, lh := [] }, false, [], []⟩

/-- All the bytes of the direct blocks are read from them. -/
theorem inode_offsets_iff_direct :
    MapsOffsets longFile (bootFiles.world.view (longFile.addrs (Fin.last ndirect)))
      ((inodeRead ⟨1, fun _ => false, fun _ => false⟩ longFile 0 6144).run bootFiles) :=
  (inode_offsets_iff ⟨1, fun _ => false, fun _ => false⟩ longFile bootFiles 0 6144
    fun _ _ => rfl).1.mpr fun _ => .inr (.inl (by decide))

/-- The byte 6144 of the file is read from the indirect block itself. -/
theorem inode_read_indirect : ¬ ∀ (env : Env) (ip : Dinode) (s : FileState) (off n : BitVec 32),
    BlocksFree ip s.world → rangeOk ip off n = true →
    MapsOffsets ip (s.world.view (ip.addrs (Fin.last ndirect)))
      ((inodeRead env ip off n).run s) := by
  intro h
  have hmaps := h ⟨1, fun _ => false, fun _ => false⟩ longFile bootFiles 6144 1 (fun _ _ => rfl)
    (by decide)
  have hpasses : ((finalState ((inodeRead ⟨1, fun _ => false, fun _ => false⟩ longFile 6144 1).run
      bootFiles)).passes.any fun a => a.off == 6144 && a.len == 1 &&
        a.block == longFile.addrs (Fin.last ndirect)) = true := by
    decide +kernel
  obtain ⟨a, ha, htest⟩ := List.any_eq_true.mp hpasses
  simp only [Bool.and_eq_true, beq_iff_eq] at htest
  obtain ⟨⟨hoff, hlen⟩, hblock⟩ := htest
  have hright := hmaps.right a ha 6144 (by rw [hoff]; decide) (by rw [hoff, hlen]; decide)
  exact (hright.2 (by decide)).2 hblock

end Lithium.Wal
