/-
# Is an acknowledged write in the log?

`inode_write` of `inode.c`, for every pattern of `NULL` results of `block_read` and of refusals of
`log_write`.  `log_write` and `inode_update` return nothing, so `inode_write` counts a byte as
written when it is in the buffer; whether the buffer is in the log, and whether the block of the
inode has the new size, is not looked at.
-/
import Lithium.Fs.LogReserve
import Lithium.Fs.FileRead

namespace Lithium.Wal

/-! ## 1. The property -/

section Property

variable (env : Env) (sb : Superblock) (inum : BitVec 32) (ip ip' : Dinode) (n r : BitVec 32)
  (s s' : FileState)

/-- The number of blocks that `n` bytes from `off` on lie in. -/
def blockCount (off n : Nat) : Nat := if n = 0 then 0 else (off % bsize + n - 1) / bsize + 1

/-- The blocks of the range, from block `i` of the file on, up to the first that is missing or that
`block_read` does not return. -/
def reached : Nat → Nat → Nat → List BlockNo
  | 0, _, _ => []
  | count + 1, reads, i =>
    if blockOf ip i = 0 ∨ env.null reads = true then []
    else blockOf ip i :: reached count (reads + 1) (i + 1)

/-- The calls of `block_read` that have been made then. -/
def readsAfter : Nat → Nat → Nat → Nat
  | 0, reads, _ => reads
  | count + 1, reads, i =>
    if blockOf ip i = 0 then reads
    else if env.null reads = true then reads + 1
    else readsAfter count (reads + 1) (i + 1)

/-- The log has all these blocks, or an operation is open and it has room for those it has not. -/
def Room (l : Log) (bs : List BlockNo) : Prop :=
  (∀ b ∈ bs, b ∈ l.lh) ∨ 1 ≤ l.outstanding ∧ (bs.foldl addBlock l.lh).length ≤ logSize ∧
    (bs.foldl addBlock l.lh).length < l.size

end Property

/-! ## 2. Blocks given to the log -/

/-- `log_write` of one block after the other. -/
def logAll (l : Log) (bs : List BlockNo) : Log := bs.foldl (fun l b => (l.write b).1) l

variable {l : Log} {b : BlockNo}

section Loop

variable {env : Env} {sb : Superblock} {ip : Dinode} {n start : BitVec 32} {l₀ : Log}
  {bs done : List BlockNo} {reads fuel : Nat} {tot off : BitVec 32} {s : FileState}

/-- The blocks of what is left of the range, after a pass. -/
theorem blockCount_pass (off k : Nat) {m : Nat} (hk : 0 < k)
    (hm : m = min (bsize - off % bsize) k) :
    blockCount off k = blockCount (off + m) (k - m) + 1 ∧
      (blockCount (off + m) (k - m) ≠ 0 → (off + m) / bsize = off / bsize + 1) := by
  have hb : bsize = 512 := rfl
  rw [hb] at hm
  simp only [blockCount, hb]
  rw [if_neg (by omega : ¬ k = 0)]
  split
  case isTrue hzero => exact ⟨by omega, fun hne => absurd rfl hne⟩
  case isFalse hzero => exact ⟨by omega, fun _ => by omega⟩

theorem reached_go {count i : Nat} (hne : blockOf ip i ≠ 0) (hnull : env.null reads = false) :
    reached env ip (count + 1) reads i
      = blockOf ip i :: reached env ip count (reads + 1) (i + 1) := by
  rw [reached, if_neg]
  rintro (hzero | hnone)
  · exact hne hzero
  · rw [hnull] at hnone
    cases hnone

theorem readsAfter_go {count i : Nat} (hne : blockOf ip i ≠ 0) (hnull : env.null reads = false) :
    readsAfter env ip (count + 1) reads i = readsAfter env ip count (reads + 1) (i + 1) := by
  rw [readsAfter, if_neg hne, if_neg (by rw [hnull]; exact Bool.false_ne_true)]

/-- After the last block the place does not matter. -/
theorem reached_congr (env : Env) (ip : Dinode) (reads : Nat) {count i j : Nat}
    (h : count ≠ 0 → i = j) :
    reached env ip count reads i = reached env ip count reads j ∧
      readsAfter env ip count reads i = readsAfter env ip count reads j := by
  cases count with
  | zero => exact ⟨rfl, rfl⟩
  | succ count =>
    rw [h (Nat.succ_ne_zero count)]
    exact ⟨rfl, rfl⟩

/-- What the loop has done when it has come past the blocks `done`. -/
structure Wrote (n : BitVec 32) (l₀ : Log) (done : List BlockNo) (start tot off : BitVec 32)
    (s : FileState) : Prop where
  le : tot.toNat ≤ n.toNat
  log : s.log = logAll l₀ done
  passes : s.passes.map Pass.block = done.reverse
  none : done = [] → tot = 0 ∧ off = start
  some : done ≠ [] → tot ≠ 0

/-- Before a pass: of the blocks `bs` that the loop gets to, `done` are behind it. -/
structure Logging (env : Env) (ip : Dinode) (n start : BitVec 32) (l₀ : Log) (bs : List BlockNo)
    (reads : Nat) (done : List BlockNo) (fuel : Nat) (tot off : BitVec 32) (s : FileState) : Prop
    extends Wrote n l₀ done start tot off s where
  fuel : n.toNat - tot.toNat ≤ fuel
  fits : off.toNat + (n.toNat - tot.toNat) < 2 ^ 32
  blocks : bs = done ++ reached env ip (blockCount off.toNat (n.toNat - tot.toNat)) s.world.reads
    (off.toNat / bsize)
  reads : reads = readsAfter env ip (blockCount off.toNat (n.toNat - tot.toNat)) s.world.reads
    (off.toNat / bsize)

/-- **A pass** gives one block more to the log. -/
theorem Logging.pass (h : Logging env ip n start l₀ bs reads done (fuel + 1) tot off s)
    {b : BlockNo} (henter : Entered env ip n tot off b s) (data : Block) :
    Logging env ip n start l₀ bs reads (done ++ [b]) fuel (tot + passLen n tot off)
      (off + passLen n tot off) ((s.noted ⟨off, passLen n tot off, b⟩).changed b data) := by
  have hle := h.le
  have hfuel := h.fuel
  have hfits := h.fits
  have hlt : tot.toNat < n.toNat := henter.left
  obtain ⟨hpos, htot, hoff⟩ := pass_advance off henter.left (by omega)
  have hlen := passLen_toNat off henter.left
  obtain ⟨hcount, hindex⟩ := blockCount_pass off.toNat (n.toNat - tot.toNat) (by omega) hlen
  have hne : blockOf ip (off.toNat / bsize) ≠ 0 := by
    rw [henter.block]
    exact henter.exists_
  have hrest := h.blocks
  have hreads := h.reads
  rw [hcount, reached_go hne henter.null, henter.block] at hrest
  rw [hcount, readsAfter_go hne henter.null] at hreads
  have hsub : n.toNat - tot.toNat - (passLen n tot off).toNat
      = n.toNat - (tot + passLen n tot off).toNat := by omega
  rw [hsub, ← hoff] at hcount hindex hrest hreads
  have hplace := reached_congr env ip (s.world.reads + 1) hindex
  have hnew : ((s.noted ⟨off, passLen n tot off, b⟩).changed b data).world.reads
      = s.world.reads + 1 := rfl
  refine ⟨⟨by omega, ?_, ?_, ?_, ?_⟩, by omega, by omega, ?_, ?_⟩
  · rw [logAll, List.foldl_append, List.foldl_cons, List.foldl_nil]
    exact congrArg (fun l : Log => (l.write b).1) h.log
  · rw [List.reverse_append]
    exact congrArg (b :: ·) h.passes
  · exact fun hnil => absurd hnil (by simp)
  · intro _ hzero
    have hz := congrArg BitVec.toNat hzero
    have hz' : (tot + passLen n tot off).toNat = 0 := hz
    omega
  · rw [hnew, hplace.1, hrest, List.append_assoc, List.singleton_append]
  · rw [hnew, hplace.2, hreads]

end Loop

/-! ## 4. The call -/

section Write

variable {env : Env} {sb : Superblock} {inum : BitVec 32} {ip ip' : Dinode} {n r off : BitVec 32}
  {src : Nat → BitVec 8} {bs : List BlockNo} {reads : Nat} {s s' : FileState}

/-- What `inode_write` has done when it returns, in a range that it accepts. -/
structure Written (env : Env) (sb : Superblock) (inum : BitVec 32) (ip ip' : Dinode)
    (n r off : BitVec 32) (bs : List BlockNo) (reads : Nat) (s s' : FileState) : Prop where
  le : r.toNat ≤ n.toNat
  passes : s'.passes.map Pass.block = bs.reverse
  none : bs = [] → r = 0 ∧ ip' = grown ip off
  some : bs ≠ [] → r ≠ 0
  calls : s'.world.reads = reads + 1
  lost : env.null reads = true → s'.log = logAll s.log bs
  logged : env.null reads = false → s'.log = logAll s.log (bs ++ [iblock inum sb]) ∧
    (s'.world.view (iblock inum sb)).dinode (inodeSlot inum) = ip'

end Write

end Lithium.Wal
