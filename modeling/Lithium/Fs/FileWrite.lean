/-
# Writing to an open file

`file_write` of `file.c`.  A write to an inode is cut into pieces of `max` bytes, each written in an
operation of the log of its own, so that no operation logs more than `MAXOPBLOCKS` blocks.  A piece
that `inode_write` writes in part only ends the loop, and the result is -1, although `f->off` has
moved past the bytes that were written.
-/
import Lithium.Fs.FileRead
import Lithium.Fs.InodeStore
import Lithium.Fs.LogCrash

namespace Lithium.Wal

open Extents RedoLog

/-! ## 1. The code -/

/-- `max`. -/
def maxPiece : Nat := (maxOpBlocks - 1 - 1 - 2) / 2 * bsize

/-- `log_begin_op`; the error is its `sleep`. -/
def logBeginOp : FileM Unit := fun s =>
  match s.log.beginOp with
  | none => .error .asleep s
  | some l => .ok () { s with log := l }

/-- `log_end_op`, with the blocks that were in the log before. -/
def fileEndOp (env : Env) : FileM (List BlockNo) := fun s =>
  match (logEndOp env s.log).run s.world with
  | .ok l w => .ok s.log.lh { s with world := w, log := l }
  | .error e w => .error e { s with world := w }

/-- One pass of the loop of `file_write`: the result of `inode_write`, and the blocks that its
operation has logged. -/
def writePiece (env : Env) (sb : Superblock) (f : OpenFile) (src : Nat → BitVec 8)
    (n : BitVec 32) : FileM (BitVec 32 × OpenFile × List BlockNo) := do
  logBeginOp
  let ip ← inodeLock env sb f.ip
  let r ← inodeWrite env sb ip.inum ip.copy src f.off n
  let off := if 0 < r.1.toInt then f.off + r.1 else f.off
  let logged ← fileEndOp env
  pure (r.1, { f with off := off, ip := inodeUnlock env { ip with copy := r.2 } }, logged)

/-- `n1`. -/
def pieceLen (n i : BitVec 32) : BitVec 32 :=
  if (maxPiece : Int) < (n - i).toInt then BitVec.ofNat 32 maxPiece else n - i

/-- The loop of `file_write`, with the blocks logged by each operation.  A pass that goes on has
written a byte at least, so `n` passes are enough. -/
def pieceLoop (env : Env) (sb : Superblock) (src : Nat → BitVec 8) (n : BitVec 32) :
    Nat → BitVec 32 → OpenFile → List (List BlockNo) →
      FileM (BitVec 32 × OpenFile × List (List BlockNo))
  | 0, i, f, ops => pure (i, f, ops)
  | fuel + 1, i, f, ops =>
    if i.toInt < n.toInt then do
      let r ← writePiece env sb f (fun k => src (i.toNat + k)) (pieceLen n i)
      if r.1 = pieceLen n i then pieceLoop env sb src n fuel (i + r.1) r.2.1 (r.2.2 :: ops)
      else pure (i, r.2.1, r.2.2 :: ops)
    else pure (i, f, ops)

/-- A section of `pipe_write`; the error is its `sleep`. -/
def pipeWrite (pi : Pipe) (src : Nat → BitVec 8) (n : BitVec 32) : FileM (BitVec 32 × Pipe) :=
  let r := pi.writeLoop ((List.range n.toInt.toNat).map src)
  match r.2.2 with
  | .done => pure (n, r.1)
  | .broken => pure (-1, r.1)
  | .asleep => throw .asleep

/-- `file_write`, with the blocks logged by each operation, the last one first. -/
def fileWrite (env : Env) (sb : Superblock) (f : OpenFile) (src : Nat → BitVec 8)
    (n : BitVec 32) : FileM (BitVec 32 × OpenFile × List (List BlockNo)) := do
  if f.writable then
    match f.type with
    | .pipe =>
      let r ← pipeWrite f.pipe src n
      pure (r.1, { f with pipe := r.2 }, [])
    | .inode =>
      let r ← pieceLoop env sb src n n.toInt.toNat 0 f []
      pure (if r.1 = n then n else -1, r.2)
    | .device | .none => pure (-1, f, [])
  else pure (-1, f, [])

/-! ## 2. The property -/

/-- What the layout of the disk sees to: no two direct blocks of the file are the same, and none is
the block `home` of the inode; they and `home` lie outside the log.  Any of them may be missing. -/
structure PlacedFile (area : LogArea) (ip : Dinode) (home : BlockNo) : Prop where
  distinct : ∀ i < ndirect, ∀ j < ndirect, blockOf ip i = blockOf ip j → blockOf ip i ≠ 0 → i = j
  apart : ∀ i < ndirect, blockOf ip i ≠ 0 → blockOf ip i ≠ home
  outside : ∀ i < ndirect, blockOf ip i ≠ 0 → ¬ area.Inside (blockOf ip i)
  home : ¬ area.Inside home

/-- The first `k` bytes of `src` are in the file from `off` on; the rest of the file, and every
other block outside the log, is as it was. -/
structure Stored (area : LogArea) (ip : Dinode) (home : BlockNo) (w w' : World)
    (src : Nat → BitVec 8) (off k : Nat) : Prop where
  exist : ∀ o, off ≤ o → o < off + k → blockOf ip (o / bsize) ≠ 0
  bytes : ∀ o < ndirect * bsize, blockOf ip (o / bsize) ≠ 0 →
    byteAt w' ip o = overlay (byteAt w ip) src off k o
  others : ∀ b, (∀ i < ndirect, blockOf ip i ≠ 0 → b ≠ blockOf ip i) → b ≠ home →
    ¬ area.Inside b → w'.view b = w.view b

/-- Between two operations: nothing is in the log, and nobody in the buffers. -/
structure Idle (area : LogArea) (s : FileState) : Prop where
  of : area.Of s.log
  lh : s.log.lh = []
  outstanding : s.log.outstanding = 0
  committing : s.log.committing = false
  ready : Ready (fun _ => False) s.world

/-- What a call of `file_write` accounts for, when it has written `k` bytes: the offset, the result,
and the blocks that each operation has logged. -/
structure Accounted (area : LogArea) (ip : Dinode) (home : BlockNo) (src : Nat → BitVec 8)
    (f f' : OpenFile) (s s' : FileState) (n r : BitVec 32) (ops : List (List BlockNo))
    (k : Nat) : Prop where
  le : k ≤ n.toNat
  stored : Stored area ip home s.world s'.world src f.off.toNat k
  off : f'.off.toNat = f.off.toNat + k
  result : r = if k = n.toNat then n else -1
  budget : ∀ bs ∈ ops, bs.Nodup ∧ bs.length ≤ maxOpBlocks

/-- `file_write` returns, and accounts for what it has written. -/
def Accounts (env : Env) (sb : Superblock) (area : LogArea) (f : OpenFile) (src : Nat → BitVec 8)
    (s : FileState) (n : BitVec 32) : Prop :=
  ∃ r f' ops s' k, (fileWrite env sb f src n).run s = .ok (r, f', ops) s' ∧
    Accounted area (lockedCopy env sb f.ip s.world) (iblock f.ip.inum sb) src f f' s s' n r ops k

/-- What the caller of `file_write` sees to: the file refers to an inode that nobody has locked, and
the log is empty, with room for the five blocks of an operation, so that `log_write` accepts all of
them.  No two direct blocks are the same. -/
structure Called (env : Env) (sb : Superblock) (area : LogArea) (f : OpenFile) (s : FileState)
    (n : BitVec 32) : Prop where
  null : ∀ r, env.null r = false
  room : 5 ≤ area.layout.capacity
  idle : Idle area s
  type : f.type = .inode
  lock : f.ip.lock = none
  distinct : ∀ i < ndirect, ∀ j < ndirect, blockOf (lockedCopy env sb f.ip s.world) i
    = blockOf (lockedCopy env sb f.ip s.world) j → blockOf (lockedCopy env sb f.ip s.world) i ≠ 0 →
      i = j
  fits : f.off.toNat + n.toNat ≤ ndirect * bsize

/-- In an operation. -/
structure InOp (area : LogArea) (s : FileState) : Prop where
  of : area.Of s.log
  outstanding : s.log.outstanding = 1
  fits : area.Fits s.log.lh
  ready : Ready (· ∈ s.log.lh) s.world

namespace Stored

variable {area : LogArea} {ip : Dinode} {home : BlockNo} {w w₁ w₂ : World} {src : Nat → BitVec 8}
  {off k k' : Nat}

/-- What changes the inode and the log only stores nothing. -/
theorem of_view (hfile : PlacedFile area ip home)
    (h : ∀ b, b ≠ home → ¬ area.Inside b → w₁.view b = w.view b) (src : Nat → BitVec 8)
    (off : Nat) : Stored area ip home w w₁ src off 0 where
  exist o _ _ := by omega
  bytes o ho hne := by
    have hi : o / bsize < ndirect := Nat.div_lt_of_lt_mul (by rw [Nat.mul_comm]; exact ho)
    rw [overlay_zero, byteAt, byteAt, h _ (hfile.apart _ hi hne) (hfile.outside _ hi hne)]
  others b _ := h b

/-- **Bytes stored one range after the other.** -/
theorem append (h : Stored area ip home w w₁ src off k) (k' : Nat)
    (h' : Stored area ip home w₁ w₂ (fun i => src (k + i)) (off + k) k') :
    Stored area ip home w w₂ src off (k + k') where
  exist o hlo hhi := by
    rcases Nat.lt_or_ge o (off + k) with hlt | hge
    · exact h.exist o hlo hlt
    · exact h'.exist o hge (by omega)
  bytes o ho hne := by
    rw [h'.bytes o ho hne, overlay_congr _ _ _ (h.bytes o ho hne), overlay_append]
  others b hb hhome hin := (h'.others b hb hhome hin).trans (h.others b hb hhome hin)

end Stored

/-! ## 3. Worlds between calls -/

section Between

variable {env : Env} {sb : Superblock} {area : LogArea} {s : FileState} {l : Log} {w : World}
  {b : BlockNo} {data : Block}

/-- **A commit changes nothing outside the log**, as the cache shows it. -/
theorem commit_view (hnull : ∀ r, env.null r = false) (hof : area.Of l) (hfit : area.Fits l.lh)
    (h : Ready (· ∈ l.lh) w) : ∃ w', (commit env l).run w = .ok (emptied l) w' ∧
      Ready (fun _ => False) w' ∧ ∀ b, ¬ area.Inside b → w'.view b = w.view b := by
  by_cases hne : l.lh = []
  · refine ⟨w, ?_, h.congr fun b => by simp [hne], fun _ _ => rfl⟩
    rw [commit_empty env hne, emptied, ← hne]
  obtain ⟨w', v, v₀, hrun, hready, hv, -, -, hdisk⟩ := commit_run hnull hof hfit hne h
  refine ⟨w', hrun, hready, fun b hb => ?_⟩
  rw [hready.synced b id, hdisk,
    area.layout.commit_home w.view hfit.nodup hfit.length_le hfit.homes hv hb, override]
  split
  case isTrue => rfl
  case isFalse hmem => exact (h.synced b hmem).symm

/-- What `log_write` does with a block when it accepts it. -/
structure Recorded (l l' : Log) (b : BlockNo) : Prop where
  log : l' = { l with lh := l'.lh }
  mem : ∀ b', b' ∈ l'.lh ↔ b' = b ∨ b' ∈ l.lh
  nodup : l.lh.Nodup → l'.lh.Nodup
  length_le : l'.lh.length ≤ l.lh.length + 1

theorem write_accepted (h : (l.write b).2.accepted = true) :
    Recorded l (l.write b).1 b ∧ ((l.write b).2 = .recorded ↔ b ∉ l.lh) := by
  rcases l.write_cases b with ⟨-, hno⟩ | ⟨hmem, hans⟩ | ⟨hmem, -, hans⟩
  · rw [h] at hno
    cases hno
  · rw [hans]
    refine ⟨⟨rfl, fun b' => ⟨.inr, ?_⟩, id, Nat.le_succ _⟩, by simp [hmem]⟩
    rintro (rfl | hb')
    · exact hmem
    · exact hb'
  · rw [hans]
    refine ⟨⟨rfl, fun b' => ?_, fun hnodup => ?_, ?_⟩, by simp [hmem]⟩
    · rw [List.mem_append, List.mem_singleton, or_comm]
    · rw [← List.concat_eq_append]
      exact hnodup.concat hmem
    · rw [List.length_append, List.length_singleton]

/-- A block changed and logged. -/
theorem Ready.changed (h : Ready (· ∈ s.log.lh) s.world) (hok : (s.log.write b).2.accepted = true) :
    Ready (· ∈ (s.changed b data).log.lh) (s.changed b data).world := by
  obtain ⟨hlog, hrecorded⟩ := write_accepted hok
  have hmem : ∀ b', b' ∈ (s.changed b data).log.lh ↔ b' = b ∨ b' ∈ s.log.lh := hlog.mem
  refine h.change (b := b) (fun b' hb' => ⟨?_, rfl⟩) ?_ (fun _ => ?_)
    (fun hno => absurd ((hmem b).mpr (.inl rfl)) hno) fun b' hb' => ?_
  · rw [FileState.changed, put_of_ne _ hb', tick_bufs]
  · rw [World.FreeAt, FileState.changed, put_self]
    rfl
  · rw [FileState.changed, put_self]
    dsimp only
    by_cases hb : b ∈ s.log.lh
    · exact Nat.add_pos_left (h.pinned b hb) _
    · rw [if_pos (hrecorded.mpr hb)]
      exact Nat.succ_pos _
  · rw [hmem]
    exact ⟨fun hor => hor.resolve_left hb', .inr⟩

/-- A block looked at. -/
theorem Ready.looked {P : BlockNo → Prop} (h : Ready P s.world) (b : BlockNo) :
    Ready P (s.looked b).world := by
  refine h.change (b := b) (fun b' hb' => ⟨?_, rfl⟩) ?_ (fun hP => ?_) (fun hP => ?_) fun b' _ =>
    Iff.rfl
  · rw [FileState.looked, put_of_ne _ hb', tick_bufs]
  · rw [World.FreeAt, FileState.looked, put_self]
    rfl
  · rw [FileState.looked, put_self]
    exact h.pinned b hP
  · rw [looked_view]
    exact h.synced b hP

/-- `log_write` accepts a block as long as there is room. -/
theorem write_room (hof : area.Of l) (hout : l.outstanding = 1)
    (hroom : l.lh.length < area.layout.capacity) (b : BlockNo) :
    (l.write b).2.accepted = true := by
  have hcap : l.lh.length < min (area.size - 1) logSize := hroom
  have hsize := hof.size
  rw [Log.write, if_neg (by omega), if_neg (by omega)]
  split
  case isTrue => rfl
  case isFalse => rfl

namespace InOp

/-- `log_begin_op`. -/
theorem begun (h : Idle area s) : logBeginOp.run s
      = .ok () { s with log := { s.log with outstanding := 1 } } ∧
    InOp area { s with log := { s.log with outstanding := 1 } } := by
  have hbegin : s.log.beginOp = some { s.log with outstanding := 1 } := by
    simp [Log.beginOp, h.committing, h.lh, h.outstanding, maxOpBlocks, logSize]
  constructor
  · rw [EStateM.run, logBeginOp, hbegin]
  · refine ⟨⟨h.of.start, h.of.size⟩, rfl, ?_, h.ready.congr fun b => by simp [h.lh]⟩
    dsimp only
    rw [h.lh]
    exact ⟨List.nodup_nil, Nat.zero_le _, fun _ hb => absurd hb List.not_mem_nil⟩

/-- A block changed and logged. -/
theorem changed (h : InOp area s) (hb : ¬ area.Inside b)
    (hroom : s.log.lh.length < area.layout.capacity) (data : Block) :
    InOp area (s.changed b data) ∧ Recorded s.log (s.changed b data).log b := by
  have hok := write_room h.of h.outstanding hroom b
  have hrec : Recorded s.log (s.changed b data).log b := (write_accepted hok).1
  refine ⟨⟨?_, ?_, ?_, h.ready.changed hok⟩, hrec⟩
  · rw [hrec.log]
    exact ⟨h.of.start, h.of.size⟩
  · rw [hrec.log]
    exact h.outstanding
  · refine ⟨hrec.nodup h.fits.nodup, Nat.le_trans hrec.length_le hroom, fun a ha => ?_⟩
    rcases (hrec.mem a).mp ha with rfl | ha
    · exact hb
    · exact h.fits.homes a ha

/-- `log_end_op`. -/
theorem ended (hnull : ∀ r, env.null r = false) (h : InOp area s) :
    ∃ s', (fileEndOp env).run s = .ok s.log.lh s' ∧ Idle area s' ∧
      ∀ b, ¬ area.Inside b → s'.world.view b = s.world.view b := by
  obtain ⟨w', hrun, hready, hview⟩ := commit_view
    (l := { s.log with outstanding := 0, committing := true }) (w := s.world) hnull
    ⟨h.of.start, h.of.size⟩ h.fits h.ready
  have hend := logEndOp_run h.outstanding hrun
  refine ⟨{ s with
    world := w', log := (emptied { s.log with outstanding := 0, committing := true }).endCommit },
    ?_, ⟨⟨h.of.start, h.of.size⟩, rfl, rfl, rfl, hready⟩, hview⟩
  rw [EStateM.run, fileEndOp, hend]

end InOp

end Between

/-! ## 4. The loop of `inode_write` -/

/-- During the loop over the range of `n` bytes from `start` on: `tot` bytes are stored, and the
blocks in the log are those of the range so far. -/
structure Writing (area : LogArea) (ip : Dinode) (home : BlockNo) (src : Nat → BitVec 8)
    (n start : BitVec 32) (w : World) (tot off : BitVec 32) (s : FileState) : Prop where
  op : InOp area s
  le : tot.toNat ≤ n.toNat
  reached : off.toNat = start.toNat + tot.toNat
  mine : ∀ b ∈ s.log.lh, ∃ i, start.toNat / bsize ≤ i ∧ i * bsize < off.toNat ∧ b = blockOf ip i
  stored : Stored area ip home w s.world src start.toNat tot.toNat

section Loop

variable {env : Env} {sb : Superblock} {area : LogArea} {ip : Dinode} {home : BlockNo}
  {src : Nat → BitVec 8} {n start : BitVec 32} {w : World} {s : FileState} {tot off : BitVec 32}

/-- An operation logs four blocks of the file at most. -/
theorem Writing.length_le (h : Writing area ip home src n start w tot off s)
    (hn : n.toNat ≤ maxPiece) : s.log.lh.length ≤ 4 := by
  have hpiece : n.toNat ≤ 1536 := hn
  have hsub : s.log.lh ⊆ (List.range 4).map fun j => blockOf ip (start.toNat / bsize + j) := by
    intro b hb
    obtain ⟨i, hlo, hhi, rfl⟩ := h.mine b hb
    have hle := h.le
    have hoff := h.reached
    have hb : bsize = 512 := rfl
    rw [hb] at hlo hhi ⊢
    refine List.mem_map.mpr ⟨i - start.toNat / 512, List.mem_range.mpr (by omega), ?_⟩
    congr 1
    omega
  have hlen := (List.subperm_of_subset h.op.fits.nodup hsub).length_le
  rwa [List.length_map, List.length_range] at hlen

/-- **A pass** stores a piece of a block, and logs it. -/
theorem Writing.pass (hnull : ∀ r, env.null r = false) (hfile : PlacedFile area ip home)
    (hroom : 5 ≤ area.layout.capacity) (hn : n.toNat ≤ maxPiece)
    (hfits : start.toNat + n.toNat ≤ ndirect * bsize)
    (h : Writing area ip home src n start w tot off s) {b : BlockNo}
    (henter : Entered env ip n tot off b s) :
    Writing area ip home src n start w (tot + passLen n tot off) (off + passLen n tot off)
      ((s.noted ⟨off, passLen n tot off, b⟩).changed b
        (Block.splice (s.world.fetched env b).data (off.toNat % bsize) (passLen n tot off).toNat
          fun i => src (tot.toNat + i))) := by
  have hle := h.le
  have hoff := h.reached
  have hpass : DirectPass n tot off := InDirect.pass
    (⟨hle, by omega, by omega⟩ : InDirect n n.toNat tot off) henter.left
  have hindex := hpass.index
  have hpiece := hpass.piece
  have hrest := hpass.rest
  have htotNext := hpass.totNext
  have hoffNext := hpass.offNext
  have hblock := henter.block
  have hne : blockOf ip (off.toNat / bsize) ≠ 0 := by
    rw [hblock]
    exact henter.exists_
  have hpos := hpass.pos
  generalize passLen n tot off = m at hpiece hrest htotNext hoffNext hpos ⊢
  have hcap : (s.noted ⟨off, m, b⟩).log.lh.length < area.layout.capacity := by
    have hfour := h.length_le hn
    exact Nat.lt_of_lt_of_le (Nat.lt_succ_of_le hfour) hroom
  have hin : ¬ area.Inside b := hblock ▸ hfile.outside _ hindex hne
  have hop : InOp area (s.noted ⟨off, m, b⟩) := ⟨h.op.of, h.op.outstanding, h.op.fits, h.op.ready⟩
  rw [fetched_data env (h.op.ready.clean b) (h.op.ready.free b) (hnull _)]
  obtain ⟨hop', hrec⟩ := hop.changed hin hcap
    (Block.splice (s.world.view b) (off.toNat % bsize) m.toNat fun i => src (tot.toNat + i))
  refine ⟨hop', ?_, ?_, fun b' hb' => ?_, ?_⟩
  · omega
  · omega
  · rcases (hrec.mem b').mp hb' with rfl | hold
    · refine ⟨off.toNat / bsize, Nat.div_le_div_right (by omega), ?_, hblock.symm⟩
      have hdiv := Nat.div_mul_le_self off.toNat bsize
      omega
    · obtain ⟨i, hlo, hhi, hi⟩ := h.mine b' hold
      exact ⟨i, hlo, by omega, hi⟩
  · -- the bytes of the piece are bytes of this block, and of no other
    have hview := fun b' => changed_view (s.noted ⟨off, m, b⟩) b b'
      (Block.splice (s.world.view b) (off.toNat % bsize) m.toNat fun i => src (tot.toNat + i))
    rw [htotNext]
    refine h.stored.append m.toNat ?_
    rw [← hoff]
    refine ⟨fun o hlo hhi => ?_, fun o ho hne' => ?_, fun b' hb' _ _ => ?_⟩
    · rw [((piece_iff hpiece).mpr ⟨hlo, hhi⟩).1]
      exact hne
    · have ho' : o / bsize < ndirect := Nat.div_lt_of_lt_mul (by rw [Nat.mul_comm]; exact ho)
      refine entry_splice hpiece ?_ (fun b' hb' => ?_) fun he =>
        hfile.distinct _ ho' _ hindex he hne'
      · rw [hblock, hview, if_pos rfl]
        rfl
      · rw [hview, if_neg (hblock ▸ hb')]
        rfl
    · rw [hview, if_neg (hblock ▸ hb' _ hindex hne)]
      rfl

/-- **The loop of `inode_write`** comes to its end. -/
theorem writing_ends (hnull : ∀ r, env.null r = false) (hfile : PlacedFile area ip home)
    (hroom : 5 ≤ area.layout.capacity) (hn : n.toNat ≤ maxPiece)
    (hfits : start.toNat + n.toNat ≤ ndirect * bsize) (fuel : Nat) (tot off : BitVec 32)
    (s : FileState) (h : Writing area ip home src n start w tot off s) :
    Ends (fileLoop env ip n (copyIn src) fuel tot off) s
      (fun r s' => Writing area ip home src n start w r.1 r.2 s') fun _ _ => False := by
  refine fileLoop_ends ?out ?null ?held ?pass fuel tot off s h
  case out =>
    intro tot off s h hlt hi
    have hlt' : tot.toNat < n.toNat := hlt
    have hoff := h.reached
    have hdiv : off.toNat / bsize < ndirect :=
      Nat.div_lt_of_lt_mul (by rw [Nat.mul_comm]; omega)
    omega
  case null =>
    intro tot off s h hnone
    rw [hnull] at hnone
    cases hnone
  case held =>
    intro tot off s b h hlocked
    have hfree := h.op.ready.free b
    rw [World.FreeAt, hlocked] at hfree
    cases hfree
  case pass =>
    intro tot off s b h henter
    refine copyIn_ends ⟨?_, ?_⟩
    · rw [FileState.logged, put_self]
    · rw [logged_released]
      exact h.pass hnull hfile hroom hn hfits henter

end Loop

/-! ## 5. One piece -/

/-- `k` more bytes have been written, and `f->off` has moved past them. -/
structure Moved (env : Env) (sb : Superblock) (area : LogArea) (ip : Dinode) (home : BlockNo)
    (src : Nat → BitVec 8) (f f' : OpenFile) (s s' : FileState) (k : Nat) : Prop where
  idle : Idle area s'
  stored : Stored area ip home s.world s'.world src f.off.toNat k
  off : f'.off.toNat = f.off.toNat + k
  lock : f'.ip.lock = none
  inum : f'.ip.inum = f.ip.inum
  blocks : blockOf (lockedCopy env sb f'.ip s'.world) = blockOf ip

/-- What `inode_write` returns when it has written `k` bytes. -/
def Answers (r : BitVec 32) (k : Nat) : Prop := r.toNat = k ∨ r = -1 ∧ k = 0

section Piece

variable {env : Env} {sb : Superblock} {area : LogArea} {ip ip' : Dinode} {home : BlockNo}
  {src : Nat → BitVec 8} {n off : BitVec 32} {w w' : World} {s s' s'' : FileState}
  {f f' f'' : OpenFile} {k k' : Nat}

theorem PlacedFile.congr (h : PlacedFile area ip home) (hip : blockOf ip' = blockOf ip) :
    PlacedFile area ip' home where
  distinct := hip ▸ h.distinct
  apart := hip ▸ h.apart
  outside := hip ▸ h.outside
  home := h.home

theorem Stored.congr {start : Nat} (h : Stored area ip' home w w' src start k)
    (hip : blockOf ip' = blockOf ip) : Stored area ip home w w' src start k where
  exist := hip ▸ h.exist
  bytes o ho hne := by
    have hbyte : ∀ w, byteAt w ip' = byteAt w ip := fun w => funext fun o => by
      rw [byteAt, byteAt, hip]
    have hbytes := h.bytes o ho (hip ▸ hne)
    rwa [hbyte, hbyte] at hbytes
  others := hip ▸ h.others

/-- **`inode_write`** in an operation that has logged nothing yet. -/
theorem inodeWrite_ends (inum : BitVec 32) (src : Nat → BitVec 8) (hnull : ∀ r, env.null r = false)
    (hfile : PlacedFile area ip (iblock inum sb)) (hroom : 5 ≤ area.layout.capacity)
    (hn : n.toNat ≤ maxPiece) (hfits : off.toNat + n.toNat ≤ ndirect * bsize)
    (hop : InOp area s) (hlh : s.log.lh = []) :
    Ends (inodeWrite env sb inum ip src off n) s
      (fun r s' => ∃ k ≤ n.toNat, Answers r.1 k ∧ r.2 = { ip with size := r.2.size } ∧
        InOp area s' ∧ s'.log.lh.length ≤ 5 ∧
        Stored area ip (iblock inum sb) s.world s'.world src off.toNat k) fun _ _ => False := by
  have hstart : Writing area ip (iblock inum sb) src n off s.world 0 off s.fresh :=
    ⟨⟨hop.of, hop.outstanding, hop.fits, hop.ready⟩, Nat.zero_le _, rfl,
      fun b hb => absurd hb (by rw [show s.fresh.log.lh = [] from hlh]; exact List.not_mem_nil),
      .of_view hfile (fun _ _ _ => rfl) src _⟩
  by_cases hok : (rangeOk ip off n && fits off n) = true
  case neg =>
    refine .of_ok (inodeWrite_refused hok) ⟨0, Nat.zero_le _, .inr ⟨rfl, rfl⟩, rfl, hstart.op, ?_,
      hstart.stored⟩
    rw [show s.fresh.log.lh = [] from hlh]
    exact Nat.zero_le _
  refine (Ends.congr (inodeWrite_accepted hok)).mpr
    ((writing_ends hnull hfile hroom hn hfits n.toNat 0 off s.fresh hstart).bind ?_)
  rintro ⟨tot, off'⟩ s' h
  refine Ends.bind (Q := fun _ t => InOp area t ∧ t.log.lh.length ≤ 5 ∧
    Stored area ip (iblock inum sb) s.world t.world src off.toNat tot.toNat)
    (inodeUpdate_ends sb inum (grown ip off') (fun hnone => ?_) (fun _ hlocked => ?_)
      fun _ _ => ?_) fun _ t ht => ⟨tot.toNat, h.le, .inl rfl, (grown_eq ip off').1, ht⟩
  · rw [hnull] at hnone
    cases hnone
  · have hfree := h.op.ready.free (iblock inum sb)
    rw [World.FreeAt, hlocked] at hfree
    cases hfree
  · have hfour := h.length_le hn
    generalize Block.setDinode _ _ _ = data
    obtain ⟨hop', hrec⟩ := h.op.changed hfile.home (Nat.lt_of_lt_of_le (by omega) hroom) data
    have hlen := hrec.length_le
    refine ⟨hop', by omega, h.stored.append 0 (.of_view hfile (fun b hb _ => ?_) _ _)⟩
    rw [changed_view, if_neg hb]

/-- `inode_lock` in an operation. -/
theorem inodeLock_run (env : Env) (sb : Superblock) (hnull : ∀ r, env.null r = false)
    (hop : InOp area s) {lip : Inode Pid} (hlock : lip.lock = none) : ∃ s',
    (inodeLock env sb lip).run s = .ok (lockedInode env sb lip s.world) s' ∧ InOp area s' ∧
      s'.log = s.log ∧ ∀ b, s'.world.view b = s.world.view b := by
  have hfree := hop.ready.free (iblock lip.inum sb)
  have hawake : ¬ LockSleeps env sb lip s.world := by
    rintro ⟨-, hheld | ⟨-, -, hlocked⟩⟩
    · exact hheld hlock
    · rw [hfree] at hlocked
      cases hlocked
  have hends : Ends (inodeLock env sb lip) s
      (fun r s' => r = lockedInode env sb lip s.world ∧ s' = s.locked env sb lip)
      fun _ _ => False :=
    inodeLock_ends (fun hsleeps => absurd hsleeps hawake) fun _ => ⟨rfl, rfl⟩
  obtain ⟨r, s', hrun, rfl, rfl⟩ := hends.returns
  refine ⟨_, hrun, ?_⟩
  rw [FileState.locked]
  split
  case isFalse => exact ⟨hop, rfl, fun _ => rfl⟩
  case isTrue =>
    rw [if_neg (by rw [hnull]; exact Bool.false_ne_true), got_released,
      fetched_data env (hop.ready.clean _) hfree (hnull _)]
    exact ⟨⟨hop.of, hop.outstanding, hop.fits, hop.ready.looked _⟩, rfl, looked_view s _⟩

/-- The inode after a piece: nobody holds it, and it is not loaded once more. -/
theorem unlocked_inode (env : Env) (sb : Superblock) {lip : Inode Pid} (hlock : lip.lock = none)
    (hnull : env.null w.reads = false) (copy : Dinode) : ∃ lip',
    inodeUnlock env { lockedInode env sb lip w with copy := copy } = lip' ∧ lip'.lock = none ∧
      lip'.inum = lip.inum ∧ lip'.copy = copy ∧ lockLoads lip' = false := by
  refine ⟨_, rfl, ?_⟩
  by_cases href : 1 ≤ lip.ref
  case neg =>
    have hsame : inodeUnlock env { lockedInode env sb lip w with copy := copy }
        = { lockedInode env sb lip w with copy := copy } := by
      rw [inodeUnlock, if_pos (.inr (Nat.lt_of_not_le href))]
    rw [hsame]
    exact ⟨(if_neg href).trans hlock, rfl, rfl, by simp [lockLoads, lockedInode, href]⟩
  case pos =>
    have hunlock : inodeUnlock env { lockedInode env sb lip w with copy := copy }
        = { lockedInode env sb lip w with
            copy := copy
            lock := none } := by
      rw [inodeUnlock, if_neg]
      rintro (hother | hzero)
      · exact hother (if_pos href)
      · exact absurd href (Nat.not_le_of_lt hzero)
    rw [hunlock]
    refine ⟨rfl, rfl, rfl, ?_⟩
    cases hvalid : lip.valid
    all_goals simp [lockLoads, lockedInode, href, hvalid, hnull]

/-- Where the offset is after a piece. -/
theorem advanced_off {r : BitVec 32} (h : Answers r k) (hk : off.toNat + k < 2 ^ 31) :
    (if 0 < r.toInt then off + r else off).toNat = off.toNat + k := by
  rcases h with hr | ⟨rfl, rfl⟩
  · have hint := BitVec.toInt_eq_toNat_of_lt (x := r) (by omega)
    split
    case isTrue =>
      rw [BitVec.toNat_add]
      omega
    case isFalse => omega
  · exact congrArg BitVec.toNat (if_neg (by decide))

/-- **A piece**: an operation of its own, which stores some bytes at `f->off` and moves it past
them. -/
theorem writePiece_ends (hnull : ∀ r, env.null r = false)
    (hfile : PlacedFile area (lockedCopy env sb f.ip s.world) (iblock f.ip.inum sb))
    (hroom : 5 ≤ area.layout.capacity) (hn : n.toNat ≤ maxPiece)
    (hfits : f.off.toNat + n.toNat ≤ ndirect * bsize) (hidle : Idle area s)
    (hlock : f.ip.lock = none) :
    Ends (writePiece env sb f src n) s
      (fun r s' => (∃ k ≤ n.toNat, Answers r.1 k ∧ Moved env sb area
          (lockedCopy env sb f.ip s.world) (iblock f.ip.inum sb) src f r.2.1 s s' k) ∧
        r.2.2.Nodup ∧ r.2.2.length ≤ maxOpBlocks) fun _ _ => False := by
  obtain ⟨hbegin, hop⟩ := InOp.begun hidle
  obtain ⟨s₁, hrun₁, hop₁, hlog₁, hview₁⟩ :=
    inodeLock_run env sb hnull hop hlock
  have hlh₁ : s₁.log.lh = [] := by
    rw [hlog₁]
    exact hidle.lh
  dsimp only at hrun₁ hview₁
  obtain ⟨ip, hip⟩ : ∃ ip, lockedCopy env sb f.ip s.world = ip := ⟨_, rfl⟩
  rw [hip] at hfile ⊢
  have hcopy : (lockedInode env sb f.ip s.world).copy = ip := hip
  have hinum₁ : (lockedInode env sb f.ip s.world).inum = f.ip.inum := rfl
  obtain ⟨r, s₂, hrun₂, k, hk, hans, hsize, hop₂, hfive, hstored⟩ :=
    (inodeWrite_ends f.ip.inum src hnull hfile hroom hn hfits hop₁ hlh₁).returns
  rw [← hcopy, ← hinum₁] at hrun₂
  obtain ⟨s₃, hrun₃, hidle₃, hview₃⟩ := hop₂.ended hnull
  obtain ⟨lip, hunlock, hfree, hinum, hcopy', hloads⟩ :=
    unlocked_inode env sb hlock (hnull s.world.reads) r.2
  have hbound : ndirect * bsize < 2 ^ 31 := by decide
  have hrun : (writePiece env sb f src n).run s = .ok (r.1, { f with
      off := if 0 < r.1.toInt then f.off + r.1 else f.off
      ip := lip }, s₂.log.lh) s₃ := by
    rw [writePiece, bind_ok hbegin, bind_ok hrun₁, bind_ok hrun₂, bind_ok hrun₃, ← hunlock]
    rfl
  refine .of_ok hrun ⟨⟨k, hk, hans, ?_⟩, hop₂.fits.nodup, ?_⟩
  · refine ⟨hidle₃, ?_, advanced_off hans (by omega), hfree, hinum, ?_⟩
    · have hlocked : Stored area ip (iblock f.ip.inum sb) s.world s₁.world src f.off.toNat 0 :=
        .of_view hfile (fun b _ _ => hview₁ b) src _
      have hall := (hlocked.append k (by simpa using hstored)).append 0
        (.of_view hfile (fun b _ hb => hview₃ b hb) _ _)
      simpa using hall
    · rw [lockedCopy, hloads, Bool.false_and, if_neg Bool.false_ne_true, hcopy', hsize]
      rfl
  · exact Nat.le_trans hfive (by decide)

/-! ## 6. All pieces -/

/-- **Pieces written one after the other.** -/
theorem Moved.append (h : Moved env sb area ip home src f f' s s' k)
    (h' : Moved env sb area ip' home (fun i => src (k + i)) f' f'' s' s'' k')
    (hip : blockOf ip' = blockOf ip) : Moved env sb area ip home src f f'' s s'' (k + k') where
  idle := h'.idle
  stored := by
    have hstored := h'.stored.congr hip
    rw [h.off] at hstored
    exact h.stored.append _ hstored
  off := by rw [h'.off, h.off, Nat.add_assoc]
  lock := h'.lock
  inum := h'.inum.trans h.inum
  blocks := h'.blocks.trans hip

/-- The length of a piece. -/
theorem pieceLen_toNat {i : BitVec 32} (hi : i.toNat ≤ n.toNat) (hn : n.toNat < 2 ^ 31) :
    (pieceLen n i).toNat = min maxPiece (n.toNat - i.toNat) := by
  have hsub : (n - i).toNat = n.toNat - i.toNat := BitVec.toNat_sub_of_le hi
  have hint := BitVec.toInt_eq_toNat_of_lt (x := n - i) (by omega)
  have hmax : (BitVec.ofNat 32 maxPiece).toNat = maxPiece := rfl
  rw [pieceLen]
  split
  case isTrue => omega
  case isFalse => omega

/-- A piece is written in full exactly when the result says so. -/
theorem Answers.eq_iff {r m : BitVec 32} {k : Nat} (h : Answers r k) (hpos : 0 < m.toNat)
    (hm : m.toNat < 2 ^ 31) : r = m ↔ k = m.toNat := by
  rcases h with hr | ⟨rfl, rfl⟩
  · rw [← hr]
    exact ⟨congrArg BitVec.toNat, BitVec.eq_of_toNat_eq⟩
  · refine ⟨?_, fun hzero => by omega⟩
    rintro rfl
    have hneg : (-1 : BitVec 32).toNat = 4294967295 := rfl
    omega

/-- **The loop of `file_write`** comes to its end; `i` is `n` exactly when all bytes are written. -/
theorem pieceLoop_ends (hnull : ∀ r, env.null r = false)
    (hfile : PlacedFile area ip (iblock f.ip.inum sb)) (hroom : 5 ≤ area.layout.capacity)
    (hfits : f.off.toNat + n.toNat ≤ ndirect * bsize) :
    ∀ (fuel : Nat) (i : BitVec 32) (f' : OpenFile) (ops : List (List BlockNo)) (s' : FileState),
      i.toNat ≤ n.toNat → n.toNat - i.toNat ≤ fuel →
      Moved env sb area ip (iblock f.ip.inum sb) src f f' s s' i.toNat →
      (∀ bs ∈ ops, bs.Nodup ∧ bs.length ≤ maxOpBlocks) →
      Ends (pieceLoop env sb src n fuel i f' ops) s'
        (fun r t => (∃ k ≤ n.toNat, (r.1 = n ↔ k = n.toNat) ∧
          Moved env sb area ip (iblock f.ip.inum sb) src f r.2.1 s t k) ∧
          ∀ bs ∈ r.2.2, bs.Nodup ∧ bs.length ≤ maxOpBlocks) fun _ _ => False := by
  have hbound : ndirect * bsize < 2 ^ 31 := by decide
  intro fuel
  induction fuel with
  | zero =>
    intro i f' ops s' hi hfuel hmoved hops
    obtain rfl : i = n := BitVec.eq_of_toNat_eq (by omega)
    exact ⟨⟨i.toNat, hi, by simp, hmoved⟩, hops⟩
  | succ fuel ih =>
    intro i f' ops s' hi hfuel hmoved hops
    have hint := BitVec.toInt_eq_toNat_of_lt (x := i) (by omega)
    have hintn := BitVec.toInt_eq_toNat_of_lt (x := n) (by omega)
    rw [pieceLoop]
    by_cases hlt : i.toInt < n.toInt
    case neg =>
      rw [if_neg hlt]
      obtain rfl : i = n := BitVec.eq_of_toNat_eq (by omega)
      exact ⟨⟨i.toNat, hi, by simp, hmoved⟩, hops⟩
    rw [if_pos hlt]
    have hlen := pieceLen_toNat (n := n) hi (by omega)
    have hmax : maxPiece = 1536 := rfl
    generalize pieceLen n i = m at hlen ⊢
    have hblocks := hmoved.blocks
    have hoff := hmoved.off
    refine (writePiece_ends (f := f') hnull (by rw [hmoved.inum]; exact hfile.congr hblocks) hroom
      (by omega) (by omega) hmoved.idle hmoved.lock).bind ?_
    rintro ⟨r, f'', logged⟩ t ⟨⟨k, hk, hans, hpiece⟩, hnodup, hfew⟩
    rw [hmoved.inum] at hpiece
    have hall := hmoved.append hpiece hblocks
    have hops' : ∀ bs ∈ logged :: ops, bs.Nodup ∧ bs.length ≤ maxOpBlocks := by
      intro bs hbs
      rcases List.mem_cons.mp hbs with rfl | hbs
      · exact ⟨hnodup, hfew⟩
      · exact hops bs hbs
    have hanswer := hans.eq_iff (m := m) (by omega) (by omega)
    dsimp only
    split
    case isTrue hr =>
      obtain rfl := hanswer.mp hr
      subst hr
      have hnext : (i + r).toNat = i.toNat + r.toNat := by
        rw [BitVec.toNat_add]
        omega
      rw [← hnext] at hall
      exact ih _ _ _ _ (by omega) (by omega) hall hops'
    case isFalse hr =>
      have hshort : k ≠ m.toNat := fun he => hr (hanswer.mpr he)
      have hne : i ≠ n := by
        rintro rfl
        omega
      exact ⟨⟨i.toNat + k, by omega, ⟨fun he => absurd he hne, fun he => by omega⟩, hall⟩, hops'⟩

end Piece

/-- **`file_write` accounts for every byte**: whatever direct blocks a writable file has, its size
and its offset, the bytes it stores are the first `k` of `src`, from the old offset on; the offset
grows by `k`; the result is `n` when these are all, and -1 otherwise; and no operation logs more
than `MAXOPBLOCKS` blocks. -/
theorem fileWrite_accounts (env : Env) (sb : Superblock) (area : LogArea) (f : OpenFile)
    (src : Nat → BitVec 8) (s : FileState) (n : BitVec 32) (h : Called env sb area f s n)
    (hwritable : f.writable = true)
    (hapart : ∀ i < ndirect, blockOf (lockedCopy env sb f.ip s.world) i ≠ 0 →
      blockOf (lockedCopy env sb f.ip s.world) i ≠ iblock f.ip.inum sb ∧
        ¬ area.Inside (blockOf (lockedCopy env sb f.ip s.world) i))
    (hhome : ¬ area.Inside (iblock f.ip.inum sb)) : Accounts env sb area f src s n := by
  have hbound : ndirect * bsize < 2 ^ 31 := by decide
  have hfits := h.fits
  have hzero : (0 : BitVec 32).toNat = 0 := rfl
  have hint := BitVec.toInt_eq_toNat_of_lt (x := n) (by omega)
  have hfile : PlacedFile area (lockedCopy env sb f.ip s.world) (iblock f.ip.inum sb) :=
    ⟨h.distinct, fun i hi hne => (hapart i hi hne).1, fun i hi hne => (hapart i hi hne).2, hhome⟩
  have hstart : Moved env sb area (lockedCopy env sb f.ip s.world) (iblock f.ip.inum sb) src f f
      s s (0 : BitVec 32).toNat :=
    ⟨h.idle, .of_view hfile (fun _ _ _ => rfl) src _, rfl, h.lock, rfl, rfl⟩
  have hends := pieceLoop_ends h.null hfile h.room hfits n.toInt.toNat 0 f [] s (Nat.zero_le _)
    (by omega) hstart fun bs hbs => absurd hbs List.not_mem_nil
  obtain ⟨⟨i, f', ops⟩, s', hrun, ⟨k, hk, hdone, hmoved⟩, hops⟩ := hends.returns
  refine ⟨if i = n then n else -1, f', ops, s', k, ?_, hk, hmoved.stored, hmoved.off, ?_, hops⟩
  · rw [fileWrite, if_pos hwritable, h.type]
    dsimp only
    rw [bind_ok hrun]
    rfl
  · dsimp only at hdone
    simp only [hdone]

/-- A file with its third block missing: 1025 bytes are asked for, in one operation, and 1024
written. -/
def openHole : OpenFile :=
  { openShort with
    ip := ⟨1, 1, 1, none, true, { shortFile with
      addrs := fun i => if i.val = 2 then 0 else 100 + BitVec.ofNat 32 i.val }⟩ }

theorem fileWrite_accounts_hole :
    Accounts ⟨1, fun _ => false, fun _ => true⟩ smallFs fsLog openHole (fun i => BitVec.ofNat 8 i)
      idleFiles 1025 := by
  refine fileWrite_accounts ⟨1, fun _ => false, fun _ => true⟩ smallFs fsLog openHole
    (fun i => BitVec.ofNat 8 i) idleFiles 1025 ⟨fun _ => rfl, by decide, ?idle, rfl, rfl, ?distinct,
      by decide⟩ rfl ?apart ?home
  case idle => exact ⟨⟨rfl, rfl⟩, rfl, rfl, rfl, ready_boot _⟩
  case distinct => decide +kernel
  case apart =>
    have hnames : ∀ i < ndirect, blockOf openHole.ip.copy i ≠ 0 →
        blockOf openHole.ip.copy i ≠ 32 ∧ 32 ≤ (blockOf openHole.ip.copy i).toNat := by
      decide +kernel
    intro i hi hne
    obtain ⟨hother, hlow⟩ := hnames i hi hne
    exact ⟨hother, fun hin => absurd (Nat.lt_of_le_of_lt hlow hin.2) (by decide)⟩
  case home => exact fun hin => absurd hin.2 (by decide)

/-- An empty file whose first block is `b`; it has no other. -/
def openAt (b : BlockNo) (writable : Bool) : OpenFile :=
  { type := .inode
    readable := true
    writable := writable
    pipe := .alloc fun _ => 0
    ip := ⟨1, 1, 1, none, true, { shortFile with
      size := 0
      addrs := fun i => if i.val = 0 then b else 0 }⟩
    off := 0 }

theorem idleFiles_called (b : BlockNo) (writable : Bool) {n : BitVec 32}
    (hn : n.toNat ≤ ndirect * bsize) :
    Called ⟨1, fun _ => false, fun _ => true⟩ smallFs fsLog (openAt b writable) idleFiles n where
  null _ := rfl
  room := by decide
  idle := ⟨⟨rfl, rfl⟩, rfl, rfl, rfl, ready_boot _⟩
  type := rfl
  lock := rfl
  distinct := by
    have hzero : ∀ i < ndirect, blockOf (openAt b writable).ip.copy i ≠ 0 → i = 0 := by
      intro i hi hne
      by_contra hi0
      have hmod : i % (ndirect + 1) = i := Nat.mod_eq_of_lt (Nat.lt_succ_of_lt hi)
      refine hne (if_neg ?_)
      change ¬ i % (ndirect + 1) = 0
      rwa [hmod]
    intro i hi j hj heq hne
    exact (hzero i hi hne).trans (hzero j hj fun h => hne (heq.trans h)).symm
  fits := by simpa [openAt] using hn

/-- A call that says it has written `n` bytes, and of which one byte is not there. -/
theorem not_accounts {env : Env} {sb : Superblock} {area : LogArea} {f : OpenFile}
    {src : Nat → BitVec 8} {s : FileState} {n : BitVec 32} (o : Nat)
    (hresult : (returned ((fileWrite env sb f src n).run s)).map Prod.fst = some n)
    (hn : n ≠ -1) (ho : o < n.toNat) (hoff : f.off = 0) (hdirect : o < ndirect * bsize)
    (hblock : blockOf (lockedCopy env sb f.ip s.world) (o / bsize) ≠ 0)
    (hbyte : byteAt (finalState ((fileWrite env sb f src n).run s)).world
      (lockedCopy env sb f.ip s.world) o ≠ src o) : ¬ Accounts env sb area f src s n := by
  rintro ⟨r, f', ops, s', k, hrun, hacc⟩
  rw [hrun] at hresult hbyte
  have hr : r = n := Option.some.inj hresult
  have hk : k = n.toNat := by
    by_contra hne
    have hneg := hacc.result
    rw [if_neg hne, hr] at hneg
    exact hn hneg
  have hzero : f.off.toNat = 0 := congrArg BitVec.toNat hoff
  refine hbyte ((hacc.stored.bytes o hdirect hblock).trans ?_)
  rw [overlay, hzero, hk, if_pos ⟨Nat.zero_le _, by omega⟩, Nat.sub_zero]

/-- `file_write` goes wrong where the first block of the file is the block of its inode, or the
header of the log; and a file that is not writable refuses no bytes at all. -/
theorem file_write_unaccounted :
    (Called ⟨1, fun _ => false, fun _ => true⟩ smallFs fsLog (openAt 32 true) idleFiles 65 ∧
      ¬ Accounts ⟨1, fun _ => false, fun _ => true⟩ smallFs fsLog (openAt 32 true) (fun _ => 7)
        idleFiles 65) ∧
    (Called ⟨1, fun _ => false, fun _ => true⟩ smallFs fsLog (openAt 2 true) idleFiles 1 ∧
      ¬ Accounts ⟨1, fun _ => false, fun _ => true⟩ smallFs fsLog (openAt 2 true) (fun _ => 7)
        idleFiles 1) ∧
    (Called ⟨1, fun _ => false, fun _ => true⟩ smallFs fsLog (openAt 100 false) idleFiles 0 ∧
      ¬ Accounts ⟨1, fun _ => false, fun _ => true⟩ smallFs fsLog (openAt 100 false) (fun _ => 7)
        idleFiles 0) := by
  refine ⟨⟨idleFiles_called _ _ (by decide), ?_⟩, ⟨idleFiles_called _ _ (by decide), ?_⟩,
    ⟨idleFiles_called _ _ (by decide), ?_⟩⟩
  · -- `inode_update` has stored the type of the inode at the byte 64
    exact not_accounts 64 (by decide +kernel) (by decide) (by decide) rfl (by decide)
      (by decide +kernel) (by decide +kernel)
  · -- the last `write_head` has stored the length of the log at the byte 0
    exact not_accounts 0 (by decide +kernel) (by decide) (by decide) rfl (by decide)
      (by decide +kernel) (by decide +kernel)
  · rintro ⟨r, f', ops, s', k, hrun, hacc⟩
    cases hrun
    have hk : k = 0 := Nat.le_zero.mp hacc.le
    have hresult := hacc.result
    rw [if_pos (by rw [hk]; rfl)] at hresult
    exact absurd hresult (by decide)

end Lithium.Wal
