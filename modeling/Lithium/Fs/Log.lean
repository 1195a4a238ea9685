/-
# The log in memory

`log.c`: `struct log`, the critical sections of `log_begin_op`, `log_write` and `log_end_op`, and
the way `write_head` lays `log.lh` out in a disk block and `read_head` takes it back.

`lh` is the list `log.lh.block[0 .. n)`; `n` is its length.  What lies behind `n` in the array is
never read.  `log.dev` is left out: there is one disk.
-/
import Lithium.Param

namespace Lithium

/-! ## 1. The words of a block -/

/-- The 32-bit little-endian word `k` of a block. -/
def Block.word (b : Block) (k : Nat) : BitVec 32 :=
  b (Fin.ofNat bsize (4 * k + 3)) ++ b (Fin.ofNat bsize (4 * k + 2)) ++
    b (Fin.ofNat bsize (4 * k + 1)) ++ b (Fin.ofNat bsize (4 * k))

/-- The byte `i` of a block. -/
def Block.byte (b : Block) (i : Nat) : BitVec 8 := b (Fin.ofNat bsize i)

/-- Store a 32-bit word at index `k`. -/
def Block.setWord (b : Block) (k : Nat) (v : BitVec 32) : Block :=
  fun i => if i.val / 4 = k then v.extractLsb' (8 * (i.val % 4)) 8 else b i

theorem Block.setWord_byte (b : Block) {k m j : Nat} (v : BitVec 32) (hm : m < 128) (hj : j < 4) :
    b.setWord k v (Fin.ofNat bsize (4 * m + j))
      = if m = k then v.extractLsb' (8 * j) 8 else b (Fin.ofNat bsize (4 * m + j)) := by
  have hval : (Fin.ofNat bsize (4 * m + j)).val = 4 * m + j := by
    simp only [Fin.ofNat, bsize]
    omega
  have hdiv : (4 * m + j) / 4 = m := by omega
  have hmod : (4 * m + j) % 4 = j := by omega
  simp only [Block.setWord, hval, hdiv, hmod]

theorem append_extracts (v : BitVec 32) :
    v.extractLsb' 24 8 ++ v.extractLsb' 16 8 ++ v.extractLsb' 8 8 ++ v.extractLsb' 0 8 = v := by
  ext i hi
  simp only [BitVec.getElem_append, BitVec.getElem_extractLsb']
  split
  · simp [BitVec.getLsbD_eq_getElem hi]
  · split
    · rw [BitVec.getLsbD_eq_getElem (by omega)]
      congr 1
      omega
    · split
      all_goals
        rw [BitVec.getLsbD_eq_getElem (by omega)]
        congr 1
        omega

theorem Block.word_setWord (b : Block) {k m : Nat} (v : BitVec 32) (hm : m < 128) :
    (b.setWord k v).word m = if m = k then v else b.word m := by
  have h0 := b.setWord_byte (k := k) (m := m) (j := 0) v hm (by omega)
  rw [Nat.add_zero] at h0
  simp only [Block.word, h0, b.setWord_byte v hm (show 1 < 4 by omega),
    b.setWord_byte v hm (show 2 < 4 by omega), b.setWord_byte v hm (show 3 < 4 by omega)]
  split
  · exact append_extracts v
  · rfl

/-! ## 2. The header block -/

/-- `write_head`, the part that fills the block: `n`, then the block numbers. -/
def putHead (data : Block) (lh : List BlockNo) : Block :=
  lh.zipIdx.foldl (fun d p => d.setWord (p.2 + 1) p.1) (data.setWord 0 (BitVec.ofNat 32 lh.length))

/-- `read_head`, the part that reads the block.  `none` when `n` would drive the loop past the
end of `log.lh.block`; a negative `n` runs no loop at all. -/
def getHead (data : Block) : Option (List BlockNo) :=
  if (data.word 0).toInt > logSize then none
  else some ((List.range (data.word 0).toInt.toNat).map fun i => data.word (i + 1))

/-- A word of the block while the loop of `write_head` fills it. -/
theorem word_foldl_setWord : ∀ (lh : List BlockNo) (k : Nat) (d : Block) (m : Nat), m < 128 →
    ((lh.zipIdx k).foldl (fun d p => d.setWord (p.2 + 1) p.1) d).word m
      = if k < m ∧ m ≤ k + lh.length then lh.getD (m - k - 1) 0 else d.word m := by
  intro lh
  induction lh with
  | nil =>
    intro k d m _
    rw [if_neg (by simp)]
    rfl
  | cons a lh ih =>
    intro k d m hm
    rw [List.zipIdx_cons, List.foldl_cons, ih (k + 1) _ m hm, Block.word_setWord d a hm]
    simp only [List.length_cons]
    rcases Nat.lt_trichotomy m (k + 1) with h | h | h
    · rw [if_neg (by omega), if_neg (by omega), if_neg (by omega)]
    · rw [if_neg (by omega), if_pos h, if_pos (by omega)]
      have h0 : m - k - 1 = 0 := by omega
      rw [h0]
      rfl
    · have hs : m - k - 1 = (m - (k + 1) - 1) + 1 := by omega
      rw [hs, List.getD_cons_succ, if_neg (show ¬ m = k + 1 by omega)]
      by_cases hle : m ≤ k + (lh.length + 1)
      · rw [if_pos (by omega), if_pos (by omega)]
      · rw [if_neg (by omega), if_neg (by omega)]

/-- **The header survives the disk**: what `write_head` stored, `read_head` reads. -/
theorem getHead_putHead (data : Block) {lh : List BlockNo} (hlen : lh.length ≤ logSize) :
    getHead (putHead data lh) = some lh := by
  have hlen' : lh.length ≤ 30 := hlen
  have hn : (putHead data lh).word 0 = BitVec.ofNat 32 lh.length := by
    rw [putHead, word_foldl_setWord lh 0 _ 0 (by omega), if_neg (by omega),
      Block.word_setWord data _ (by omega), if_pos rfl]
  have hint : (BitVec.ofNat 32 lh.length).toInt = lh.length := by
    have hmod : lh.length % 2 ^ 32 = lh.length := Nat.mod_eq_of_lt (by omega)
    rw [BitVec.toInt_eq_toNat_of_lt] <;> rw [BitVec.toNat_ofNat, hmod]
    omega
  rw [getHead, hn, hint, if_neg (by simp only [logSize, maxOpBlocks]; omega), Int.toNat_natCast]
  congr 1
  refine List.ext_getElem (by simp) ?_
  intro i hi hi'
  rw [List.getElem_map, List.getElem_range, putHead, word_foldl_setWord lh 0 _ _ (by omega),
    if_pos (by omega), show i + 1 - 0 - 1 = i by omega]
  simp [hi']

/-- A header whose `n` is 0 announces nothing. -/
theorem getHead_zero {data : Block} (h : data.word 0 = 0) : getHead data = some [] := by
  rw [getHead, h]
  rfl

/-! ## 3. `struct log` -/

/-- `struct log`, without its spinlock: the functions below are its critical sections. -/
structure Log where
  start : Nat
  size : Nat
  outstanding : Int
  committing : Bool
  lh : List BlockNo

/-- `log.start`, as a block number. -/
def Log.header (l : Log) : BlockNo := BitVec.ofNat 32 l.start

/-- `log.start + tail + 1`, as a block number. -/
def Log.slot (l : Log) (tail : Nat) : BlockNo := BitVec.ofNat 32 (l.start + tail + 1)

/-- What `log_write` answered, by its message or its lack of one. -/
inductive LogWritten where
  /-- `"log plein"`. -/
  | full
  /-- `"hors transaction"`. -/
  | outside
  /-- The block was in the log already. -/
  | absorbed
  /-- The block is new in the log, and its buffer pinned. -/
  | recorded
  deriving DecidableEq

/-- `log_write` took the block. -/
def LogWritten.accepted : LogWritten → Bool
  | .absorbed | .recorded => true
  | .full | .outside => false

/-- One pass of the loop of `log_begin_op`: `none` when the caller sleeps. -/
def Log.beginOp (l : Log) : Option Log :=
  if l.committing then none
  else if (l.lh.length : Int) + (l.outstanding + 1) * maxOpBlocks > logSize then none
  else some { l with outstanding := l.outstanding + 1 }

/-- `log_write`, for the block of a buffer. -/
def Log.write (l : Log) (blockno : BlockNo) : Log × LogWritten :=
  if l.lh.length ≥ logSize ∨ (l.lh.length : Int) ≥ l.size - 1 then (l, .full)
  else if l.outstanding < 1 then (l, .outside)
  else if blockno ∈ l.lh then (l, .absorbed)
  else ({ l with lh := l.lh ++ [blockno] }, .recorded)

/-- The first section of `log_end_op`; the flag is `do_commit`. -/
def Log.endOp (l : Log) : Log × Bool :=
  let l := { l with outstanding := l.outstanding - 1 }
  if l.outstanding = 0 then ({ l with committing := true }, true) else (l, false)

/-- The last section of `log_end_op`, after `commit`. -/
def Log.endCommit (l : Log) : Log := { l with committing := false }

/-! ## 4. What the calls do -/

namespace Log

/-- **`log_begin_op`**, when it does not sleep. -/
theorem beginOp_cases {l l' : Log} (h : l.beginOp = some l') :
    l.committing = false ∧ l' = { l with outstanding := l.outstanding + 1 } := by
  unfold Log.beginOp at h
  split at h
  case isTrue => exact absurd h (by simp)
  case isFalse hc =>
    split at h
    · exact absurd h (by simp)
    · exact ⟨by simpa using hc, (Option.some.inj h).symm⟩

/-- `log_end_op` closes an operation. -/
theorem endOp_eq (l : Log) : l.endOp.1.size = l.size ∧ l.endOp.1.lh = l.lh ∧
    l.endOp.1.outstanding = l.outstanding - 1 := by
  unfold Log.endOp
  by_cases h : l.outstanding - 1 = 0
  · simp [h]
  · simp [h]

/-- **`log_write`** refuses the block, or finds it in the log, or puts it there. -/
theorem write_cases (l : Log) (b : BlockNo) :
    ((l.write b).1 = l ∧ (l.write b).2.accepted = false) ∨
    (b ∈ l.lh ∧ l.write b = (l, .absorbed)) ∨
    (b ∉ l.lh ∧ l.lh.length + 1 < l.size ∧
      l.write b = ({ l with lh := l.lh ++ [b] }, .recorded)) := by
  unfold Log.write
  split
  case isTrue => exact Or.inl ⟨rfl, rfl⟩
  case isFalse hroom =>
    split
    case isTrue => exact Or.inl ⟨rfl, rfl⟩
    case isFalse =>
      split
      case isTrue hmem => exact Or.inr (Or.inl ⟨hmem, rfl⟩)
      case isFalse hmem => exact Or.inr (Or.inr ⟨hmem, by omega, rfl⟩)

/-- `log_write` refuses every block when no operation is open. -/
theorem write_refused {l : Log} (h : l.outstanding = 0) (b : BlockNo) :
    (l.write b).2.accepted = false := by
  unfold Log.write
  split
  · rfl
  · rw [if_pos (by omega)]
    rfl

/-- **`log_write` with room left** records the block, or finds it recorded. -/
theorem write_of_room {l : Log} (b : BlockNo) (hsize : l.size = logSize)
    (hout : 1 ≤ l.outstanding) (hroom : l.lh.length < logSize - 1) :
    l.write b = if b ∈ l.lh then (l, .absorbed) else ({ l with lh := l.lh ++ [b] }, .recorded) := by
  have hroom' : l.lh.length < 29 := hroom
  unfold Log.write
  rw [if_neg (by rw [hsize]; simp only [logSize, maxOpBlocks]; omega), if_neg (by omega)]

/-- **`log_write` without room** refuses the block, recorded or not. -/
theorem write_of_full {l : Log} (b : BlockNo) (hsize : l.size = logSize)
    (hfull : ¬ l.lh.length < logSize - 1) : l.write b = (l, .full) := by
  have hfull' : ¬ l.lh.length < 29 := hfull
  unfold Log.write
  rw [if_pos (by rw [hsize]; simp only [logSize, maxOpBlocks]; omega)]

end Log

end Lithium
