/-
# Inodes on the disk

`inode.h`: the superblock, and the inodes as they lie in the blocks of the inode region, eight of
64 bytes in a block.
-/
import Lithium.Fs.Log

namespace Lithium

/-! ## 1. The superblock -/

namespace Wal

/-- `struct superblock`. -/
structure Superblock where
  magic : BitVec 32
  size : BitVec 32
  nblocks : BitVec 32
  ninodes : BitVec 32
  nlog : BitVec 32
  logstart : BitVec 32
  inodestart : BitVec 32
  bmapstart : BitVec 32

/-- `FSMAGIC`. -/
def fsMagic : BitVec 32 := 0x10203040

/-- `IPB`: a `struct dinode` has 64 bytes. -/
def ipb : Nat := bsize / 64

/-- `IBLOCK`. -/
def iblock (inum : BitVec 32) (sb : Superblock) : BlockNo :=
  BitVec.ofNat 32 (inum.toNat / ipb + sb.inodestart.toNat)

/-- The copy of block 1 to `sb` in `inode_init`. -/
def Superblock.ofBlock (b : Block) : Superblock where
  magic := b.word 0
  size := b.word 1
  nblocks := b.word 2
  ninodes := b.word 3
  nlog := b.word 4
  logstart := b.word 5
  inodestart := b.word 6
  bmapstart := b.word 7

end Wal

/-! ## 2. Inodes -/

/-- `NDIRECT`. -/
abbrev ndirect : Nat := 12

/-- `struct dinode`. -/
structure Dinode where
  type : BitVec 16
  major : BitVec 16
  minor : BitVec 16
  nlink : BitVec 16
  size : BitVec 32
  addrs : Fin (ndirect + 1) → BitVec 32

/-- The 32-bit little-endian word `j` of a `struct dinode`. -/
def Dinode.word (d : Dinode) : Nat → BitVec 32
  | 0 => d.major ++ d.type
  | 1 => d.nlink ++ d.minor
  | 2 => d.size
  | j + 3 => d.addrs (Fin.ofNat (ndirect + 1) j)

/-- `addrs[i]`. -/
def Dinode.addr (d : Dinode) (i : Nat) : BlockNo := d.addrs (Fin.ofNat (ndirect + 1) i)

/-- The `struct dinode` with given words. -/
def Dinode.ofWords (f : Nat → BitVec 32) : Dinode where
  type := (f 0).extractLsb' 0 16
  major := (f 0).extractLsb' 16 16
  minor := (f 1).extractLsb' 0 16
  nlink := (f 1).extractLsb' 16 16
  size := f 2
  addrs j := f (j + 3)

@[simp] theorem Dinode.ofWords_word (d : Dinode) : Dinode.ofWords d.word = d := by
  obtain ⟨type, major, minor, nlink, size, addrs⟩ := d
  simp only [Dinode.ofWords, Dinode.word, Fin.ofNat_val_eq_self]
  congr 1
  · exact BitVec.extractLsb'_append_eq_right
  · exact BitVec.extractLsb'_append_eq_left
  · exact BitVec.extractLsb'_append_eq_right
  · exact BitVec.extractLsb'_append_eq_left

/-- `(struct dinode *)b->data + k`. -/
def Block.dinode (b : Block) (k : Nat) : Dinode := Dinode.ofWords fun j => b.word (16 * k + j)

/-- Assign all the fields of that `struct dinode`. -/
def Block.setDinode (b : Block) (k : Nat) (d : Dinode) : Block :=
  (List.range 16).foldl (fun b j => b.setWord (16 * k + j) (d.word j)) b

/-- A word of the block after the first assignments. -/
theorem word_setDinode_part (b : Block) (k m : Nat) (d : Dinode) (hm : m < 128) : ∀ n : Nat,
    ((List.range n).foldl (fun b j => b.setWord (16 * k + j) (d.word j)) b).word m
      = if 16 * k ≤ m ∧ m < 16 * k + n then d.word (m - 16 * k) else b.word m
  | 0 => by
    rw [if_neg (by omega)]
    rfl
  | n + 1 => by
    rw [List.range_succ, List.foldl_append, List.foldl_cons, List.foldl_nil,
      Block.word_setWord _ _ hm, word_setDinode_part b k m d hm n]
    by_cases hlast : m = 16 * k + n
    · rw [if_pos hlast, if_pos (by omega), hlast, Nat.add_sub_cancel_left]
    · rw [if_neg hlast]
      by_cases hin : 16 * k ≤ m ∧ m < 16 * k + n
      · rw [if_pos hin, if_pos (by omega)]
      · rw [if_neg hin, if_neg (by omega)]

/-- **The inodes of a block** after one of them is assigned. -/
theorem Block.dinode_setDinode (b : Block) {k k' : Nat} (d : Dinode) (hk' : k' < Wal.ipb) :
    (b.setDinode k d).dinode k' = if k' = k then d else b.dinode k' := by
  have hk' : k' < 8 := hk'
  have hword : ∀ j < 16, (b.setDinode k d).word (16 * k' + j)
      = if k' = k then d.word j else b.word (16 * k' + j) := by
    intro j hj
    rw [Block.setDinode, word_setDinode_part b k _ d (by omega)]
    by_cases hkk : k' = k
    · rw [if_pos hkk, if_pos (by omega), hkk, Nat.add_sub_cancel_left]
    · rw [if_neg hkk, if_neg (by omega)]
  have hfields : ∀ f g : Nat → BitVec 32, (∀ j < 16, f j = g j) →
      Dinode.ofWords f = Dinode.ofWords g := by
    intro f g hfg
    simp only [Dinode.ofWords, hfg 0 (by omega), hfg 1 (by omega), hfg 2 (by omega)]
    congr 1
    funext j
    exact hfg (j + 3) (by have := j.isLt; simp only [ndirect] at this; omega)
  rw [Block.dinode, hfields _ _ hword]
  by_cases hkk : k' = k
  · simp only [if_pos hkk]
    exact d.ofWords_word
  · simp only [if_neg hkk]
    rfl

namespace Wal

/-- The slot of an inode in its block. -/
def inodeSlot (inum : BitVec 32) : Nat := inum.toNat % ipb

theorem inodeSlot_lt (inum : BitVec 32) : inodeSlot inum < ipb := Nat.mod_lt _ (by decide)

/-- Two inodes lie in different blocks, or in different slots. -/
theorem inode_place {sb : Superblock} {m n : BitVec 32} (hb : iblock m sb = iblock n sb)
    (hs : inodeSlot m = inodeSlot n) : m = n := by
  have hm := m.isLt
  have hn := n.isLt
  have hi := sb.inodestart.isLt
  have he := congrArg BitVec.toNat hb
  have hipb : ipb = 8 := rfl
  simp only [iblock, inodeSlot, BitVec.toNat_ofNat, hipb] at he hs
  refine BitVec.eq_of_toNat_eq ?_
  omega

end Wal

end Lithium
