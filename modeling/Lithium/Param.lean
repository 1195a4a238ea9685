/-
# Constants and base types

The constants of `param.h` and `globals.h`, and the fixed-width types the kernel's data is made
of.  A disk block is `BSIZE` bytes; block numbers are `uint32`.
-/
import Mathlib.Data.BitVec
import Mathlib.Data.Fintype.Basic

namespace Lithium

/-- `BSIZE`: bytes in a disk block. -/
abbrev bsize : Nat := 512

/-- `NBUF`: buffers in the block cache. -/
abbrev nbuf : Nat := 30

/-- `MAXOPBLOCKS`: blocks one file-system operation may write. -/
abbrev maxOpBlocks : Nat := 10

/-- `LOGSIZE`: blocks of the log, as `fs_init` passes it to `log_init`. -/
abbrev logSize : Nat := maxOpBlocks * 3

/-- `NPROC`: entries of `proc_table`. -/
abbrev nproc : Nat := 64

instance : NeZero nproc := ⟨by decide⟩

/-- A `uint32` block number. -/
abbrev BlockNo := BitVec 32

/-- The contents of one disk block. -/
abbrev Block := Fin bsize → BitVec 8

/-- What the disk holds, one block after the other. -/
abbrev Disk := BlockNo → Block

/-- A process identifier, a C `int`. -/
abbrev Pid := BitVec 32

end Lithium
