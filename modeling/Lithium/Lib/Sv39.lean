/-
# The Sv39 translation

Address translation as the RISC-V privileged architecture defines it for Sv39, without
permissions and without the accessed and dirty bits: the walk from the root table in `satp` over
physical memory, `none` for a page fault or an access fault.
-/
import Mathlib.Data.BitVec

namespace Sv39

/-! ## 1. Fields -/

/-- The index of `va` in a table of level `i`. -/
def vpn (va : BitVec 64) (i : Nat) : BitVec 64 := (va.extractLsb' (12 + 9 * i) 9).setWidth 64

/-- The physical page number of an entry, its bits 53 to 10. -/
def ppn (pte : BitVec 64) : BitVec 64 := (pte.extractLsb' 10 44).setWidth 64

/-- The flags of an entry. -/
def valid (pte : BitVec 64) : Bool := pte.getLsbD 0

def readable (pte : BitVec 64) : Bool := pte.getLsbD 1

def writable (pte : BitVec 64) : Bool := pte.getLsbD 2

def executable (pte : BitVec 64) : Bool := pte.getLsbD 3

/-- An entry that translates; the other valid entries point to the next table. -/
def isLeaf (pte : BitVec 64) : Bool := readable pte || executable pte

/-- The bits 63 to 39 all equal bit 38. -/
def Canonical (va : BitVec 64) : Prop := ∀ i, i < 64 → 39 ≤ i → va.getLsbD i = va.getLsbD 38

instance (va : BitVec 64) : Decidable (Canonical va) :=
  inferInstanceAs (Decidable (∀ i, i < 64 → 39 ≤ i → va.getLsbD i = va.getLsbD 38))

/-! ## 2. The walk -/

/-- The address a leaf of level `i` gives; a superpage has to be aligned. -/
def leafAddress (i : Nat) (pte va : BitVec 64) : Option (BitVec 64) :=
  if ppn pte &&& (((1 : BitVec 64) <<< (9 * i)) - 1) ≠ 0 then none
  else some ((ppn pte <<< 12) ||| (va &&& (((1 : BitVec 64) <<< (12 + 9 * i)) - 1)))

/-- The walk from a table of level `i` at `base`. -/
def walk (mem : BitVec 64 → Option (BitVec 64)) (va : BitVec 64) (i : Nat) (base : BitVec 64) :
    Option (BitVec 64) :=
  match mem (base + 8 * vpn va i) with
  | none => none
  | some pte =>
    if !valid pte || (!readable pte && writable pte) then none
    else if isLeaf pte then leafAddress i pte va
    else
      match i with
      | 0 => none
      | i + 1 => walk mem va i (ppn pte <<< 12)

/-- The translation of `va` under `satp`, whose mode is 8 for Sv39 and which has the physical
page number of the root in its bits 43 to 0. -/
def translate (mem : BitVec 64 → Option (BitVec 64)) (satp va : BitVec 64) : Option (BitVec 64) :=
  if satp.extractLsb' 60 4 ≠ 8 then some va
  else if Canonical va then walk mem va 2 ((satp.extractLsb' 0 44).setWidth 64 <<< 12)
  else none

/-! ## 3. Rules -/

/-- Through a pointer to the next table. -/
theorem walk_pointer {mem : BitVec 64 → Option (BitVec 64)} {va base pte : BitVec 64} {i : Nat}
    (hmem : mem (base + 8 * vpn va (i + 1)) = some pte) (hv : valid pte = true)
    (hr : readable pte = false) (hw : writable pte = false) (hx : executable pte = false) :
    walk mem va (i + 1) base = walk mem va i (ppn pte <<< 12) := by
  rw [walk, hmem]
  simp [hv, hr, hw, hx, isLeaf]

/-- Outside physical memory. -/
theorem walk_fault {mem : BitVec 64 → Option (BitVec 64)} {va base : BitVec 64} {i : Nat}
    (hmem : mem (base + 8 * vpn va i) = none) : walk mem va i base = none := by
  unfold walk
  rw [hmem]

/-- The canonical address with the same 39 low bits. -/
def canonicalize (va : BitVec 64) : BitVec 64 := (va.setWidth 39).signExtend 64

theorem canonicalize_getLsbD {va : BitVec 64} {i : Nat} (hi : i < 39) :
    (canonicalize va).getLsbD i = va.getLsbD i := by
  rw [canonicalize, BitVec.getLsbD_signExtend]
  simp [hi, show i < 64 by omega]

theorem canonicalize_canonical (va : BitVec 64) : Canonical (canonicalize va) := by
  intro i hi hge
  rw [canonicalize_getLsbD (i := 38) (by omega), canonicalize,
    BitVec.getLsbD_signExtend, if_neg (by omega), BitVec.msb_eq_getLsbD_last]
  simp [hi]

theorem vpn_toNat_lt (va : BitVec 64) (i : Nat) : (vpn va i).toNat < 512 := by
  rw [vpn, BitVec.toNat_setWidth]
  exact Nat.lt_of_le_of_lt (Nat.mod_le _ _) (BitVec.isLt _)

end Sv39
