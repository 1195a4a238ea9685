/-
# Saving registers to memory

A RISC-V processor as far as code needs it that saves its registers in a C struct and loads them
back: `sd`, `ld` and `ret`, over memory by bytes.  The registers are of any type.

`saves b fs` and `loads b fs` are the code for a list of registers with their offsets from the
register `b`.  After `saves` each register is in its place and memory is as it was anywhere else
(`run_saves_load`, `run_saves_mem`); after `loads` each register has what is in its place
(`run_loads_mem`, `run_loads_other`).
-/
import Mathlib.Data.BitVec
import Mathlib.Data.List.Nodup
import Mathlib.Tactic.Common

namespace Lithium.SaveArea

/-! ## 1. Memory -/

/-- Memory, by bytes. -/
abbrev Mem := BitVec 64 → BitVec 8

/-- The 8 bytes of `v` go to `a`, the least significant one first. -/
def storeDouble (m : Mem) (a v : BitVec 64) : Mem := fun x =>
  if (x - a).toNat < 8 then v.extractLsb' (8 * (x - a).toNat) 8 else m x

/-- The word with the bytes `b`. -/
def ofBytes (b : Nat → BitVec 8) : BitVec 64 :=
  b 7 ++ b 6 ++ b 5 ++ b 4 ++ b 3 ++ b 2 ++ b 1 ++ b 0

/-- The 8 bytes at `a`. -/
def loadDouble (m : Mem) (a : BitVec 64) : BitVec 64 := ofBytes fun i => m (a + BitVec.ofNat 64 i)

theorem storeDouble_of_le {m : Mem} {a x : BitVec 64} (h : 8 ≤ (x - a).toNat) (v : BitVec 64) :
    storeDouble m a v x = m x := if_neg (Nat.not_lt.mpr h)

theorem storeDouble_byte (m : Mem) (a v : BitVec 64) {i : Nat} (hi : i < 8) :
    storeDouble m a v (a + BitVec.ofNat 64 i) = v.extractLsb' (8 * i) 8 := by
  have hsub : (a + BitVec.ofNat 64 i - a).toNat = i := by
    rw [BitVec.add_comm, BitVec.add_sub_cancel, BitVec.toNat_ofNat]
    omega
  rw [storeDouble, hsub, if_pos hi]

theorem ofBytes_congr {b b' : Nat → BitVec 8} (h : ∀ i, i < 8 → b i = b' i) :
    ofBytes b = ofBytes b' := by
  simp only [ofBytes, h 0 (by omega), h 1 (by omega), h 2 (by omega), h 3 (by omega),
    h 4 (by omega), h 5 (by omega), h 6 (by omega), h 7 (by omega)]

/-- The bytes of a word make up the word. -/
theorem ofBytes_extract (v : BitVec 64) : ofBytes (fun i => v.extractLsb' (8 * i) 8) = v := by
  apply BitVec.eq_of_getLsbD_eq
  intro i hi
  simp only [ofBytes, BitVec.getLsbD_append, BitVec.getLsbD_extractLsb']
  grind

/-- What is stored is loaded. -/
theorem loadDouble_storeDouble (m : Mem) (a v : BitVec 64) :
    loadDouble (storeDouble m a v) a = v :=
  (ofBytes_congr fun _ hi => storeDouble_byte m a v hi).trans (ofBytes_extract v)

/-- A load depends on 8 bytes. -/
theorem loadDouble_congr {m m' : Mem} {a : BitVec 64}
    (h : ∀ i, i < 8 → m' (a + BitVec.ofNat 64 i) = m (a + BitVec.ofNat 64 i)) :
    loadDouble m' a = loadDouble m a := ofBytes_congr h

/-! ## 2. Code -/

/-- The registers, the memory and the program counter. -/
structure Cpu (R : Type*) where
  regs : R → BitVec 64
  mem : Mem
  pc : BitVec 64

/-- `sd src, off(b)`, `ld dst, off(b)`, and `ret` through the register `link`. -/
inductive Instr (R : Type*) where
  | sd (src : R) (off : Nat) (b : R)
  | ld (dst : R) (off : Nat) (b : R)
  | ret (link : R)

variable {R : Type*} [DecidableEq R]

/-- `off(b)`. -/
def Cpu.address (s : Cpu R) (off : Nat) (b : R) : BitVec 64 := s.regs b + BitVec.ofNat 64 off

/-- One instruction.  Between jumps the program counter is left out. -/
def exec (s : Cpu R) : Instr R → Cpu R
  | .sd src off b => { s with mem := storeDouble s.mem (s.address off b) (s.regs src) }
  | .ld dst off b =>
    { s with regs := Function.update s.regs dst (loadDouble s.mem (s.address off b)) }
  | .ret link => { s with pc := s.regs link &&& ~~~1 }

/-- Straight-line code. -/
def run (s : Cpu R) (code : List (Instr R)) : Cpu R := code.foldl exec s

/-- The code that saves the registers `fs` at their offsets. -/
def saves (b : R) (fs : List (R × Nat)) : List (Instr R) := fs.map fun f => .sd f.1 f.2 b

/-- The code that loads them. -/
def loads (b : R) (fs : List (R × Nat)) : List (Instr R) := fs.map fun f => .ld f.1 f.2 b

theorem run_append (s : Cpu R) (code code' : List (Instr R)) :
    run s (code ++ code') = run (run s code) code' := List.foldl_append

variable {s : Cpu R} {b r : R} {f : R × Nat} {fs : List (R × Nat)}

/-! ## 3. Saving -/

/-- The offsets are 8 bytes apart, and none wraps. -/
structure Apart (fs : List (R × Nat)) : Prop where
  apart : fs.Pairwise fun f g => f.2 + 8 ≤ g.2
  below : ∀ f ∈ fs, f.2 + 8 ≤ 2 ^ 64

omit [DecidableEq R] in
theorem Apart.tail (h : Apart (f :: fs)) : Apart fs :=
  ⟨h.apart.of_cons, fun g hg => h.below g (List.mem_cons_of_mem _ hg)⟩

theorem run_saves_regs (s : Cpu R) (b : R) (fs : List (R × Nat)) :
    (run s (saves b fs)).regs = s.regs := by
  induction fs generalizing s with
  | nil => rfl
  | cons f fs ih => exact ih (exec s (.sd f.1 f.2 b))

/-- Memory is as it was outside of the places of the registers. -/
theorem run_saves_mem {x : BitVec 64} (h : ∀ f ∈ fs, 8 ≤ (x - s.address f.2 b).toNat) :
    (run s (saves b fs)).mem x = s.mem x := by
  induction fs generalizing s with
  | nil => rfl
  | cons f fs ih =>
    have hrest := ih (s := exec s (.sd f.1 f.2 b)) fun g hg => h g (List.mem_cons_of_mem _ hg)
    exact hrest.trans (storeDouble_of_le (h f List.mem_cons_self) _)

/-- **Each register is in its place.** -/
theorem run_saves_load (h : Apart fs) (hf : f ∈ fs) :
    loadDouble (run s (saves b fs)).mem (s.address f.2 b) = s.regs f.1 := by
  induction fs generalizing s with
  | nil => cases hf
  | cons g fs ih =>
    rcases List.mem_cons.mp hf with rfl | hf
    · -- the places behind it are 8 bytes away at least
      have hfar : ∀ i, i < 8 → ∀ g ∈ fs,
          8 ≤ (s.address f.2 b + BitVec.ofNat 64 i - s.address g.2 b).toNat := by
        intro i hi g hg
        have hlo := List.rel_of_pairwise_cons h.apart hg
        have hhi := h.below g (List.mem_cons_of_mem _ hg)
        have hbase := (s.regs b).isLt
        simp only [Cpu.address, BitVec.toNat_sub, BitVec.toNat_add, BitVec.toNat_ofNat]
        omega
      have hsame : loadDouble (run (exec s (.sd f.1 f.2 b)) (saves b fs)).mem (s.address f.2 b)
          = loadDouble (exec s (.sd f.1 f.2 b)).mem (s.address f.2 b) :=
        loadDouble_congr fun i hi => run_saves_mem (hfar i hi)
      exact hsame.trans (loadDouble_storeDouble _ _ _)
    · exact ih (s := exec s (.sd g.1 g.2 b)) h.tail hf

/-! ## 4. Loading -/

theorem run_loads_mem (s : Cpu R) (b : R) (fs : List (R × Nat)) :
    (run s (loads b fs)).mem = s.mem := by
  induction fs generalizing s with
  | nil => rfl
  | cons f fs ih => exact ih (exec s (.ld f.1 f.2 b))

/-- The other registers are as they were. -/
theorem run_loads_other (h : r ∉ fs.map Prod.fst) : (run s (loads b fs)).regs r = s.regs r := by
  induction fs generalizing s with
  | nil => rfl
  | cons f fs ih =>
    rw [List.map_cons, List.mem_cons, not_or] at h
    exact (ih (s := exec s (.ld f.1 f.2 b)) h.2).trans (Function.update_of_ne h.1 _ _)

/-- **Each register has what is in its place.** -/
theorem run_loads_regs (hnd : (fs.map Prod.fst).Nodup) (hb : b ∉ fs.map Prod.fst) (hf : f ∈ fs) :
    (run s (loads b fs)).regs f.1 = loadDouble s.mem (s.address f.2 b) := by
  induction fs generalizing s with
  | nil => cases hf
  | cons g fs ih =>
    rw [List.map_cons, List.nodup_cons] at hnd
    rw [List.map_cons, List.mem_cons, not_or] at hb
    have haddr : ∀ off, (exec s (.ld g.1 g.2 b)).address off b = s.address off b := fun off =>
      congrArg (· + _) (Function.update_of_ne hb.1 _ _)
    rcases List.mem_cons.mp hf with rfl | hf
    · have hlast : (run (exec s (.ld f.1 f.2 b)) (loads b fs)).regs f.1
          = (exec s (.ld f.1 f.2 b)).regs f.1 := run_loads_other hnd.1
      exact hlast.trans (Function.update_self _ _ _)
    · have hrest := ih (s := exec s (.ld g.1 g.2 b)) hnd.2 hb.2 hf
      rw [haddr] at hrest
      exact hrest

/-! ## 5. C structs -/

/-- The next multiple of `align`. -/
def roundUp (off align : Nat) : Nat := (off + align - 1) / align * align

/-- The offsets of the fields of a struct, given by their sizes and alignments. -/
def layout {α : Type*} : Nat → List (α × Nat × Nat) → List (α × Nat)
  | _, [] => []
  | off, (f, size, align) :: fs => (f, roundUp off align) :: layout (roundUp off align + size) fs

end Lithium.SaveArea
