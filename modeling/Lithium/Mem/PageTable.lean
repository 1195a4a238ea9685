/-
# Page tables

`virtual_memory.h` and `paging.c`: the entries, `walk`, `map_page`, `unmap_page`,
`walk_page_table`, `switch_page_table`.  Memory is a function from physical addresses of 64-bit
words to their contents.

The code dereferences a pointer to a table as a physical address before paging is active, and as
an address of the high half, `phys + PHYS_TO_VIRT_OFFSET`, after it.  `resolve` gives the physical
address behind a pointer under the layout the kernel relies on: the window from
`KERNEL_VIRT_BASE` on is RAM, everything else is identity mapped.
-/
import Lithium.Mem.Physmem

namespace Lithium

/-! ## 1. `virtual_memory.h` and `layout.h` -/

abbrev pteV : Word := (1 : Word) <<< 0
abbrev pteR : Word := (1 : Word) <<< 1
abbrev pteW : Word := (1 : Word) <<< 2
abbrev pteX : Word := (1 : Word) <<< 3

/-- `PTE_ADDR_MASK`. -/
abbrev pteAddrMask : Word := 0x3FFFFFFFFC00

/-- `PTE_ADDR`. -/
def pteAddr (pte : Word) : Word := pte &&& pteAddrMask

/-- `MAKE_PTE`. -/
def makePte (phys flags : Word) : Word := (phys &&& pteAddrMask) ||| flags

/-- `VPN2`. -/
def vpn2 (va : Word) : Word := (va >>> 30) &&& 0x1FF

/-- `VPN1`. -/
def vpn1 (va : Word) : Word := (va >>> 21) &&& 0x1FF

/-- `VPN0`. -/
def vpn0 (va : Word) : Word := (va >>> 12) &&& 0x1FF

/-- `KERNEL_VIRT_BASE`. -/
abbrev kernelVirtBase : Word := 0xC0000000

/-- `PHYS_TO_VIRT_OFFSET`. -/
abbrev physToVirtOffset : Word := kernelVirtBase - kernelBaseAddr

/-- `phys_to_virt`. -/
def physToVirt (phys : Word) : Word := phys + physToVirtOffset

/-- `virt_to_phys`. -/
def virtToPhys (virt : Word) : Word := virt - physToVirtOffset

/-- The physical address behind a pointer of the kernel: `layout.h` has RAM at its physical
addresses and from `KERNEL_VIRT_BASE` on, and that is taken to be so whatever table is loaded. -/
def resolve (ptr : Word) : Word :=
  if kernelVirtBase ≤ ptr ∧ ptr < kernelVirtBase + physMemSize then virtToPhys ptr else ptr

/-! ## 2. `paging.c` -/

/-- The allocator, memory, the static variables of `paging.c` and the `satp` register. -/
structure Vm where
  phys : Physmem
  mem : Word → Word
  kernelPagetable : Word
  pagingActive : Bool
  satp : Word

namespace Vm

/-- After `physmem_init`, for a kernel image that ends at `kend`. -/
def boot (kend : Word) (mem : Word → Word) : Vm where
  phys := .physmemInit kend
  mem := mem
  kernelPagetable := 0
  pagingActive := false
  satp := 0

/-- `*ptr`. -/
def load (vm : Vm) (ptr : Word) : Word := vm.mem (resolve ptr)

/-- `*ptr = v`. -/
def store (vm : Vm) (ptr v : Word) : Vm :=
  { vm with mem := Function.update vm.mem (resolve ptr) v }

/-- `phys_to_virt_helper`. -/
def physToVirtHelper (vm : Vm) (phys : Word) : Word :=
  if vm.pagingActive then physToVirt phys else phys

/-- `virt_to_phys_helper`. -/
def virtToPhysHelper (vm : Vm) (virt : Word) : Word :=
  if vm.pagingActive then virtToPhys virt else virt

/-- `&table[i]`. -/
def entryPtr (table i : Word) : Word := table + 8 * i

/-- The loops that fill a table with zeros. -/
def zeroTable (vm : Vm) (table : Word) : Vm :=
  (List.range 512).foldl (fun vm i => vm.store (entryPtr table (BitVec.ofNat 64 i)) 0) vm

/-- `create_page_table`; 0 is `NULL`. -/
def createPageTable (vm : Vm) : Vm × Word :=
  let (p, phys) := vm.phys.allocPage
  let vm := { vm with phys := p }
  if phys = 0 then (vm, 0)
  else
    let table := vm.physToVirtHelper phys
    (vm.zeroTable table, table)

/-- `free_page_table`. -/
def freePageTable (vm : Vm) (pagetable : Word) : Vm :=
  if pagetable = 0 then vm
  else { vm with phys := vm.phys.freePage (vm.virtToPhysHelper pagetable) }

/-- One level of `walk`: the table the entry at `pte` points to, allocated when it is missing and
`alloc` is set.  `none` is `return NULL`. -/
def nextTable (vm : Vm) (pte : Word) (alloc : Bool) : Vm × Option Word :=
  if vm.load pte &&& pteV = 0 then
    if !alloc then (vm, none)
    else
      let (p, phys) := vm.phys.allocPage
      let vm := { vm with phys := p }
      if phys = 0 then (vm, none)
      else
        let vm := vm.store pte (makePte phys pteV)
        let vm := vm.zeroTable (vm.physToVirtHelper phys)
        (vm, some (vm.physToVirtHelper (pteAddr (vm.load pte))))
  else (vm, some (vm.physToVirtHelper (pteAddr (vm.load pte))))

/-- `walk`: a pointer to the level-0 entry. -/
def walk (vm : Vm) (pagetable va : Word) (alloc : Bool) : Vm × Option Word :=
  match vm.nextTable (entryPtr pagetable (vpn2 va)) alloc with
  | (vm, none) => (vm, none)
  | (vm, some level1) =>
    match vm.nextTable (entryPtr level1 (vpn1 va)) alloc with
    | (vm, none) => (vm, none)
    | (vm, some level0) => (vm, some (entryPtr level0 (vpn0 va)))

/-- `map_page`; the flag says that it returned 0. -/
def mapPage (vm : Vm) (pagetable va pa flags : Word) : Vm × Bool :=
  match vm.walk pagetable va true with
  | (vm, none) => (vm, false)
  | (vm, some pte) =>
    if vm.load pte &&& pteV ≠ 0 then (vm, false)
    else (vm.store pte (makePte pa (flags ||| pteV)), true)

/-- `unmap_page`. -/
def unmapPage (vm : Vm) (pagetable va : Word) : Vm :=
  match (vm.walk pagetable va false).2 with
  | none => vm
  | some pte => if vm.load pte &&& pteV ≠ 0 then vm.store pte 0 else vm

/-- `walk_page_table`; 0 when the address is not mapped. -/
def walkPageTable (vm : Vm) (pagetable va : Word) : Word :=
  match (vm.walk pagetable va false).2 with
  | none => 0
  | some pte =>
    if vm.load pte &&& pteV ≠ 0 then pteAddr (vm.load pte) + (va &&& (pageSize - 1)) else 0

/-- `switch_page_table`. -/
def switchPageTable (vm : Vm) (pagetable : Word) : Vm :=
  { vm with
    satp := ((8 : Word) <<< 60) ||| ((vm.virtToPhysHelper pagetable >>> 12) &&& 0x0FFFFFFFFFFFFF)
    pagingActive := true }

end Vm

/-! ## 3. The words of the pages of RAM -/

/-- The physical address of word `k` of page `f`. -/
def wordAddr (f k : Nat) : Word := pageAddr f + 8 * BitVec.ofNat 64 k

theorem wordAddr_toNat {f k : Nat} (hf : f < numPages) (hk : k < 512) :
    (wordAddr f k).toNat = 0x80000000 + 4096 * f + 8 * k := by
  have hf' : f < 32768 := hf
  rw [wordAddr, BitVec.toNat_add, BitVec.toNat_mul, pageAddr_toNat hf, BitVec.toNat_ofNat]
  have h8 : (8 : Word).toNat = 8 := rfl
  rw [h8]
  omega

theorem wordAddr_inj {f k f' k' : Nat} (hf : f < numPages) (hk : k < 512) (hf' : f' < numPages)
    (hk' : k' < 512) : wordAddr f k = wordAddr f' k' ↔ f = f' ∧ k = k' := by
  constructor
  · intro h
    have h' := congrArg BitVec.toNat h
    rw [wordAddr_toNat hf hk, wordAddr_toNat hf' hk'] at h'
    omega
  · rintro ⟨rfl, rfl⟩
    rfl

/-- The pointer `p` is to page `f`. -/
def Designates (p : Word) (f : Nat) : Prop :=
  ∀ k, k < 512 → resolve (Vm.entryPtr p (BitVec.ofNat 64 k)) = wordAddr f k

theorem resolve_pageAddr {f : Nat} (hf : f < numPages) : Designates (pageAddr f) f := by
  intro k hk
  have hf' : f < 32768 := hf
  have h : Vm.entryPtr (pageAddr f) (BitVec.ofNat 64 k) = wordAddr f k := rfl
  rw [h, resolve, if_neg]
  rintro ⟨hlo, -⟩
  rw [BitVec.le_def, wordAddr_toNat hf hk] at hlo
  have hbase : kernelVirtBase.toNat = 0xC0000000 := rfl
  omega

theorem resolve_physToVirt {f : Nat} (hf : f < numPages) :
    Designates (physToVirt (pageAddr f)) f := by
  intro k hk
  have hf' : f < 32768 := hf
  have h : Vm.entryPtr (physToVirt (pageAddr f)) (BitVec.ofNat 64 k)
      = wordAddr f k + physToVirtOffset := by
    rw [Vm.entryPtr, physToVirt, wordAddr, BitVec.add_assoc, BitVec.add_assoc,
      BitVec.add_comm physToVirtOffset]
  have hnat : (wordAddr f k + physToVirtOffset).toNat = 0xC0000000 + 4096 * f + 8 * k := by
    have hoff : physToVirtOffset.toNat = 0x40000000 := rfl
    rw [BitVec.toNat_add, wordAddr_toNat hf hk, hoff]
    omega
  rw [h, resolve, if_pos, virtToPhys, BitVec.add_sub_cancel]
  rw [BitVec.le_def, BitVec.lt_def, hnat]
  have hbase : kernelVirtBase.toNat = 0xC0000000 := rfl
  have htop : (kernelVirtBase + physMemSize).toNat = 0xC8000000 := rfl
  omega

/-- A pointer to a page is not `NULL`. -/
theorem Designates.ne_zero {p : Word} {f : Nat} (hd : Designates p f) (hf : f < numPages) :
    p ≠ 0 := by
  intro hcon
  have hp := congrArg BitVec.toNat (hd 0 (by decide))
  have hzero : (resolve (Vm.entryPtr 0 (BitVec.ofNat 64 0))).toNat = 0 := by decide
  rw [hcon, hzero, wordAddr_toNat hf (by decide)] at hp
  omega

namespace Vm

theorem designates_helper (vm : Vm) {f : Nat} (hf : f < numPages) :
    Designates (vm.physToVirtHelper (pageAddr f)) f := by
  unfold physToVirtHelper
  split
  · exact resolve_physToVirt hf
  · exact resolve_pageAddr hf

/-- Word `k` of page `f`. -/
def word (vm : Vm) (f k : Nat) : Word := vm.mem (wordAddr f k)

/-- What all the functions of `paging.c` but `switch_page_table` and `paging_init` leave alone. -/
structure SameRegs (vm vm' : Vm) : Prop where
  kernelPagetable : vm'.kernelPagetable = vm.kernelPagetable
  pagingActive : vm'.pagingActive = vm.pagingActive
  satp : vm'.satp = vm.satp

theorem SameRegs.refl (vm : Vm) : SameRegs vm vm := ⟨rfl, rfl, rfl⟩

theorem SameRegs.trans {vm vm' vm'' : Vm} (h : SameRegs vm vm') (h' : SameRegs vm' vm'') :
    SameRegs vm vm'' :=
  ⟨h'.kernelPagetable.trans h.kernelPagetable, h'.pagingActive.trans h.pagingActive,
    h'.satp.trans h.satp⟩

/-- A store through a pointer to a word of a page. -/
theorem word_store {vm : Vm} {ptr : Word} {f k : Nat} (hp : resolve ptr = wordAddr f k)
    (hf : f < numPages) (hk : k < 512) (v : Word) {f' k' : Nat} (hf' : f' < numPages)
    (hk' : k' < 512) :
    (vm.store ptr v).word f' k' = if f' = f ∧ k' = k then v else vm.word f' k' := by
  have h : (vm.store ptr v).word f' k'
      = Function.update vm.mem (resolve ptr) v (wordAddr f' k') := rfl
  rw [h, hp, Function.update_apply]
  exact if_congr (wordAddr_inj hf' hk' hf hk) rfl rfl

/-- Zeroing a table zeroes the words of its page. -/
theorem zeroTable_spec (vm : Vm) {table : Word} {g : Nat} (hd : Designates table g)
    (hg : g < numPages) :
    (vm.zeroTable table).phys = vm.phys ∧ SameRegs vm (vm.zeroTable table) ∧
      ∀ f k, f < numPages → k < 512 →
        (vm.zeroTable table).word f k = if f = g then 0 else vm.word f k := by
  -- the loop, after `n` words
  have key : ∀ n, n ≤ 512 → ∀ vm' : Vm,
      vm' = (List.range n).foldl
        (fun vm i => vm.store (entryPtr table (BitVec.ofNat 64 i)) 0) vm →
      vm'.phys = vm.phys ∧ SameRegs vm vm' ∧ ∀ f k, f < numPages → k < 512 →
        vm'.word f k = if f = g ∧ k < n then 0 else vm.word f k := by
    intro n
    induction n with
    | zero =>
      intro _ vm' hvm'
      rw [hvm']
      exact ⟨rfl, SameRegs.refl vm, fun f k _ _ => by simp⟩
    | succ n ih =>
      intro hn vm' hvm'
      obtain ⟨hphys, hregs, hword⟩ := ih (by omega) _ rfl
      rw [List.range_succ, List.foldl_append, List.foldl_cons, List.foldl_nil] at hvm'
      subst hvm'
      refine ⟨hphys, hregs.trans ⟨rfl, rfl, rfl⟩, ?_⟩
      intro f k hf hk
      rw [word_store (hd n (by omega)) hg (by omega) 0 hf hk, hword f k hf hk]
      by_cases h : f = g ∧ k = n
      · rw [if_pos h, if_pos ⟨h.1, by omega⟩]
      · rw [if_neg h]
        refine if_congr ?_ rfl rfl
        constructor
        · exact fun h' => ⟨h'.1, by omega⟩
        · rintro ⟨h1, h2⟩
          refine ⟨h1, ?_⟩
          have : ¬ k = n := fun e => h ⟨h1, e⟩
          omega
  obtain ⟨hphys, hregs, hword⟩ := key 512 (Nat.le_refl _) _ rfl
  refine ⟨hphys, hregs, ?_⟩
  intro f k hf hk
  rw [zeroTable, hword f k hf hk]
  exact if_congr (and_iff_left hk) rfl rfl

end Vm

/-! ## 4. Entries -/

/-- The mask keeps the bits 10 to 45. -/
theorem pteAddrMask_getLsbD (i : Nat) :
    pteAddrMask.getLsbD i = decide (10 ≤ i ∧ i < 46) := by
  by_cases hi : i < 64
  · have h : ∀ i : Fin 64, pteAddrMask.getLsbD i.val = decide (10 ≤ i.val ∧ i.val < 46) := by
      decide
    exact h ⟨i, hi⟩
  · rw [BitVec.getLsbD_of_ge _ _ (by omega)]
    simp
    omega

/-- An address below `2^46` without the ten low bits passes the mask. -/
theorem and_pteAddrMask {x : Word} (hlt : x.toNat < 2 ^ 46) (hdvd : x.toNat % 1024 = 0) :
    x &&& pteAddrMask = x := by
  refine BitVec.eq_of_getLsbD_eq ?_
  intro i hi
  rw [BitVec.getLsbD_and, pteAddrMask_getLsbD]
  by_cases h : 10 ≤ i ∧ i < 46
  · rw [decide_eq_true h, Bool.and_true]
  · rw [decide_eq_false h, Bool.and_false]
    rcases Nat.lt_or_ge i 10 with hlo | hhi
    · have hmod : x.toNat.testBit i = (x.toNat % 2 ^ 10).testBit i := by
        rw [Nat.testBit_mod_two_pow]
        simp [hlo]
      rw [BitVec.getLsbD, hmod, show x.toNat % 2 ^ 10 = 0 from hdvd, Nat.zero_testBit]
    · have hpow : 2 ^ 46 ≤ 2 ^ i := Nat.pow_le_pow_right (by omega) (by omega)
      exact (Nat.testBit_lt_two_pow (by omega)).symm

theorem pteAddr_makePte {phys flags : Word} (hlt : phys.toNat < 2 ^ 46)
    (hdvd : phys.toNat % 1024 = 0) (hflags : flags &&& pteAddrMask = 0) :
    pteAddr (makePte phys flags) = phys := by
  unfold pteAddr makePte
  rw [and_pteAddrMask hlt hdvd, BitVec.and_or_distrib_right, hflags, and_pteAddrMask hlt hdvd]
  exact BitVec.or_zero

/-- An entry made with `PTE_V` is valid. -/
theorem makePte_valid (phys flags : Word) : makePte phys (flags ||| pteV) &&& pteV ≠ 0 := by
  intro h
  have hbit := congrArg (fun x => x.getLsbD 0) h
  simp [makePte] at hbit

theorem pageAddr_aligned {f : Nat} (hf : f < numPages) :
    (pageAddr f).toNat < 2 ^ 46 ∧ (pageAddr f).toNat % 1024 = 0 := by
  have hf' : f < 32768 := hf
  rw [pageAddr_toNat hf]
  omega

theorem pteAddr_table {f : Nat} (hf : f < numPages) :
    pteAddr (makePte (pageAddr f) pteV) = pageAddr f :=
  pteAddr_makePte (pageAddr_aligned hf).1 (pageAddr_aligned hf).2 (by decide)

theorem table_valid (phys : Word) : makePte phys pteV &&& pteV ≠ 0 := by
  have h := makePte_valid phys pteV
  rwa [BitVec.or_self] at h

theorem vpn_lt (x : Word) : (x &&& 0x1FF).toNat < 512 := by
  have h : (0x1FF : Word).toNat = 511 := rfl
  rw [BitVec.toNat_and, h]
  exact Nat.lt_succ_of_le Nat.and_le_right

theorem vpn2_lt (va : Word) : (vpn2 va).toNat < 512 := vpn_lt _

theorem vpn1_lt (va : Word) : (vpn1 va).toNat < 512 := vpn_lt _

theorem vpn0_lt (va : Word) : (vpn0 va).toNat < 512 := vpn_lt _

end Lithium
