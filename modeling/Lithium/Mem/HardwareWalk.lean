/-
# The hardware walk

`MAKE_PTE` stores the address of a page in an entry as it is, and `PTE_ADDR` reads it back; the
architecture keeps the page number in the bits 53 to 10, that is the address shifted right by two.
So where the software walk finds a table at `phys`, the hardware looks for it at `4 * phys`, which
is above RAM for every page of RAM.
-/
import Lithium.Lib.Sv39
import Lithium.Mem.PageTree

namespace Lithium

/-! ## 1. The two walks -/

/-- A call of `map_page`, with a page-aligned address below `2^46`, flags within the bits 0 to 9,
and one of `PTE_R` and `PTE_X` among them. -/
structure MapCall where
  va : Word
  pa : Word
  flags : Word
  aligned : pa &&& (pageSize - 1) = 0
  below : pa < (1 : Word) <<< 46
  low : flags < (1 : Word) <<< 10
  leaf : flags &&& (pteR ||| pteX) ≠ 0

namespace Vm

/-- The physical memory the hardware can read: RAM. -/
def ram (vm : Vm) (a : Word) : Option Word :=
  if kernelBaseAddr ≤ a ∧ a < kernelBaseAddr + physMemSize then some (vm.mem a) else none

/-- The hardware's translation of `va` after `switch_page_table(pagetable)`. -/
def hardwareWalk (vm : Vm) (pagetable va : Word) : Option Word :=
  Sv39.translate vm.ram (vm.switchPageTable pagetable).satp va

/-- Calls of `map_page`; `none` when one of them fails. -/
def mapAll (pagetable : Word) : List MapCall → Vm → Option Vm
  | [], vm => some vm
  | c :: cs, vm =>
    match vm.mapPage pagetable c.va c.pa c.flags with
    | (vm, true) => mapAll pagetable cs vm
    | (_, false) => none

end Vm

/-! ## 2. What the hardware makes of an entry and of `satp` -/

/-- The bits of an entry that are not part of the address are its flags. -/
theorem makePte_getLsbD {phys flags : Word} {i : Nat} (hi : i < 10) :
    (makePte phys flags).getLsbD i = flags.getLsbD i := by
  rw [makePte, BitVec.getLsbD_or, BitVec.getLsbD_and, pteAddrMask_getLsbD]
  simp [show ¬ 10 ≤ i by omega]

/-- The base of the table an entry points to, for the hardware: four times the address. -/
theorem ppn_makePte {phys : Word} (hlt : phys.toNat < 2 ^ 46) (hdvd : phys.toNat % 1024 = 0) :
    (Sv39.ppn (makePte phys pteV) <<< 12).toNat = 4 * phys.toNat := by
  have hV : pteV.toNat = 1 := rfl
  have hshift : (phys.toNat ||| 1) >>> 10 = phys.toNat / 1024 := by
    rw [Nat.shiftRight_or_distrib, Nat.shiftRight_eq_div_pow, Nat.shiftRight_eq_div_pow]
    exact Nat.or_zero _
  rw [makePte, and_pteAddrMask hlt hdvd, Sv39.ppn, BitVec.toNat_shiftLeft, BitVec.toNat_setWidth,
    BitVec.extractLsb'_toNat, BitVec.toNat_or, hV, hshift, Nat.shiftLeft_eq]
  omega

/-- The fields of what `switch_page_table` puts in `satp`. -/
theorem satp_fields {phys : Word} (hlt : phys.toNat < 2 ^ 46) (hdvd : phys.toNat % 4096 = 0) :
    ((((8 : Word) <<< 60) ||| ((phys >>> 12) &&& 0x0FFFFFFFFFFFFF)).extractLsb' 60 4 = 8) ∧
      ((((8 : Word) <<< 60) ||| ((phys >>> 12) &&& 0x0FFFFFFFFFFFFF)).extractLsb' 0 44).setWidth 64
        <<< 12 = phys := by
  have hmode : ((8 : Word) <<< 60).toNat = 8 * 2 ^ 60 := rfl
  have hmask : ((phys >>> 12) &&& 0x0FFFFFFFFFFFFF).toNat = phys.toNat / 4096 := by
    have hm : (0x0FFFFFFFFFFFFF : Word).toNat = 2 ^ 52 - 1 := rfl
    rw [BitVec.toNat_and, BitVec.toNat_ushiftRight, hm, Nat.and_two_pow_sub_one_eq_mod,
      Nat.shiftRight_eq_div_pow]
    omega
  -- mode and page number do not overlap
  have hor : (((8 : Word) <<< 60) ||| ((phys >>> 12) &&& 0x0FFFFFFFFFFFFF)).toNat
      = 8 * 2 ^ 60 + phys.toNat / 4096 := by
    rw [BitVec.toNat_or, hmode, hmask, Nat.mul_comm, Nat.two_pow_add_eq_or_of_lt (by omega)]
  constructor
  · refine BitVec.eq_of_toNat_eq ?_
    rw [BitVec.extractLsb'_toNat, hor, Nat.shiftRight_eq_div_pow]
    change _ = 8
    omega
  · refine BitVec.eq_of_toNat_eq ?_
    rw [BitVec.toNat_shiftLeft, BitVec.toNat_setWidth, BitVec.extractLsb'_toNat, hor,
      Nat.shiftLeft_eq, Nat.shiftRight_zero]
    omega

theorem vpn2_eq (va : Word) : Sv39.vpn va 2 = vpn2 va := by
  refine BitVec.eq_of_toNat_eq ?_
  have hm : (0x1FF : Word).toNat = 2 ^ 9 - 1 := rfl
  rw [Sv39.vpn, vpn2, BitVec.toNat_setWidth, BitVec.extractLsb'_toNat, BitVec.toNat_and,
    BitVec.toNat_ushiftRight, hm, Nat.and_two_pow_sub_one_eq_mod]
  omega

/-! ## 3. Where the hardware ends up -/

namespace Vm

/-- A page of RAM is read by the hardware. -/
theorem ram_word (vm : Vm) {f k : Nat} (hf : f < numPages) (hk : k < 512) :
    vm.ram (wordAddr f k) = some (vm.word f k) := by
  have hf' : f < 32768 := hf
  rw [ram, if_pos, word]
  rw [BitVec.le_def, BitVec.lt_def, wordAddr_toNat hf hk]
  have hbase : kernelBaseAddr.toNat = 0x80000000 := rfl
  have htop : (kernelBaseAddr + physMemSize).toNat = 0x88000000 := rfl
  omega

/-- **A mapped address faults**: the hardware looks for the table of level 1 above RAM. -/
theorem hardwareWalk_mapped {vm : Vm} {t : TableTree} {r : Nat} (h : vm.Repr t)
    (hr : t [] = some r) {va : Word} (hcan : Sv39.Canonical va)
    (hmap : vm.leaf t va &&& pteV ≠ 0) :
    vm.hardwareWalk (vm.physToVirtHelper (pageAddr r)) va = none := by
  have hrlt := (h.owned _ r hr).1
  obtain ⟨c, hc⟩ : ∃ c, t [(vpn2 va).toNat] = some c := by
    rw [← Option.isSome_iff_exists, ← Option.ne_none_iff_isSome]
    intro hnone
    have hleaf : t (leafNode va) = none := h.closed _ _ hnone
    rw [leaf, hleaf] at hmap
    exact hmap BitVec.zero_and
  have hclt := (h.owned _ c hc).1
  have hentry := h.linked [] r _ c hr (by simp) (vpn2_lt va) hc
  have hphys : vm.virtToPhysHelper (vm.physToVirtHelper (pageAddr r)) = pageAddr r := by
    unfold virtToPhysHelper physToVirtHelper
    split
    · rw [virtToPhys, physToVirt, BitVec.add_sub_cancel]
    · rfl
  have haligned : (pageAddr r).toNat % 4096 = 0 := by
    rw [pageAddr_toNat hrlt]
    omega
  obtain ⟨hmode, hroot⟩ := satp_fields (pageAddr_aligned hrlt).1 haligned
  -- the root entry is read, and points above RAM
  have hread : vm.ram (pageAddr r + 8 * Sv39.vpn va 2) = some (makePte (pageAddr c) pteV) := by
    rw [← hentry, ← vm.ram_word hrlt (vpn2_lt va), wordAddr, vpn2_eq, BitVec.ofNat_toNat,
      BitVec.setWidth_eq]
  have habove : vm.ram ((Sv39.ppn (makePte (pageAddr c) pteV) <<< 12) + 8 * Sv39.vpn va 1)
      = none := by
    have hc' : c < 32768 := hclt
    have hppn := ppn_makePte (pageAddr_aligned hclt).1 (pageAddr_aligned hclt).2
    have hvpn := Sv39.vpn_toNat_lt va 1
    have h8 : (8 : Word).toNat = 8 := rfl
    have htop : (kernelBaseAddr + physMemSize).toNat = 0x88000000 := rfl
    rw [ram, if_neg]
    rintro ⟨-, hlt⟩
    rw [BitVec.lt_def, BitVec.toNat_add, BitVec.toNat_mul, hppn, pageAddr_toNat hclt, h8,
      htop] at hlt
    omega
  rw [hardwareWalk, switchPageTable, hphys]
  change Sv39.translate vm.ram (((8 : Word) <<< 60) ||| ((pageAddr r >>> 12) &&& 0x0FFFFFFFFFFFFF))
    va = none
  rw [Sv39.translate, if_neg (not_not_intro hmode), if_pos hcan, hroot, Sv39.walk_pointer hread,
    Sv39.walk_fault habove]
  · rw [Sv39.valid, makePte_getLsbD (by omega)]
    decide
  · rw [Sv39.readable, makePte_getLsbD (by omega)]
    decide
  · rw [Sv39.writable, makePte_getLsbD (by omega)]
    decide
  · rw [Sv39.executable, makePte_getLsbD (by omega)]
    decide

/-! ## 4. Runs of `map_page` -/

/-- Successful calls of `map_page` keep the invariant and the entries that are valid; the address
of each call is mapped. -/
theorem mapAll_spec {root : Word} {r : Nat} (hd : Designates root r) (calls : List MapCall) :
    ∀ {vm vm' : Vm} {t : TableTree}, vm.Repr t → t [] = some r → mapAll root calls vm = some vm' →
      ∃ t', vm'.Repr t' ∧ t' [] = some r ∧ vm.SameRegs vm' ∧
        (∀ va, vm.leaf t va &&& pteV ≠ 0 → vm'.leaf t' va = vm.leaf t va) ∧
        (∀ va, vm'.leaf t' va &&& pteV ≠ 0 ↔ vm.leaf t va &&& pteV ≠ 0 ∨
          ∃ c ∈ calls, leafNode va = leafNode c.va ∧ vpn0 va = vpn0 c.va) := by
  induction calls with
  | nil =>
    intro vm vm' t h hr hrun
    rw [mapAll, Option.some.injEq] at hrun
    subst hrun
    exact ⟨t, h, hr, SameRegs.refl vm, fun _ _ => rfl, by simp⟩
  | cons c cs ih =>
    intro vm vm' t h hr hrun
    obtain ⟨vm₁, t₁, ok, hmap, hext, hok⟩ := mapPage_spec h hr hd c.va c.pa c.flags
    rw [mapAll, hmap] at hrun
    rcases hok with ⟨rfl, hfree, hleaf⟩ | ⟨rfl, -, -⟩
    · obtain ⟨t', h', hr', hregs, hkeep, hiff⟩ := ih hext.repr (hext.mono _ _ hr) hrun
      have hstep : ∀ va, vm₁.leaf t₁ va &&& pteV ≠ 0 ↔ vm.leaf t va &&& pteV ≠ 0 ∨
          (leafNode va = leafNode c.va ∧ vpn0 va = vpn0 c.va) := by
        intro va
        rw [hleaf]
        split
        case isTrue heq => exact iff_of_true (makePte_valid _ _) (Or.inr heq)
        case isFalse hne => exact ⟨Or.inl, fun hor => hor.resolve_right hne⟩
      refine ⟨t', h', hr', hext.regs.trans hregs, ?_, ?_⟩
      · intro va hva
        rw [hkeep va ((hstep va).mpr (Or.inl hva)), hleaf, if_neg]
        rintro ⟨hnode, hvpn⟩
        rw [leaf, hnode, hvpn] at hva
        exact hva hfree
      · intro va
        rw [hiff, hstep]
        simp [or_assoc]
    · exact absurd hrun (by simp)

theorem leafNode_canonicalize (va : Word) :
    leafNode (Sv39.canonicalize va) = leafNode va ∧ vpn0 (Sv39.canonicalize va) = vpn0 va := by
  have hbits : ∀ s : Nat, s ≤ 30 →
      (Sv39.canonicalize va >>> s) &&& 0x1FF = (va >>> s) &&& 0x1FF := by
    intro s hs
    refine BitVec.eq_of_getLsbD_eq ?_
    intro i hi
    rw [BitVec.getLsbD_and, BitVec.getLsbD_and, BitVec.getLsbD_ushiftRight,
      BitVec.getLsbD_ushiftRight]
    by_cases h9 : i < 9
    · rw [Sv39.canonicalize_getLsbD (by omega)]
    · have hmask : (0x1FF : Word).getLsbD i = false := by
        have hall : ∀ i : Fin 64, ¬ i.val < 9 → (0x1FF : Word).getLsbD i.val = false := by decide
        exact hall ⟨i, hi⟩ h9
      rw [hmask, Bool.and_false, Bool.and_false]
  unfold leafNode vpn2 vpn1 vpn0
  rw [hbits 30 (by omega), hbits 21 (by omega), hbits 12 (by omega)]
  exact ⟨rfl, rfl⟩

/-- **The two walks agree on a page table exactly while nothing is mapped in it.** -/
theorem walks_agree_iff_unmapped {vm vm₀ vm' : Vm} {root : Word} {calls : List MapCall}
    (hcreate : vm.createPageTable = (vm₀, root)) (hroot : root ≠ 0)
    (hrun : mapAll root calls vm₀ = some vm') :
    (∀ va, Sv39.Canonical va → vm'.isMapped root va = true →
        vm'.hardwareWalk root va = some (vm'.walkPageTable root va)) ↔ calls = [] := by
  obtain ⟨r, rfl, hr, -, -, hregs, hrepr⟩ := createPageTable_root hcreate hroot
  have hd := vm.designates_helper hr
  obtain ⟨t', h', hr', hregs', -, hiff⟩ := mapAll_spec hd calls hrepr rfl hrun
  constructor
  · intro hagree
    by_contra hne
    obtain ⟨c, cs, rfl⟩ := List.exists_cons_of_ne_nil hne
    -- the address of the first call, made canonical
    have hmapped : vm'.leaf t' (Sv39.canonicalize c.va) &&& pteV ≠ 0 :=
      (hiff _).mpr (Or.inr ⟨c, List.mem_cons_self, leafNode_canonicalize c.va⟩)
    have hcan := Sv39.canonicalize_canonical c.va
    have hhelper : vm.physToVirtHelper (pageAddr r) = vm'.physToVirtHelper (pageAddr r) := by
      rw [physToVirtHelper, physToVirtHelper, hregs'.pagingActive, hregs.pagingActive]
    have hhard := hagree _ hcan ((isMapped_eq h' hr' hd _).mpr hmapped)
    rw [hhelper, hardwareWalk_mapped h' hr' hcan hmapped] at hhard
    exact absurd hhard (by simp)
  · rintro rfl va - hmap
    rw [isMapped_eq h' hr' hd, hiff, leaf_rootOnly] at hmap
    simp at hmap

/-- The kernel's mapping of the first page of RAM in the high half. -/
def highHalfCall : MapCall where
  va := kernelVirtBase
  pa := kernelBaseAddr
  flags := pteR ||| pteW ||| pteX
  aligned := by decide
  below := by decide
  low := by decide
  leaf := by decide

/-- A new table, for a kernel image of 32 pages. -/
def newTable : Vm × Word := (boot 0x80020000 fun _ => 0).createPageTable

/-- The page can be mapped there, and the hardware faults. -/
theorem highHalf_misses : newTable.2 = 0x80020000 ∧
    (mapAll newTable.2 [highHalfCall] newTable.1).any (fun vm' =>
      vm'.isMapped newTable.2 kernelVirtBase &&
        vm'.hardwareWalk newTable.2 kernelVirtBase == none) = true := by
  decide +kernel

theorem newTable_root : newTable.2 = 0x80020000 := highHalf_misses.1

theorem newTable_ne_zero : newTable.2 ≠ 0 := by
  rw [newTable_root]
  decide

theorem walks_agree_iff_unmapped_highHalf :
    ∃ vm', mapAll newTable.2 [highHalfCall] newTable.1 = some vm' ∧
      ((∀ va, Sv39.Canonical va → vm'.isMapped newTable.2 va = true →
        vm'.hardwareWalk newTable.2 va = some (vm'.walkPageTable newTable.2 va)) ↔
          [highHalfCall] = []) := by
  obtain ⟨vm', hrun, -⟩ := (Option.any_eq_true _ _).mp highHalf_misses.2
  exact ⟨vm', hrun,
    walks_agree_iff_unmapped (Prod.mk.eta (p := newTable)).symm newTable_ne_zero hrun⟩

/-- The page is mapped, `walk_page_table` finds it, and the hardware faults. -/
theorem hardware_misses_first_page : ¬ ∀ (vm vm₀ vm' : Vm) (root : Word) (calls : List MapCall),
    vm.createPageTable = (vm₀, root) → root ≠ 0 → mapAll root calls vm₀ = some vm' →
      ∀ va, Sv39.Canonical va → vm'.isMapped root va = true →
        vm'.hardwareWalk root va = some (vm'.walkPageTable root va) := by
  intro h
  obtain ⟨vm', hmap, htest⟩ := (Option.any_eq_true _ _).mp highHalf_misses.2
  rw [Bool.and_eq_true, beq_iff_eq] at htest
  have hagree := h _ newTable.1 vm' newTable.2 [highHalfCall] (Prod.mk.eta (p := newTable)).symm
    newTable_ne_zero hmap kernelVirtBase (by decide) htest.1
  rw [htest.2] at hagree
  exact absurd hagree (by simp)

end Vm

end Lithium
