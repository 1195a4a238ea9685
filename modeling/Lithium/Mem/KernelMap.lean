/-
# The kernel page table

`paging_init` maps the pages `i` of its loop, counted from physical address 0, at
`i + PHYS_TO_VIRT_OFFSET`; RAM starts at `KERNEL_BASE_ADDR`.  Section 3 gives the table it builds
entry by entry, and says that it succeeds whenever 131 pages are free: the root, two tables of
level 1 and 128 of level 0.
-/
import Lithium.Mem.PageTree

namespace Lithium

/-! ## 1. `paging_init` -/

/-- `PTE_R | PTE_W | PTE_X`. -/
abbrev rwx : Word := pteR ||| pteW ||| pteX

/-- `i` in round `n` of the loop. -/
def loopAddr (n : Nat) : Word := BitVec.ofNat 64 n * pageSize

namespace Vm

/-- A round of the loop; the flag says that the calls of `map_page` returned 0. -/
def mapKernelPage (kernelPagetable kernelSize : Word) (vm : Vm) (n : Nat) : Vm × Bool :=
  let i := loopAddr n
  let virt := i + physToVirtOffset
  match vm.mapPage kernelPagetable virt i rwx with
  | (vm, false) => (vm, false)
  | (vm, true) => if i < kernelSize then vm.mapPage kernelPagetable i i rwx else (vm, true)

/-- The loop. -/
def mapKernel (kernelPagetable kernelSize : Word) : List Nat → Vm → Vm × Bool
  | [], vm => (vm, true)
  | n :: ns, vm =>
    match vm.mapKernelPage kernelPagetable kernelSize n with
    | (vm, false) => (vm, false)
    | (vm, true) => mapKernel kernelPagetable kernelSize ns vm

/-- `paging_init`, for a kernel image that ends at `kend`; the flag says that it reached
`switch_page_table`. -/
def pagingInit (kend : Word) (vm : Vm) : Vm × Bool :=
  let kernelSize := kend - kernelBaseAddr
  let (vm, table) := vm.createPageTable
  let vm := { vm with kernelPagetable := table }
  if table = 0 then (vm, false)
  else
    match mapKernel table kernelSize (List.range numPages) vm with
    | (vm, false) => (vm, false)
    | (vm, true) => (vm.switchPageTable table, true)

end Vm

/-! ## 2. Virtual page numbers -/

/-- The 27 bits of an address that the walk uses. -/
def pageNumber (va : Word) : Nat := va.toNat / 4096 % 2 ^ 27

theorem vpn_toNat (va : Word) (s : Nat) :
    ((va >>> s) &&& 0x1FF).toNat = va.toNat / 2 ^ s % 512 := by
  have hm : (0x1FF : Word).toNat = 2 ^ 9 - 1 := rfl
  rw [BitVec.toNat_and, BitVec.toNat_ushiftRight, hm, Nat.and_two_pow_sub_one_eq_mod,
    Nat.shiftRight_eq_div_pow]

theorem leafNode_eq (va : Word) :
    leafNode va = [pageNumber va / 512 % 512, pageNumber va / 512 / 512] := by
  rw [leafNode, vpn1, vpn2, vpn_toNat, vpn_toNat, pageNumber]
  congr 1
  · omega
  · congr 1
    omega

theorem vpn0_eq (va : Word) : (vpn0 va).toNat = pageNumber va % 512 := by
  rw [vpn0, vpn_toNat, pageNumber]
  omega

/-- Two addresses have the same entry of level 0 when they have the same page number. -/
theorem samePage_iff (va va' : Word) :
    (leafNode va' = leafNode va ∧ vpn0 va' = vpn0 va) ↔ pageNumber va' = pageNumber va := by
  constructor
  · rintro ⟨hnode, hvpn⟩
    rw [leafNode_eq, leafNode_eq, List.cons.injEq, List.cons.injEq] at hnode
    have h₀ := congrArg BitVec.toNat hvpn
    rw [vpn0_eq, vpn0_eq] at h₀
    omega
  · intro h
    refine ⟨by rw [leafNode_eq, leafNode_eq, h], BitVec.eq_of_toNat_eq ?_⟩
    rw [vpn0_eq, vpn0_eq, h]

theorem loopAddr_toNat {n : Nat} (hn : n < numPages) : (loopAddr n).toNat = 4096 * n := by
  have hn' : n < 32768 := hn
  have hsize : pageSize.toNat = 4096 := rfl
  rw [loopAddr, BitVec.toNat_mul, BitVec.toNat_ofNat, hsize]
  omega

theorem pageNumber_loopAddr {n : Nat} (hn : n < numPages) : pageNumber (loopAddr n) = n := by
  have hn' : n < 32768 := hn
  rw [pageNumber, loopAddr_toNat hn]
  omega

theorem pageNumber_virt {n : Nat} (hn : n < numPages) :
    pageNumber (loopAddr n + physToVirtOffset) = 0x40000 + n := by
  have hn' : n < 32768 := hn
  have hoff : physToVirtOffset.toNat = 0x40000000 := rfl
  rw [pageNumber, BitVec.toNat_add, loopAddr_toNat hn, hoff]
  omega

/-! ## 3. The table it builds -/

/-- The entry of page number `v` after `n` rounds. -/
def kernelEntry (kernelSize : Word) (n v : Nat) : Word :=
  if 0x40000 ≤ v ∧ v < 0x40000 + n then makePte (loopAddr (v - 0x40000)) (rwx ||| pteV)
  else if v < n ∧ loopAddr v < kernelSize then makePte (loopAddr v) (rwx ||| pteV)
  else 0

/-- The entries of one more round. -/
theorem kernelEntry_succ {kernelSize : Word} {n : Nat} (hn : n < numPages) (v : Nat) :
    kernelEntry kernelSize (n + 1) v =
      if v = n ∧ loopAddr n < kernelSize then makePte (loopAddr n) (rwx ||| pteV)
      else if v = 0x40000 + n then makePte (loopAddr n) (rwx ||| pteV)
      else kernelEntry kernelSize n v := by
  have hn' : n < 32768 := hn
  unfold kernelEntry
  by_cases hhigh : v = 0x40000 + n
  · have h₁ : 0x40000 ≤ v ∧ v < 0x40000 + (n + 1) := by omega
    have h₂ : ¬ (v = n ∧ loopAddr n < kernelSize) := by omega
    rw [if_pos h₁, if_neg h₂, if_pos hhigh, hhigh, Nat.add_sub_cancel_left]
  · by_cases hlow : v = n
    · subst hlow
      have h₁ : ¬ (0x40000 ≤ v ∧ v < 0x40000 + (v + 1)) := by omega
      have h₂ : ¬ (0x40000 ≤ v ∧ v < 0x40000 + v) := by omega
      have h₃ : ¬ (v < v ∧ loopAddr v < kernelSize) := by omega
      have h₄ : (v < v + 1 ∧ loopAddr v < kernelSize) ↔ (v = v ∧ loopAddr v < kernelSize) := by
        simp
      rw [if_neg h₁, if_neg hhigh, if_neg h₂, if_neg h₃, if_congr h₄ rfl rfl]
    · have h₁ : (0x40000 ≤ v ∧ v < 0x40000 + (n + 1)) ↔ (0x40000 ≤ v ∧ v < 0x40000 + n) := by
        omega
      have h₂ : v < n + 1 ↔ v < n := by omega
      have h₃ : ¬ (v = n ∧ loopAddr n < kernelSize) := fun e => hlow e.1
      rw [if_neg h₃, if_neg hhigh]
      simp only [h₁, h₂]

/-- The tables the loop allocates. -/
def kernelTables : List TableNode :=
  [[0], [1]] ++ (List.range 64).map (fun j => [j, 0]) ++ (List.range 64).map (fun j => [j, 1])

theorem kernelTables_nodup : kernelTables.Nodup := by
  have hrow : ∀ c : Nat, ((List.range 64).map fun j => [j, c]).Nodup := by
    intro c
    refine List.nodup_range.map ?_
    intro j k hjk
    exact (List.cons.inj hjk).1
  have hlow : ([[0], [1]] ++ (List.range 64).map fun j => [j, 0]).Nodup := by
    refine List.Nodup.append (by decide) (hrow 0) ?_
    simp [List.disjoint_left]
  refine List.Nodup.append hlow (hrow 1) ?_
  simp [List.disjoint_left]

theorem mem_kernelTables {v : Nat} (hv : v < numPages ∨ (0x40000 ≤ v ∧ v < 0x40000 + numPages)) :
    [v / 512 / 512] ∈ kernelTables ∧ [v / 512 % 512, v / 512 / 512] ∈ kernelTables := by
  have hnum : numPages = 32768 := rfl
  rw [hnum] at hv
  unfold kernelTables
  rcases hv with hv | hv
  · have htop : v / 512 / 512 = 0 := by omega
    have hlow : v / 512 % 512 < 64 := by omega
    rw [htop]
    simp [hlow]
  · have htop : v / 512 / 512 = 1 := by omega
    have hlow : v / 512 % 512 < 64 := by omega
    rw [htop]
    simp [hlow]

namespace Vm

/-- After `n` rounds; `free` pages were free before the first one. -/
structure KernelMapped (kernelSize : Word) (r free n : Nat) (vm : Vm) (t : TableTree) : Prop where
  repr : vm.Repr t
  root : t [] = some r
  leaf : ∀ va, vm.leaf t va = kernelEntry kernelSize n (pageNumber va)
  room : vm.phys.numFree + kernelTables.countP (fun m => (t m).isSome) = free

/-- One call of `map_page` in the loop, for an address whose entry is not there yet. -/
theorem mapPage_kernel {vm : Vm} {t : TableTree} {root : Word} {r free : Nat} (h : vm.Repr t)
    (hr : t [] = some r) (hd : Designates root r)
    (hroom : vm.phys.numFree + kernelTables.countP (fun m => (t m).isSome) = free) {va : Word}
    (hva : pageNumber va < numPages ∨
      (0x40000 ≤ pageNumber va ∧ pageNumber va < 0x40000 + numPages))
    (hleaf : vm.leaf t va = 0) (pa flags : Word) :
    ∃ vm' t' ok, vm.mapPage root va pa flags = (vm', ok) ∧ vm'.Repr t' ∧ t' [] = some r ∧
      vm'.phys.numFree + kernelTables.countP (fun m => (t' m).isSome) = free ∧
      vm.SameRegs vm' ∧ (130 < free → ok = true) ∧ (ok = false → vm'.phys.numFree = 0) ∧
      (ok = true → ∀ va', vm'.leaf t' va' =
        if pageNumber va' = pageNumber va then makePte pa (flags ||| pteV)
        else vm.leaf t va') := by
  obtain ⟨vm', t', ok, hrun, hext, hok⟩ := mapPage_spec h hr hd va pa flags
  have hpath : ∀ m ∈ pathTo va, m ∈ kernelTables := by
    intro m hm
    obtain ⟨hmid, hlow⟩ := mem_kernelTables hva
    rw [pathTo, leafNode_eq] at hm
    rcases List.mem_cons.mp hm with rfl | hm
    · have hvpn : (vpn2 va).toNat = pageNumber va / 512 / 512 := by
        rw [vpn2, vpn_toNat, pageNumber]
        omega
      rwa [hvpn]
    · rw [List.mem_singleton.mp hm]
      exact hlow
  have hroom' := (hext.room _ kernelTables_nodup hpath).trans hroom
  have hfull : ok = false → vm'.phys.numFree = 0 := by
    rcases hok with ⟨rfl, -, -⟩ | ⟨-, hvalid | hzero, -⟩
    · exact fun e => absurd e (by simp)
    · rw [hleaf] at hvalid
      exact absurd BitVec.zero_and hvalid
    · exact fun _ => hzero
  refine ⟨vm', t', ok, hrun, hext.repr, hext.mono _ _ hr, hroom', hext.regs, ?_, hfull, ?_⟩
  · intro hfree
    cases ok with
    | true => rfl
    | false =>
      have hzero := hfull rfl
      have hle := List.countP_le_length (p := fun m => (t' m).isSome) (l := kernelTables)
      have hlen : kernelTables.length = 130 := rfl
      omega
  · rintro rfl va'
    rcases hok with ⟨-, -, hleaf'⟩ | ⟨hfalse, -, -⟩
    · rw [hleaf']
      exact if_congr (samePage_iff va va') rfl rfl
    · exact absurd hfalse (by simp)

/-- **A round of the loop.** -/
theorem mapKernelPage_spec {vm : Vm} {t : TableTree} {root kernelSize : Word} {r free n : Nat}
    (h : KernelMapped kernelSize r free n vm t) (hd : Designates root r) (hn : n < numPages) :
    ∃ vm' ok, vm.mapKernelPage root kernelSize n = (vm', ok) ∧ vm.SameRegs vm' ∧
      (130 < free → ok = true) ∧ (ok = false → vm'.phys.numFree = 0) ∧
      (ok = true → ∃ t', KernelMapped kernelSize r free (n + 1) vm' t') := by
  have hn' : n < 32768 := hn
  have hvirt := pageNumber_virt hn
  have hloop := pageNumber_loopAddr hn
  have hempty : vm.leaf t (loopAddr n + physToVirtOffset) = 0 := by
    rw [h.leaf, hvirt, kernelEntry, if_neg (by omega), if_neg (by omega)]
  obtain ⟨vm₁, t₁, ok₁, hrun₁, hrepr₁, hroot₁, hroom₁, hregs₁, hprog₁, hfull₁,
      hleaf₁⟩ :=
    mapPage_kernel h.repr h.root hd h.room
      (Or.inr (by rw [hvirt]; exact ⟨by omega, by omega⟩)) hempty (loopAddr n) rwx
  unfold mapKernelPage
  dsimp only
  rw [hrun₁]
  cases ok₁ with
  | false => exact ⟨vm₁, false, rfl, hregs₁, hprog₁, hfull₁, fun e => absurd e (by simp)⟩
  | true =>
    have hleaf₁' := hleaf₁ rfl
    rw [hvirt] at hleaf₁'
    dsimp only
    by_cases hsize : loopAddr n < kernelSize
    · have hempty₁ : vm₁.leaf t₁ (loopAddr n) = 0 := by
        rw [hleaf₁', hloop, if_neg (by omega), h.leaf, hloop, kernelEntry, if_neg (by omega),
          if_neg (by omega)]
      obtain ⟨vm₂, t₂, ok₂, hrun₂, hrepr₂, hroot₂, hroom₂, hregs₂, hprog₂, hfull₂,
          hleaf₂⟩ :=
        mapPage_kernel hrepr₁ hroot₁ hd hroom₁ (Or.inl (by rw [hloop]; exact hn)) hempty₁
          (loopAddr n) rwx
      rw [if_pos hsize, hrun₂]
      refine ⟨vm₂, ok₂, rfl, hregs₁.trans hregs₂, hprog₂, hfull₂, ?_⟩
      intro hok
      refine ⟨t₂, hrepr₂, hroot₂, ?_, hroom₂⟩
      intro va
      rw [hleaf₂ hok, hloop, kernelEntry_succ hn, hleaf₁', h.leaf]
      simp only [hsize, and_true]
    · rw [if_neg hsize]
      refine ⟨vm₁, true, rfl, hregs₁, fun _ => rfl, fun e => absurd e (by simp),
        fun _ => ⟨t₁, hrepr₁, hroot₁, ?_, hroom₁⟩⟩
      intro va
      have hno : ¬ (pageNumber va = n ∧ loopAddr n < kernelSize) := fun e => hsize e.2
      rw [hleaf₁', kernelEntry_succ hn, if_neg hno, h.leaf]

/-- The loop, from round `n` on. -/
theorem mapKernel_spec {root kernelSize : Word} {r free : Nat} (hd : Designates root r) :
    ∀ (m n : Nat) {vm : Vm} {t : TableTree}, KernelMapped kernelSize r free n vm t →
      n + m ≤ numPages →
      ∃ vm' ok, mapKernel root kernelSize (List.range' n m) vm = (vm', ok) ∧ vm.SameRegs vm' ∧
        (130 < free → ok = true) ∧ (ok = false → vm'.phys.numFree = 0) ∧
        (ok = true → ∃ t', KernelMapped kernelSize r free (n + m) vm' t') := by
  intro m
  induction m with
  | zero =>
    intro n vm t h _
    exact ⟨vm, true, rfl, SameRegs.refl vm, fun _ => rfl, fun e => absurd e (by simp),
      fun _ => ⟨t, h⟩⟩
  | succ m ih =>
    intro n vm t h hle
    obtain ⟨vm₁, ok, hrun, hregs, hprog, hfull, hok⟩ := mapKernelPage_spec h hd (by omega)
    rw [List.range'_succ, mapKernel, hrun]
    cases ok with
    | false => exact ⟨vm₁, false, rfl, hregs, hprog, hfull, fun e => absurd e (by simp)⟩
    | true =>
      obtain ⟨t₁, h₁⟩ := hok rfl
      obtain ⟨vm₂, ok₂, hrun₂, hregs₂, hprog₂, hfull₂, hok₂⟩ := ih (n + 1) h₁ (by omega)
      refine ⟨vm₂, ok₂, hrun₂, hregs.trans hregs₂, hprog₂, hfull₂, ?_⟩
      rwa [Nat.add_assoc, Nat.add_comm 1 m] at hok₂

/-- Before the first round, in a table that was just created. -/
theorem kernelMapped_start {vm : Vm} {r : Nat} (h : vm.Repr (rootOnly r)) (kernelSize root : Word) :
    KernelMapped kernelSize r vm.phys.numFree 0 { vm with kernelPagetable := root }
      (rootOnly r) := by
  refine ⟨h.congr (fun n f hf => (h.owned n f hf).2) (fun _ _ _ _ _ => rfl), rfl, ?_, ?_⟩
  · intro va
    rw [leaf_rootOnly, kernelEntry, if_neg (by omega), if_neg (by omega)]
  · have hcount : kernelTables.countP (fun m => (rootOnly r m).isSome) = 0 := by
      rw [List.countP_eq_zero]
      intro m hm
      have hne : m ≠ [] := by
        rintro rfl
        exact absurd hm (by decide)
      rw [rootOnly, if_neg hne]
      simp
    rw [hcount]
    exact Nat.add_zero _

/-- **`paging_init`** fails for want of a root, or does what the loop does. -/
theorem pagingInit_cases (kend : Word) (vm : Vm) :
    (∃ vm', vm.pagingInit kend = (vm', false) ∧ vm.phys.numFree = 0 ∧
      vm'.phys.numFree = 0) ∨
    ∃ vm₁ root r vm₂ ok, vm.createPageTable = (vm₁, root) ∧ root ≠ 0 ∧ Designates root r ∧
      vm.phys.numFree = vm₁.phys.numFree + 1 ∧
      vm.pagingInit kend = (if ok then vm₂.switchPageTable root else vm₂, ok) ∧
      vm₂.kernelPagetable = root ∧ (130 < vm₁.phys.numFree → ok = true) ∧
      (ok = false → vm₂.phys.numFree = 0) ∧
      (ok = true →
        ∃ t, KernelMapped (kend - kernelBaseAddr) r vm₁.phys.numFree numPages vm₂ t) := by
  obtain ⟨⟨vm₁, root⟩, hcreate⟩ : ∃ res, vm.createPageTable = res := ⟨_, rfl⟩
  by_cases hroot : root = 0
  · refine Or.inl ⟨{ vm₁ with kernelPagetable := root }, ?_, ?_⟩
    · rw [pagingInit, hcreate]
      exact if_pos hroot
    · rcases vm.createPageTable_cases with ⟨hsame, hzero⟩ | ⟨vm', r, hok, hr, -⟩
      · rw [hsame, Prod.mk.injEq] at hcreate
        rw [← hcreate.1]
        exact ⟨hzero, hzero⟩
      · rw [hok] at hcreate
        rw [← (Prod.mk.inj hcreate).2] at hroot
        exact absurd hroot ((vm.designates_helper hr).ne_zero hr)
  · obtain ⟨r, hT, hr, hfree, hphys, -, hrepr⟩ := createPageTable_root hcreate hroot
    have hd : Designates root r := by
      rw [hT]
      exact vm.designates_helper hr
    obtain ⟨vm₂, ok, hrun, hregs, hprog, hfull, hok⟩ := mapKernel_spec hd numPages 0
      (kernelMapped_start hrepr (kend - kernelBaseAddr) root) (by omega)
    rw [Nat.zero_add] at hok
    rw [← List.range_eq_range'] at hrun
    have hstrike := Physmem.numFree_markPageAllocated hr hfree
    rw [← hphys] at hstrike
    refine Or.inr ⟨vm₁, root, r, vm₂, ok, hcreate, hroot, hd, hstrike.symm, ?_,
      hregs.kernelPagetable, hprog, hfull, hok⟩
    unfold pagingInit
    rw [hcreate]
    dsimp only
    rw [if_neg hroot, hrun]
    cases ok <;> rfl

/-- **`paging_init`** reaches `switch_page_table` when more than 131 pages are free; then the
kernel page table is the one of the whole loop. -/
theorem pagingInit_spec (kend : Word) (vm : Vm) :
    ∃ vm' ok, vm.pagingInit kend = (vm', ok) ∧ (131 < vm.phys.numFree → ok = true) ∧
      (ok = true → ∃ t r, vm'.Repr t ∧ t [] = some r ∧ Designates vm'.kernelPagetable r ∧
        vm.phys.numFree ≤ vm'.phys.numFree + 131 ∧
        ∀ va, vm'.leaf t va = kernelEntry (kend - kernelBaseAddr) numPages (pageNumber va)) := by
  rcases vm.pagingInit_cases kend with
    ⟨vm', hrun, hzero, -⟩ |
    ⟨vm₁, root, r, vm₂, ok, -, -, hd, hfree, hrun, hkernel, hprog, -, hok⟩
  · exact ⟨vm', false, hrun, by omega, fun e => absurd e (by simp)⟩
  · refine ⟨_, ok, hrun, fun hlt => hprog (by omega), ?_⟩
    rintro rfl
    obtain ⟨t, h⟩ := hok rfl
    refine ⟨t, r, ?_, h.root, ?_, ?_, h.leaf⟩
    · exact h.repr.congr (fun n f hf => (h.repr.owned n f hf).2) (fun _ _ _ _ _ => rfl)
    · change Designates vm₂.kernelPagetable r
      rw [hkernel]
      exact hd
    · have hle := List.countP_le_length (p := fun m => (t m).isSome) (l := kernelTables)
      have hlen : kernelTables.length = 130 := rfl
      have hroom := h.room
      have hswitch : (vm₂.switchPageTable root).phys = vm₂.phys := rfl
      rw [if_pos rfl, hswitch]
      omega

/-! ## 4. What is mapped -/

/-- The kernel page table after `paging_init`, as `walk_page_table` reads it. -/
theorem walk_kernel {kend : Word} {vm vm' : Vm} (hrun : vm.pagingInit kend = (vm', true))
    (va : Word) :
    vm'.walkPageTable vm'.kernelPagetable va =
      if kernelEntry (kend - kernelBaseAddr) numPages (pageNumber va) &&& pteV ≠ 0 then
        pteAddr (kernelEntry (kend - kernelBaseAddr) numPages (pageNumber va))
          + (va &&& (pageSize - 1))
      else 0 := by
  obtain ⟨vm₁, ok, hrun₁, -, hok⟩ := pagingInit_spec kend vm
  rw [hrun, Prod.mk.injEq] at hrun₁
  obtain ⟨rfl, rfl⟩ := hrun₁
  obtain ⟨t, r, hrepr, hr, hd, -, hleaf⟩ := hok rfl
  rw [walkPageTable_eq hrepr hr hd, hleaf]

/-- Outside the two windows from 0 and from `PHYS_TO_VIRT_OFFSET` on nothing is mapped. -/
theorem walk_kernel_zero {kend : Word} {vm vm' : Vm} (hrun : vm.pagingInit kend = (vm', true))
    {va : Word} (hlow : numPages ≤ pageNumber va)
    (hhigh : pageNumber va < 0x40000 ∨ 0x40000 + numPages ≤ pageNumber va) :
    vm'.walkPageTable vm'.kernelPagetable va = 0 := by
  have hentry : kernelEntry (kend - kernelBaseAddr) numPages (pageNumber va) = 0 := by
    unfold kernelEntry
    rw [if_neg (by omega), if_neg (by omega)]
  rw [walk_kernel hrun, hentry, if_neg (by simp)]

/-- **The window that is mapped**: `PHYS_MEM_SIZE` bytes from `PHYS_TO_VIRT_OFFSET` on, to
physical addresses from 0 on. -/
theorem walk_kernel_window {kend : Word} {vm vm' : Vm} (hrun : vm.pagingInit kend = (vm', true))
    {va : Word} (hlow : physToVirtOffset ≤ va) (hhigh : va < physToVirtOffset + physMemSize) :
    vm'.walkPageTable vm'.kernelPagetable va = va - physToVirtOffset := by
  have hoff : physToVirtOffset.toNat = 0x40000000 := rfl
  have htop : (physToVirtOffset + physMemSize).toNat = 0x48000000 := rfl
  rw [BitVec.le_def, hoff] at hlow
  rw [BitVec.lt_def, htop] at hhigh
  have hpage : pageNumber va = 0x40000 + (va.toNat - 0x40000000) / 4096 := by
    rw [pageNumber]
    omega
  have hn : (va.toNat - 0x40000000) / 4096 < numPages := by
    have hnum : numPages = 32768 := rfl
    omega
  have haddr := loopAddr_toNat hn
  have hentry : kernelEntry (kend - kernelBaseAddr) numPages (pageNumber va)
      = makePte (loopAddr ((va.toNat - 0x40000000) / 4096)) (rwx ||| pteV) := by
    rw [hpage, kernelEntry, if_pos ⟨by omega, by omega⟩, Nat.add_sub_cancel_left]
  have hpte : pteAddr (makePte (loopAddr ((va.toNat - 0x40000000) / 4096)) (rwx ||| pteV))
      = loopAddr ((va.toNat - 0x40000000) / 4096) :=
    pteAddr_makePte (by rw [haddr]; omega) (by rw [haddr]; omega) (by decide)
  rw [walk_kernel hrun, hentry, if_pos (makePte_valid _ _), hpte]
  refine BitVec.eq_of_toNat_eq ?_
  have hmask : (va &&& (pageSize - 1)).toNat = va.toNat % 4096 := by
    have hm : (pageSize - 1).toNat = 2 ^ 12 - 1 := rfl
    rw [BitVec.toNat_and, hm, Nat.and_two_pow_sub_one_eq_mod]
  rw [BitVec.toNat_add, haddr, hmask, BitVec.toNat_sub, hoff]
  omega

/-- The kernel page table maps RAM in the high half, and the kernel image where it is. -/
def KernelCovered (kend : Word) (vm : Vm) : Prop :=
  (∀ p, kernelBaseAddr ≤ p → p < kernelBaseAddr + physMemSize →
    vm.walkPageTable vm.kernelPagetable (physToVirt p) = p) ∧
  ∀ a, kernelBaseAddr ≤ a → a < kend → vm.walkPageTable vm.kernelPagetable a = a

/-- No page of RAM is mapped in the high half. -/
theorem highHalf_unmapped {kend : Word} {vm vm' : Vm} (hrun : vm.pagingInit kend = (vm', true))
    {p : Word} (hlow : kernelBaseAddr ≤ p) (hhigh : p < kernelBaseAddr + physMemSize) :
    vm'.walkPageTable vm'.kernelPagetable (physToVirt p) = 0 := by
  have hbase : kernelBaseAddr.toNat = 0x80000000 := rfl
  have htop : (kernelBaseAddr + physMemSize).toNat = 0x88000000 := rfl
  have hoff : physToVirtOffset.toNat = 0x40000000 := rfl
  have hnum : numPages = 32768 := rfl
  rw [BitVec.le_def, hbase] at hlow
  rw [BitVec.lt_def, htop] at hhigh
  have hpage : pageNumber (physToVirt p) = (p.toNat + 0x40000000) / 4096 := by
    rw [pageNumber, physToVirt, BitVec.toNat_add, hoff]
    omega
  exact walk_kernel_zero hrun (by omega) (by omega)

/-- **`paging_init` never covers the memory the kernel uses.** -/
theorem pagingInit_not_covered {kend : Word} {vm vm' : Vm}
    (hrun : vm.pagingInit kend = (vm', true)) : ¬ KernelCovered kend vm' := by
  intro h
  have hp := h.1 kernelBaseAddr (by decide) (by decide)
  rw [highHalf_unmapped hrun (by decide) (by decide)] at hp
  exact absurd hp (by decide)

/-- A kernel image of 32 pages leaves the others free. -/
theorem boot_numFree (mem : Word → Word) : (boot 0x80020000 mem).phys.numFree = 32736 := by
  rw [boot, Physmem.numFree_physmemInit]
  decide

/-- With it `paging_init` reaches `switch_page_table`. -/
theorem pagingInit_reaches (mem : Word → Word) :
    ∃ vm', (boot 0x80020000 mem).pagingInit 0x80020000 = (vm', true) := by
  obtain ⟨vm', ok, hrun, hprog, -⟩ := pagingInit_spec 0x80020000 (boot 0x80020000 mem)
  have hfree := boot_numFree mem
  exact ⟨vm', by rw [hrun, hprog (by omega)]⟩

theorem pagingInit_not_covered_boot :
    ∃ vm', (boot 0x80020000 fun _ => 0).pagingInit 0x80020000 = (vm', true) ∧
      ¬ KernelCovered 0x80020000 vm' := by
  obtain ⟨vm', hrun⟩ := pagingInit_reaches fun _ => 0
  exact ⟨vm', hrun, pagingInit_not_covered hrun⟩

/-- The first address of RAM is not mapped in the high half. -/
theorem first_page_unmapped : ¬ ∀ (kend : Word) (mem : Word → Word) (vm' : Vm),
    (boot kend mem).pagingInit kend = (vm', true) → KernelCovered kend vm' := by
  intro h
  obtain ⟨vm', hrun⟩ := pagingInit_reaches fun _ => 0
  have hp := (h 0x80020000 _ vm' hrun).1 kernelBaseAddr (by decide) (by decide)
  rw [highHalf_unmapped hrun (by decide) (by decide)] at hp
  exact absurd hp (by decide)

end Vm

end Lithium
