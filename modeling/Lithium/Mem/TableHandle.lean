/-
# Handles of page tables

`create_page_table` hands out a pointer, and `switch_page_table` and `free_page_table` turn it back
into a physical address, by `virt_to_phys_helper`.  What the two conversions do depends on
`paging_active`, which `switch_page_table` sets.  Section 1 says when a handle still designates its
page.

`free_page_table` frees the page of the handle, which is the root; `walk` allocates tables below it.
Section 2 says when the pages of a table that is destroyed are all free again.
-/
import Lithium.Mem.KernelMap
import Lithium.Mem.PageMap

namespace Lithium.Vm

/-! ## 1. What a handle designates -/

/-- The field PPN of `satp`. -/
def satpPpn (satp : Word) : Word := (satp.extractLsb' 0 44).setWidth 64

/-- The handle `T` designates the page at `P`: `switch_page_table` installs it, `free_page_table`
frees it and no other. -/
structure HandleOk (vm : Vm) (T P : Word) : Prop where
  installs : satpPpn (vm.switchPageTable T).satp = P / pageSize
  frees : ∀ j, j < numPages →
    (vm.freePageTable T).phys.isPageFree j = (vm.phys.isPageFree j || decide (pageAddr j = P))

/-- What `virt_to_phys_helper` makes of what `phys_to_virt_helper` made of a page. -/
theorem virtToPhysHelper_toNat (vm vm' : Vm) {f : Nat} (hf : f < numPages) :
    (vm'.virtToPhysHelper (vm.physToVirtHelper (pageAddr f))).toNat =
      if vm'.pagingActive = vm.pagingActive then 0x80000000 + 4096 * f
      else if vm.pagingActive then 0xC0000000 + 4096 * f else 0x40000000 + 4096 * f := by
  have hf' : f < 32768 := hf
  have hoff : physToVirtOffset.toNat = 0x40000000 := rfl
  have haddr := pageAddr_toNat hf
  unfold virtToPhysHelper physToVirtHelper
  cases hact : vm.pagingActive <;> cases hact' : vm'.pagingActive
  · exact haddr
  · change (virtToPhys (pageAddr f)).toNat = 0x40000000 + 4096 * f
    rw [virtToPhys, BitVec.toNat_sub, haddr, hoff]
    omega
  · change (physToVirt (pageAddr f)).toNat = 0xC0000000 + 4096 * f
    rw [physToVirt, BitVec.toNat_add, haddr, hoff]
    omega
  · change (virtToPhys (physToVirt (pageAddr f))).toNat = 0x80000000 + 4096 * f
    rw [virtToPhys, physToVirt, BitVec.add_sub_cancel, haddr]

/-- The handle of a page gives the page back when paging is as active as it was. -/
theorem virtToPhysHelper_eq_iff (vm vm' : Vm) {f : Nat} (hf : f < numPages) :
    vm'.virtToPhysHelper (vm.physToVirtHelper (pageAddr f)) = pageAddr f ↔
      vm'.pagingActive = vm.pagingActive := by
  have hnat := vm.virtToPhysHelper_toNat vm' hf
  constructor
  · intro h
    by_contra hne
    rw [h, pageAddr_toNat hf, if_neg hne] at hnat
    split at hnat <;> omega
  · intro h
    rw [if_pos h, ← pageAddr_toNat hf] at hnat
    exact BitVec.eq_of_toNat_eq hnat

/-- What `switch_page_table` installs. -/
theorem satpPpn_switch (vm : Vm) (T : Word) (hlt : (vm.virtToPhysHelper T).toNat < 2 ^ 46)
    (hdvd : (vm.virtToPhysHelper T).toNat % 4096 = 0) :
    satpPpn (vm.switchPageTable T).satp = vm.virtToPhysHelper T / pageSize := by
  obtain ⟨-, hppn⟩ := satp_fields hlt hdvd
  have hsize : pageSize.toNat = 4096 := rfl
  have hnat := congrArg BitVec.toNat hppn
  have hbound : (satpPpn (vm.switchPageTable T).satp).toNat < 2 ^ 44 := by
    rw [satpPpn, BitVec.toNat_setWidth]
    exact Nat.lt_of_le_of_lt (Nat.mod_le _ _) (BitVec.isLt _)
  change (satpPpn (vm.switchPageTable T).satp <<< 12).toNat = _ at hnat
  rw [BitVec.toNat_shiftLeft, Nat.shiftLeft_eq] at hnat
  refine BitVec.eq_of_toNat_eq ?_
  rw [BitVec.toNat_udiv, hsize]
  omega

/-- The handle `create_page_table` returns. -/
theorem createPageTable_handle {vm vm₀ : Vm} {T : Word}
    (hcreate : vm.createPageTable = (vm₀, T)) (hT : T ≠ 0) :
    ∃ r, r < numPages ∧ vm.phys.allocPage.2 = pageAddr r ∧
      T = vm.physToVirtHelper (pageAddr r) := by
  rcases vm.phys.allocPage_cases with ⟨halloc, -⟩ | ⟨r, hr, -, halloc⟩
  · rw [createPageTable, halloc] at hcreate
    exact absurd (Prod.mk.inj hcreate).2.symm hT
  · refine ⟨r, hr, by rw [halloc], ?_⟩
    rw [createPageTable, halloc] at hcreate
    dsimp only at hcreate
    rw [if_neg (pageAddr_ne_zero hr)] at hcreate
    exact (Prod.mk.inj hcreate).2.symm

/-- What `switch_page_table` installs for the handle of a page. -/
theorem installs_iff (vm vm' : Vm) {r : Nat} (hr : r < numPages) :
    satpPpn (vm'.switchPageTable (vm.physToVirtHelper (pageAddr r))).satp = pageAddr r / pageSize ↔
      vm'.pagingActive = vm.pagingActive := by
  have hr' : r < 32768 := hr
  have hsize : pageSize.toNat = 4096 := rfl
  have hnat := vm.virtToPhysHelper_toNat vm' hr
  rw [← vm.virtToPhysHelper_eq_iff vm' hr]
  generalize vm.physToVirtHelper (pageAddr r) = T at hnat ⊢
  -- in every case it is the address of a page
  have hbounds : (vm'.virtToPhysHelper T).toNat < 2 ^ 46 ∧
      (vm'.virtToPhysHelper T).toNat % 4096 = 0 := by
    rw [hnat]
    split
    · omega
    · split <;> omega
  rw [satpPpn_switch vm' T hbounds.1 hbounds.2]
  constructor
  · intro h
    have hpage := congrArg BitVec.toNat h
    have haddr := pageAddr_toNat hr
    rw [BitVec.toNat_udiv, BitVec.toNat_udiv, hsize] at hpage
    refine BitVec.eq_of_toNat_eq ?_
    omega
  · intro h
    rw [h]

/-- **A handle keeps designating its page exactly while paging is as active as it was when the
handle was made.** -/
theorem handle_ok_iff {vm vm₀ : Vm} {T : Word} (hcreate : vm.createPageTable = (vm₀, T))
    (hT : T ≠ 0) (vm' : Vm) :
    HandleOk vm' T vm.phys.allocPage.2 ↔ vm'.pagingActive = vm.pagingActive := by
  obtain ⟨r, hr, hP, rfl⟩ := createPageTable_handle hcreate hT
  rw [hP]
  constructor
  · exact fun h => (vm.installs_iff vm' hr).mp h.installs
  · intro hactive
    refine ⟨(vm.installs_iff vm' hr).mpr hactive, fun j hj => ?_⟩
    rw [freePageTable, if_neg hT, (vm.virtToPhysHelper_eq_iff vm' hr).mpr hactive]
    change (vm'.phys.freePage (pageAddr r)).isPageFree j = _
    have hsame : j = r ↔ pageAddr j = pageAddr r := ⟨fun e => e ▸ rfl, pageAddr_inj hj hr⟩
    rw [Physmem.isPageFree_freePage_pageAddr _ hr, decide_eq_decide.mpr hsame]

/-- `paging_init` makes the kernel page table in the state it finds, and leaves paging active. -/
theorem pagingInit_handle {kend : Word} {vm vm' : Vm} (hrun : vm.pagingInit kend = (vm', true)) :
    ∃ vm₀, vm.createPageTable = (vm₀, vm'.kernelPagetable) ∧ vm'.kernelPagetable ≠ 0 ∧
      vm'.pagingActive = true := by
  rcases vm.pagingInit_cases kend with
    ⟨vm₁, hfail, -⟩ | ⟨vm₁, root, r, vm₂, ok, hcreate, hroot, -, -, hok, hkernel, -⟩
  · rw [hfail] at hrun
    exact absurd (Prod.mk.inj hrun).2 (by simp)
  · rw [hok, Prod.mk.injEq] at hrun
    obtain ⟨rfl, rfl⟩ := hrun
    change ∃ vm₀, vm.createPageTable = (vm₀, vm₂.kernelPagetable) ∧ vm₂.kernelPagetable ≠ 0 ∧ _
    rw [hkernel]
    exact ⟨vm₁, hcreate, hroot, rfl⟩

/-- The kernel page table after `paging_init`: its handle was made with paging off. -/
theorem handle_ok_kernel : ∃ vm',
    (boot 0x80020000 fun _ => 0).pagingInit 0x80020000 = (vm', true) ∧
    vm'.kernelPagetable ≠ 0 ∧ vm'.pagingActive = true ∧
    (HandleOk vm' vm'.kernelPagetable (boot 0x80020000 fun _ => 0).phys.allocPage.2 ↔
      vm'.pagingActive = (boot 0x80020000 fun _ => 0).pagingActive) := by
  obtain ⟨vm', hrun⟩ := pagingInit_reaches fun _ => 0
  obtain ⟨vm₀, hcreate, hne, hactive⟩ := pagingInit_handle hrun
  exact ⟨vm', hrun, hne, hactive, handle_ok_iff hcreate hne vm'⟩

/-- The handle of the kernel page table is lost in `paging_init`. -/
theorem kernel_handle_lost : ¬ ∀ (kend : Word) (mem : Word → Word) (vm' : Vm),
    (boot kend mem).pagingInit kend = (vm', true) →
      HandleOk vm' vm'.kernelPagetable (boot kend mem).phys.allocPage.2 := by
  intro h
  obtain ⟨vm', hrun⟩ := pagingInit_reaches fun _ => 0
  obtain ⟨vm₀, hcreate, hne, hactive⟩ := pagingInit_handle hrun
  have hinstalls := (h _ _ vm' hrun).installs
  obtain ⟨r, hr, hP, hT⟩ := createPageTable_handle hcreate hne
  rw [hT, hP, installs_iff _ _ hr, hactive] at hinstalls
  exact absurd hinstalls (by simp [boot])

/-! ## 2. What destroying a table frees -/

/-- The calls, one after the other. -/
def tableOps (root : Word) (ops : List TableOp) (vm : Vm) : Vm :=
  ops.foldl (fun vm op => (vm.tableOp root op).1) vm

/-- All pages are free again that were free, and no others; the count is the same. -/
structure Returned (vm vm' : Vm) : Prop where
  count : vm'.phys.freePagesCount = vm.phys.freePagesCount
  pages : ∀ f, vm'.phys.isPageFree f = vm.phys.isPageFree f

/-! ### A table without tables below it -/

theorem unmapPage_phys (vm : Vm) (root va : Word) : (vm.unmapPage root va).phys = vm.phys := by
  unfold unmapPage
  split
  · rfl
  · split <;> rfl

/-- Without free pages nothing is taken. -/
theorem nextTable_phys {vm : Vm} (hzero : vm.phys.numFree = 0) (pte : Word) (alloc : Bool) :
    (vm.nextTable pte alloc).1.phys = vm.phys := by
  rcases vm.phys.allocPage_cases with ⟨halloc, -⟩ | ⟨f, hf, hfree, -⟩
  · unfold nextTable
    rw [halloc]
    split
    · split <;> rfl
    · rfl
  · have hpos := Physmem.numFree_markPageAllocated hf hfree
    omega

theorem mapPage_phys {vm : Vm} (hzero : vm.phys.numFree = 0) (root va pa flags : Word) :
    (vm.mapPage root va pa flags).1.phys = vm.phys := by
  have hwalk : (vm.walk root va true).1.phys = vm.phys := by
    unfold walk
    have hfirst := nextTable_phys hzero (entryPtr root (vpn2 va)) true
    generalize vm.nextTable (entryPtr root (vpn2 va)) true = next at hfirst ⊢
    obtain ⟨vm₁, level1⟩ := next
    cases level1 with
    | none => exact hfirst
    | some level1 =>
      have hzero₁ : vm₁.phys.numFree = 0 := (congrArg Physmem.numFree hfirst).trans hzero
      have hsecond := nextTable_phys hzero₁ (entryPtr level1 (vpn1 va)) true
      dsimp only
      generalize vm₁.nextTable (entryPtr level1 (vpn1 va)) true = next at hsecond ⊢
      obtain ⟨vm₂, level0⟩ := next
      cases level0 <;> exact hsecond.trans hfirst
  unfold mapPage
  generalize vm.walk root va true = walked at hwalk ⊢
  obtain ⟨vm₁, pte⟩ := walked
  cases pte with
  | none => exact hwalk
  | some pte =>
    dsimp only
    split <;> exact hwalk

theorem tableOps_phys {root : Word} {ops : List TableOp} :
    ∀ {vm : Vm}, (∀ op ∈ ops, ¬ op.IsMap) ∨ vm.phys.numFree = 0 →
      (tableOps root ops vm).phys = vm.phys := by
  induction ops with
  | nil => exact fun _ => rfl
  | cons op ops ih =>
    intro vm h
    have hop : (vm.tableOp root op).1.phys = vm.phys := by
      cases op with
      | unmap va => exact vm.unmapPage_phys root va
      | map va m =>
        rcases h with h | hzero
        · exact absurd trivial (h (.map va m) List.mem_cons_self)
        · exact mapPage_phys hzero root va m.pa m.flags
    refine (@ih (vm.tableOp root op).1 ?_).trans hop
    rcases h with h | hzero
    · exact Or.inl fun op' hop' => h op' (List.mem_cons_of_mem _ hop')
    · exact Or.inr (by rw [hop, hzero])

/-! ### A table with tables below it -/

theorem tableOp_spec {vm : Vm} {t : TableTree} {root : Word} {r : Nat} (h : vm.Repr t)
    (hr : t [] = some r) (hd : Designates root r) (op : TableOp) :
    ∃ t' va, Extends vm t (vm.tableOp root op).1 t' va := by
  cases op with
  | map va m =>
    obtain ⟨vm', t', ok, hrun, hext, -⟩ := mapPage_spec h hr hd va m.pa m.flags
    refine ⟨t', va, ?_⟩
    rw [tableOp, hrun]
    exact hext
  | unmap va => exact ⟨t, va, (unmapPage_spec h hr hd va).1⟩

/-- Calls leave the registers and the pages that are taken as they are. -/
theorem tableOps_spec {root : Word} {r : Nat} (hd : Designates root r) (ops : List TableOp) :
    ∀ {vm : Vm} {t : TableTree}, vm.Repr t → t [] = some r →
      SameRegs vm (tableOps root ops vm) ∧
        ∀ f, vm.phys.isPageFree f = false → (tableOps root ops vm).phys.isPageFree f = false := by
  induction ops with
  | nil => exact fun _ _ => ⟨SameRegs.refl _, fun _ hf => hf⟩
  | cons op ops ih =>
    intro vm t h hr
    obtain ⟨t', va, hext⟩ := tableOp_spec h hr hd op
    obtain ⟨hregs, htaken⟩ := ih hext.repr (hext.mono _ _ hr)
    exact ⟨hext.regs.trans hregs, fun f hf => htaken f (hext.taken f hf)⟩

/-- The first call of `map_page` takes a page, if there is one. -/
theorem mapPage_takes {vm : Vm} {root : Word} {r : Nat} (h : vm.Repr (rootOnly r))
    (hd : Designates root r) (hfree : vm.phys.numFree ≠ 0) (va pa flags : Word) :
    ∃ f, vm.phys.isPageFree f = true ∧
      (vm.mapPage root va pa flags).1.phys.isPageFree f = false := by
  obtain ⟨vm', t', ok, hrun, hext, hres⟩ := mapPage_spec h (if_pos rfl) hd va pa flags
  rw [hrun]
  rcases hres with ⟨-, -, hleaf⟩ | ⟨-, hvalid | hzero, -⟩
  · -- the entry was made, in a table that was not there
    have hentry := hleaf va
    rw [if_pos ⟨rfl, rfl⟩] at hentry
    cases hnode : t' (leafNode va) with
    | none =>
      rw [leaf, hnode] at hentry
      exact absurd BitVec.zero_and (hentry ▸ makePte_valid pa flags)
    | some f =>
      have habsent : rootOnly r (leafNode va) = none := if_neg (by simp [leafNode])
      exact ⟨f, (hext.fresh _ f habsent hnode).2, (hext.repr.owned _ f hnode).2⟩
  · rw [leaf_rootOnly] at hvalid
    exact absurd BitVec.zero_and hvalid
  · -- memory is out, and was not
    obtain ⟨f, hf, hffree⟩ := List.countP_pos_iff.mp (Nat.pos_of_ne_zero hfree)
    refine ⟨f, hffree, ?_⟩
    simpa using List.countP_eq_zero.mp hzero f hf

/-- Calls with one of `map_page` among them take a page, if there is one. -/
theorem tableOps_takes {root : Word} {r : Nat} (hd : Designates root r) {ops : List TableOp} :
    ∀ {vm : Vm}, vm.Repr (rootOnly r) → vm.phys.numFree ≠ 0 → (∃ op ∈ ops, op.IsMap) →
      ∃ f, vm.phys.isPageFree f = true ∧ (tableOps root ops vm).phys.isPageFree f = false := by
  induction ops with
  | nil =>
    rintro vm - - ⟨op, hop, -⟩
    exact absurd hop (by simp)
  | cons op ops ih =>
    rintro vm h hfree ⟨op', hop', hmap⟩
    cases op with
    | map va m =>
      obtain ⟨f, hf, htaken⟩ := mapPage_takes h hd hfree va m.pa m.flags
      obtain ⟨t', va', hext⟩ := tableOp_spec h (if_pos rfl) hd (.map va m)
      exact ⟨f, hf, (tableOps_spec hd ops hext.repr (hext.mono _ _ (if_pos rfl))).2 f htaken⟩
    | unmap va =>
      have hphys := vm.unmapPage_phys root va
      have hrest : ∃ op ∈ ops, op.IsMap := by
        rcases List.mem_cons.mp hop' with rfl | hin
        · exact hmap.elim
        · exact ⟨op', hin, hmap⟩
      obtain ⟨f, hf, htaken⟩ := @ih (vm.unmapPage root va)
        (unmapPage_spec h (if_pos rfl) hd va).1.repr (by rwa [hphys]) hrest
      exact ⟨f, hphys ▸ hf, htaken⟩

/-- **Destroying a page table frees all its pages exactly when it has none but its root**: no call
was one of `map_page`, or the root was the last free page. -/
theorem pages_returned_iff {vm vm₀ : Vm} {root : Word} (hcreate : vm.createPageTable = (vm₀, root))
    (hroot : root ≠ 0) (ops : List TableOp) :
    Returned vm ((tableOps root ops vm₀).freePageTable root) ↔
      (∀ op ∈ ops, ¬ op.IsMap) ∨ vm.phys.numFree = 1 := by
  obtain ⟨r, hT, hr, hfree, hphys, hregs, hrepr⟩ := createPageTable_root hcreate hroot
  have hd : Designates root r := by
    rw [hT]
    exact vm.designates_helper hr
  obtain ⟨hregs', htaken⟩ := tableOps_spec hd ops hrepr (if_pos rfl)
  -- what is freed is the root
  have hhelper : (tableOps root ops vm₀).virtToPhysHelper root = pageAddr r := by
    rw [hT, virtToPhysHelper_eq_iff _ _ hr, ← hT, hregs'.pagingActive, hregs.pagingActive]
  have hend : ((tableOps root ops vm₀).freePageTable root).phys
      = (tableOps root ops vm₀).phys.freePage (pageAddr r) := by
    rw [freePageTable, if_neg hroot, hhelper]
  have hone : vm₀.phys.numFree + 1 = vm.phys.numFree := by
    rw [hphys]
    exact Physmem.numFree_markPageAllocated hr hfree
  have hbit : ∀ f, vm₀.phys.isPageFree f = (vm.phys.isPageFree f && decide (f ≠ r)) := by
    intro f
    rw [hphys, Physmem.isPageFree_markPageAllocated]
  constructor
  · intro h
    by_contra hcon
    rw [not_or] at hcon
    obtain ⟨hmaps, hmore⟩ := hcon
    push Not at hmaps
    obtain ⟨f, hf, hlost⟩ := tableOps_takes hd hrepr (by omega) hmaps
    -- the page that was taken is not the root, and is not freed
    rw [hbit, Bool.and_eq_true, decide_eq_true_eq] at hf
    have hback := h.pages f
    rw [hend, Physmem.isPageFree_freePage_pageAddr _ hr, hlost, hf.1, decide_eq_false hf.2] at hback
    exact absurd hback (by simp)
  · intro h
    have hsame : (tableOps root ops vm₀).phys = vm₀.phys := tableOps_phys (h.imp_right (by omega))
    have hroot' : vm₀.phys.isPageFree r = false := by
      rw [hbit]
      simp
    rw [hsame, Physmem.freePage_pageAddr _ hr, hroot', if_neg (by simp)] at hend
    refine ⟨?_, fun f => ?_⟩
    · rw [hend, hphys]
      exact BitVec.sub_add_cancel _ _
    · rw [hend, Physmem.isPageFree_markPageFree, hbit]
      by_cases hf : f = r
      · simp [hf, hfree]
      · simp [hf]

/-- A page is mapped and unmapped: two pages are lost. -/
theorem pages_returned_iff_unmapped : newTable.2 ≠ 0 ∧
    (Returned (boot 0x80020000 fun _ => 0)
        ((tableOps newTable.2 [firstMap, .unmap 0x1000] newTable.1).freePageTable newTable.2) ↔
      (∀ op ∈ [firstMap, .unmap 0x1000], ¬ op.IsMap) ∨
        (boot 0x80020000 fun _ => 0).phys.numFree = 1) ∧
    ((tableOps newTable.2 [firstMap, .unmap 0x1000] newTable.1).freePageTable
      newTable.2).phys.freePagesCount + 2 = (boot 0x80020000 fun _ => 0).phys.freePagesCount :=
  ⟨newTable_ne_zero,
    pages_returned_iff (Prod.mk.eta (p := newTable)).symm newTable_ne_zero
      [firstMap, .unmap 0x1000],
    by decide +kernel⟩

/-- After one call of `map_page` two pages are lost. -/
theorem tables_leak : ¬ ∀ (vm vm₀ : Vm) (root : Word) (ops : List TableOp),
    vm.createPageTable = (vm₀, root) → root ≠ 0 →
      Returned vm ((tableOps root ops vm₀).freePageTable root) := by
  intro h
  have hcount := (h _ _ _ [firstMap] (Prod.mk.eta (p := newTable)).symm newTable_ne_zero).count
  have hlost : ((tableOps newTable.2 [firstMap] newTable.1).freePageTable
      newTable.2).phys.freePagesCount + 2 = (boot 0x80020000 fun _ => 0).phys.freePagesCount := by
    decide +kernel
  have hcycle := hlost.trans hcount.symm
  generalize ((tableOps newTable.2 [firstMap] newTable.1).freePageTable
    newTable.2).phys.freePagesCount = n at hcycle
  bv_omega

end Lithium.Vm
