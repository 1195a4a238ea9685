/-
# A page table is a finite map

What `map_page` and `unmap_page` make of a table that `create_page_table` returned, over whole runs
of calls.  Between two calls the rest of the kernel may do what it likes, except to the pages of the
table: so a call may find any pages free, or only one where it needs two, or none.

The map is read off the outcomes of the calls (section 2).  Section 4 says that `walk_page_table`
reads that map, when `map_page` fails, and what it leaves behind when it does.
-/
import Lithium.Mem.HardwareWalk

namespace Lithium

/-! ## 1. Calls -/

/-- What `map_page` is asked to map an address to. -/
structure Mapping where
  pa : Word
  flags : Word

/-- A page-aligned address below `2^46`, and flags within the bits 0 to 9. -/
def Mapping.Fits (m : Mapping) : Prop :=
  m.pa % pageSize = 0 ∧ m.pa < (1 : Word) <<< 46 ∧ m.flags < (1 : Word) <<< 10

/-- A call on a page table. -/
inductive TableOp
  | map (va : Word) (m : Mapping)
  | unmap (va : Word)

/-- What is asked of the arguments. -/
def TableOp.Fits : TableOp → Prop
  | .map _ m => m.Fits
  | .unmap _ => True

/-- The call is one of `map_page`. -/
def TableOp.IsMap : TableOp → Prop
  | .map _ _ => True
  | .unmap _ => False

/-- The addresses have the same `VPN2`, `VPN1` and `VPN0`. -/
def SamePage (va va' : Word) : Prop := vpn2 va' = vpn2 va ∧ vpn1 va' = vpn1 va ∧ vpn0 va' = vpn0 va

instance (va va' : Word) : Decidable (SamePage va va') := inferInstanceAs (Decidable (_ ∧ _))

namespace Vm

/-- A call; the flag says that `map_page` returned 0. -/
def tableOp (vm : Vm) (root : Word) : TableOp → Vm × Bool
  | .map va m => vm.mapPage root va m.pa m.flags
  | .unmap va => (vm.unmapPage root va, true)

/-- What one level of `walk` gets from `physmem_alloc_page`, if it calls it. -/
def levelAlloc (vm : Vm) (pte : Word) : Option Word :=
  if vm.load pte &&& pteV = 0 then some vm.phys.allocPage.2 else none

/-- What `walk` gets from `physmem_alloc_page`, when it may allocate. -/
def walkAllocs (vm : Vm) (pagetable va : Word) : List Word :=
  (vm.levelAlloc (entryPtr pagetable (vpn2 va))).toList ++
    match vm.nextTable (entryPtr pagetable (vpn2 va)) true with
    | (_, none) => []
    | (vm, some level1) => (vm.levelAlloc (entryPtr level1 (vpn1 va))).toList

/-- Page `f` is the table found from the root by following valid entries. -/
inductive TablePage (vm : Vm) (root : Word) : TableNode → Nat → Prop
  | root {r : Nat} (hr : r < numPages) (hd : Designates root r) : TablePage vm root [] r
  | child {n : TableNode} {f k c : Nat} (h : TablePage vm root n f) (hn : n.length < 2)
      (hk : k < 512) (hc : c < numPages) (hv : vm.word f k &&& pteV ≠ 0)
      (haddr : pteAddr (vm.word f k) = pageAddr c) : TablePage vm root (k :: n) c

/-- What the rest of the kernel does between two calls. -/
structure Elsewhere (root : Word) (vm vm' : Vm) : Prop where
  active : vm'.pagingActive = vm.pagingActive
  taken : ∀ n f, TablePage vm root n f → vm'.phys.isPageFree f = false
  word : ∀ n f k, TablePage vm root n f → k < 512 → vm'.word f k = vm.word f k

/-- The runs of calls on a table, from `vm₀` on; the calls with their outcomes, the last one
first. -/
inductive TableRun (root : Word) (vm₀ : Vm) : List (TableOp × Bool) → Vm → Prop
  | create : TableRun root vm₀ [] vm₀
  | call {log : List (TableOp × Bool)} {vm : Vm} (h : TableRun root vm₀ log vm) (op : TableOp)
      (hop : op.Fits) :
      TableRun root vm₀ ((op, (vm.tableOp root op).2) :: log) (vm.tableOp root op).1
  | other {log : List (TableOp × Bool)} {vm vm' : Vm} (h : TableRun root vm₀ log vm)
      (helse : Elsewhere root vm vm') : TableRun root vm₀ log vm'

end Vm

/-! ## 2. The map -/

/-- What the last effective call on the page of `va` mapped it to. -/
def lastMap : List (TableOp × Bool) → Word → Option Mapping
  | [], _ => none
  | (.map va m, true) :: log, x => if SamePage va x then some m else lastMap log x
  | (.map _ _, false) :: log, x => lastMap log x
  | (.unmap va, _) :: log, x => if SamePage va x then none else lastMap log x

/-- The level-0 entry for what a page is mapped to. -/
def entryOf (m : Option Mapping) : Word := m.elim 0 fun m => makePte m.pa (m.flags ||| pteV)

theorem entryOf_valid (m : Option Mapping) : entryOf m &&& pteV ≠ 0 ↔ m.isSome = true := by
  cases m with
  | none => simp [entryOf]
  | some m => exact iff_of_true (makePte_valid _ _) rfl

theorem samePage_leaf (va va' : Word) :
    (leafNode va' = leafNode va ∧ vpn0 va' = vpn0 va) ↔ SamePage va va' := by
  unfold SamePage leafNode
  rw [List.cons.injEq, List.cons.injEq]
  constructor
  · rintro ⟨⟨h₁, h₂, -⟩, h₀⟩
    exact ⟨BitVec.eq_of_toNat_eq h₂, BitVec.eq_of_toNat_eq h₁, h₀⟩
  · rintro ⟨h₂, h₁, h₀⟩
    exact ⟨⟨congrArg BitVec.toNat h₁, congrArg BitVec.toNat h₂, rfl⟩, h₀⟩

theorem lastMap_fits {log : List (TableOp × Bool)} (h : ∀ c ∈ log, c.1.Fits) {x : Word}
    {m : Mapping} (hm : lastMap log x = some m) : m.Fits := by
  induction log with
  | nil => exact absurd hm (by simp [lastMap])
  | cons c log ih =>
    have hrest := ih fun c hc => h c (List.mem_cons_of_mem _ hc)
    have hc := h c List.mem_cons_self
    obtain ⟨op, ok⟩ := c
    cases op with
    | map va m' =>
      cases ok with
      | false => exact hrest hm
      | true =>
        rw [lastMap] at hm
        split at hm
        · exact Option.some.inj hm ▸ hc
        · exact hrest hm
    | unmap va =>
      rw [lastMap] at hm
      split at hm
      · exact absurd hm (by simp)
      · exact hrest hm

/-- The address an entry gives back. -/
theorem pteAddr_entry {m : Mapping} (h : m.Fits) :
    pteAddr (makePte m.pa (m.flags ||| pteV)) = m.pa := by
  obtain ⟨halign, hlt, hflags⟩ := h
  have hsize : pageSize.toNat = 4096 := rfl
  have h46 : ((1 : Word) <<< 46).toNat = 2 ^ 46 := rfl
  have h10 : ((1 : Word) <<< 10).toNat = 2 ^ 10 := rfl
  have hmod := congrArg BitVec.toNat halign
  rw [BitVec.toNat_umod, hsize] at hmod
  rw [BitVec.lt_def, h46] at hlt
  rw [BitVec.lt_def, h10] at hflags
  have hzero : (0 : Word).toNat = 0 := rfl
  rw [hzero] at hmod
  refine pteAddr_makePte hlt (by omega) (BitVec.eq_of_getLsbD_eq ?_)
  intro i hi
  have hnone : (0 : Word).getLsbD i = false := BitVec.getLsbD_zero
  rw [BitVec.getLsbD_and, BitVec.getLsbD_or, pteAddrMask_getLsbD, hnone]
  by_cases h : 10 ≤ i ∧ i < 46
  · have hpow : 2 ^ 10 ≤ 2 ^ i := Nat.pow_le_pow_right (by omega) h.1
    have hflag : m.flags.getLsbD i = false := Nat.testBit_lt_two_pow (by omega)
    have hV : pteV.getLsbD i = false := Nat.testBit_lt_two_pow (by
      have : pteV.toNat = 1 := rfl
      omega)
    rw [hflag, hV]
    rfl
  · rw [decide_eq_false h, Bool.and_false]

theorem offset_eq (x : Word) : x &&& (pageSize - 1) = x % pageSize := by
  refine BitVec.eq_of_toNat_eq ?_
  have hm : (pageSize - 1).toNat = 2 ^ 12 - 1 := rfl
  have hsize : pageSize.toNat = 2 ^ 12 := rfl
  rw [BitVec.toNat_and, BitVec.toNat_umod, hm, hsize, Nat.and_two_pow_sub_one_eq_mod]

/-! ## 3. The tables of a run -/

namespace Vm

/-- The nodes of the tree are within the bounds of the tables. -/
def Proper (t : TableTree) : Prop := ∀ n f, t n = some f → n.length ≤ 2 ∧ ∀ k ∈ n, k < 512

theorem proper_pathTo {va : Word} {n : TableNode} (hn : n ∈ pathTo va) :
    n.length ≤ 2 ∧ ∀ k ∈ n, k < 512 := by
  rcases List.mem_cons.mp hn with rfl | hn
  · refine ⟨by simp, fun k hk => ?_⟩
    rw [List.mem_singleton.mp hk]
    exact vpn2_lt va
  · rw [List.mem_singleton.mp hn, leafNode]
    refine ⟨by simp, fun k hk => ?_⟩
    rcases List.mem_cons.mp hk with rfl | hk
    · exact vpn1_lt va
    · rw [List.mem_singleton.mp hk]
      exact vpn2_lt va

theorem Extends.proper {vm vm' : Vm} {t t' : TableTree} {va : Word} (h : Extends vm t vm' t' va)
    (hp : Proper t) : Proper t' := by
  intro n f hf
  cases hn : t n with
  | some g => exact hp n g hn
  | none => exact proper_pathTo (h.fresh n f hn hf).1

theorem proper_rootOnly (r : Nat) : Proper (rootOnly r) := by
  intro n f hf
  rw [rootOnly] at hf
  split at hf
  · rename_i hn
    rw [hn]
    exact ⟨by simp, by simp⟩
  · exact absurd hf (by simp)

/-- The tables found in memory are those of the tree. -/
theorem tablePage_iff {vm : Vm} {t : TableTree} {root : Word} {r : Nat} (h : vm.Repr t)
    (hr : t [] = some r) (hd : Designates root r) (hp : Proper t) {n : TableNode} {f : Nat} :
    TablePage vm root n f ↔ t n = some f := by
  constructor
  · intro hpage
    induction hpage with
    | @root r' hr' hd' =>
      have hword := (hd 0 (by decide)).symm.trans (hd' 0 (by decide))
      have heq := (wordAddr_inj (h.owned _ r hr).1 (by decide) hr' (by decide)).mp hword
      rw [hr, heq.1]
    | @child n f k c hpage hn hk hc hv haddr ih =>
      cases hchild : t (k :: n) with
      | none => exact absurd (h.absent n f k ih hn hk hchild) hv
      | some d =>
        have hd := (h.owned _ d hchild).1
        rw [h.linked n f k d ih hn hk hchild, pteAddr_table hd] at haddr
        rw [pageAddr_inj hd hc haddr]
  · intro hf
    induction n generalizing f with
    | nil =>
      rw [hr, Option.some.injEq] at hf
      exact .root (h.owned _ f (hf ▸ hr)).1 (hf ▸ hd)
    | cons k n ih =>
      obtain ⟨hlen, hlt⟩ := hp _ f hf
      obtain ⟨g, hg⟩ : ∃ g, t n = some g := by
        rw [← Option.isSome_iff_exists, ← Option.ne_none_iff_isSome]
        intro hnone
        rw [h.closed k n hnone] at hf
        exact absurd hf (by simp)
      have hn : n.length < 2 := Nat.lt_of_succ_le hlen
      have hk := hlt k List.mem_cons_self
      have hfl := (h.owned _ f hf).1
      have hentry := h.linked n g k f hg hn hk hf
      exact .child (ih hg) hn hk hfl (hentry ▸ table_valid _) (hentry ▸ pteAddr_table hfl)

/-- What a run keeps: the tables in memory are a tree, and its entries are those of the map. -/
structure Holds (root : Word) (log : List (TableOp × Bool)) (vm : Vm) (t : TableTree) (r : Nat) :
    Prop where
  repr : vm.Repr t
  top : t [] = some r
  designates : Designates root r
  proper : Proper t
  leaf : ∀ x, vm.leaf t x = entryOf (lastMap log x)
  fits : ∀ c ∈ log, c.1.Fits

theorem Holds.call {root : Word} {log : List (TableOp × Bool)} {vm : Vm} {t : TableTree} {r : Nat}
    (h : Holds root log vm t r) {op : TableOp} (hop : op.Fits) :
    ∃ t', Holds root ((op, (vm.tableOp root op).2) :: log) (vm.tableOp root op).1 t' r := by
  have hfits : ∀ ok, ∀ c ∈ (op, ok) :: log, c.1.Fits := by
    intro ok c hc
    rcases List.mem_cons.mp hc with rfl | hc
    · exact hop
    · exact h.fits c hc
  cases op with
  | map va m =>
    obtain ⟨vm', t', ok, hrun, hext, hres⟩ :=
      mapPage_spec h.repr h.top h.designates va m.pa m.flags
    refine ⟨t', ?_⟩
    rw [tableOp, hrun]
    refine ⟨hext.repr, hext.mono _ _ h.top, h.designates, hext.proper h.proper, ?_, hfits ok⟩
    intro x
    rcases hres with ⟨rfl, -, hleaf⟩ | ⟨rfl, -, hleaf⟩
    · rw [hleaf, lastMap, h.leaf, if_congr (samePage_leaf va x) rfl rfl]
      split <;> rfl
    · rw [hleaf, lastMap, h.leaf]
  | unmap va =>
    obtain ⟨hext, hleaf⟩ := unmapPage_spec h.repr h.top h.designates va
    refine ⟨t, hext.repr, h.top, h.designates, h.proper, ?_, hfits true⟩
    intro x
    rw [tableOp, lastMap, hleaf, h.leaf va, h.leaf x,
      if_congr (and_congr (samePage_leaf va x) (entryOf_valid (lastMap log va))) rfl rfl]
    by_cases hsame : SamePage va x
    · rw [if_pos hsame]
      split
      case isTrue => rfl
      case isFalse hno =>
        -- an entry that was not valid is an entry of zeros
        have hleaf' : vm.leaf t x = vm.leaf t va := by
          obtain ⟨h₂, h₁, h₀⟩ := hsame
          rw [Vm.leaf, Vm.leaf, leafNode, leafNode, h₂, h₁, h₀]
        have hva : ¬ (lastMap log x).isSome = true := by
          rw [← entryOf_valid, ← h.leaf, hleaf', h.leaf, entryOf_valid]
          exact fun hsome => hno ⟨hsame, hsome⟩
        rw [Option.not_isSome_iff_eq_none.mp hva]
    · rw [if_neg hsame, if_neg fun e => hsame e.1]

theorem Holds.other {root : Word} {log : List (TableOp × Bool)} {vm vm' : Vm} {t : TableTree}
    {r : Nat} (h : Holds root log vm t r) (helse : Elsewhere root vm vm') :
    Holds root log vm' t r := by
  have hpage : ∀ {n f}, t n = some f → TablePage vm root n f :=
    (tablePage_iff h.repr h.top h.designates h.proper).mpr
  have hword : ∀ n f k, t n = some f → k < 512 → vm'.word f k = vm.word f k :=
    fun n f k hf hk => helse.word n f k (hpage hf) hk
  refine ⟨h.repr.congr (fun n f hf => helse.taken n f (hpage hf)) hword, h.top, h.designates,
    h.proper, ?_, h.fits⟩
  intro x
  rw [leaf_congr hword, h.leaf]

/-- **Every run** keeps it. -/
theorem TableRun.holds {vm vm₀ vm' : Vm} {root : Word} {log : List (TableOp × Bool)}
    (hcreate : vm.createPageTable = (vm₀, root)) (hroot : root ≠ 0)
    (hrun : TableRun root vm₀ log vm') : ∃ t r, Holds root log vm' t r := by
  induction hrun with
  | create =>
    obtain ⟨r, rfl, hr, -, -, -, hrepr⟩ := createPageTable_root hcreate hroot
    exact ⟨rootOnly r, r, hrepr, if_pos rfl, vm.designates_helper hr, proper_rootOnly r,
      fun x => leaf_rootOnly _ r x, by simp⟩
  | call _ op hop ih =>
    obtain ⟨t, r, h⟩ := ih
    obtain ⟨t', h'⟩ := h.call hop
    exact ⟨t', r, h'⟩
  | other _ helse ih =>
    obtain ⟨t, r, h⟩ := ih
    exact ⟨t, r, h.other helse⟩

/-! ## 4. What the calls answer -/

/-- One level of `walk` fails when `physmem_alloc_page` does. -/
theorem nextTable_none_iff (vm : Vm) (pte : Word) :
    (vm.nextTable pte true).2 = none ↔ vm.levelAlloc pte = some 0 := by
  unfold nextTable levelAlloc
  by_cases hv : vm.load pte &&& pteV = 0
  · rw [if_pos hv, if_pos hv, Option.some.injEq]
    rw [if_neg (c := (!true) = true) (by simp)]
    dsimp only
    by_cases hphys : vm.phys.allocPage.2 = 0
    · rw [if_pos hphys]
      exact iff_of_true rfl hphys
    · rw [if_neg hphys]
      exact iff_of_false (Option.some_ne_none _) hphys
  · rw [if_neg hv, if_neg hv]
    simp

/-- `walk` fails when `physmem_alloc_page` does. -/
theorem walk_none_iff (vm : Vm) (root va : Word) :
    (vm.walk root va true).2 = none ↔ 0 ∈ vm.walkAllocs root va := by
  have hfirst := vm.nextTable_none_iff (entryPtr root (vpn2 va))
  unfold walk walkAllocs
  generalize vm.nextTable (entryPtr root (vpn2 va)) true = next at hfirst ⊢
  obtain ⟨vm₁, level1⟩ := next
  cases level1 with
  | none => simp [hfirst.mp rfl]
  | some level1 =>
    have hno : ¬ vm.levelAlloc (entryPtr root (vpn2 va)) = some 0 :=
      fun h => absurd (hfirst.mpr h) (by simp)
    have hsecond := vm₁.nextTable_none_iff (entryPtr level1 (vpn1 va))
    generalize hrun : vm₁.nextTable (entryPtr level1 (vpn1 va)) true = next at hsecond
    obtain ⟨vm₂, level0⟩ := next
    rw [List.mem_append, Option.mem_toList, Option.mem_toList, or_iff_right hno, ← hsecond]
    dsimp only
    rw [hrun]
    cases level0 <;> simp

/-- **`map_page` fails** when the page is mapped, or `physmem_alloc_page` fails. -/
theorem mapPage_fails_iff {vm : Vm} {t : TableTree} {root : Word} {r : Nat} (h : vm.Repr t)
    (hr : t [] = some r) (hd : Designates root r) (va pa flags : Word) :
    (vm.mapPage root va pa flags).2 = false ↔
      vm.leaf t va &&& pteV ≠ 0 ∨ 0 ∈ vm.walkAllocs root va := by
  obtain ⟨vm', t', res, hrun, -, hleaf, -, hres⟩ := walk_spec h hr hd va true
  rw [← walk_none_iff, hrun, mapPage, hrun]
  rcases hres with ⟨rfl, -, -⟩ | ⟨p, c, rfl, hc, hp⟩
  · simp
  · have hload : vm'.load p = vm.leaf t va := (load_leaf hc hp).trans (hleaf va)
    dsimp only
    rw [hload]
    by_cases hv : vm.leaf t va &&& pteV ≠ 0
    · rw [if_pos hv]
      exact iff_of_true rfl (Or.inl hv)
    · rw [if_neg hv]
      refine iff_of_false (by simp) ?_
      rintro (hmapped | hnone)
      · exact hv hmapped
      · exact absurd hnone (by simp)

/-- `walk_page_table` reads the map. -/
theorem Holds.walkPageTable {root : Word} {log : List (TableOp × Bool)} {vm : Vm} {t : TableTree}
    {r : Nat} (h : Holds root log vm t r) (x : Word) :
    vm.walkPageTable root x = (lastMap log x).elim 0 fun m => m.pa + x % pageSize := by
  rw [walkPageTable_eq h.repr h.top h.designates, h.leaf, offset_eq]
  cases hlast : lastMap log x with
  | none =>
    rw [if_neg (fun hv => absurd ((entryOf_valid none).mp hv) (by simp))]
    rfl
  | some m =>
    rw [if_pos ((entryOf_valid (some m)).mpr rfl)]
    change pteAddr (makePte m.pa (m.flags ||| pteV)) + _ = _
    rw [pteAddr_entry (lastMap_fits h.fits hlast)]
    rfl

/-- What a page table does after the calls `log`. -/
structure IsMap (root : Word) (log : List (TableOp × Bool)) (vm : Vm) : Prop where
  walk : ∀ x, vm.walkPageTable root x = (lastMap log x).elim 0 fun m => m.pa + x % pageSize
  fails : ∀ va m, (vm.tableOp root (.map va m)).2 = false ↔
    (lastMap log va).isSome = true ∨ 0 ∈ vm.walkAllocs root va
  unchanged : ∀ va m, (vm.tableOp root (.map va m)).2 = false → ∀ x,
    (vm.tableOp root (.map va m)).1.walkPageTable root x = vm.walkPageTable root x
  linked : ∀ va m f, vm.phys.isPageFree f = true →
    (vm.tableOp root (.map va m)).1.phys.isPageFree f = false →
      ∃ n, TablePage (vm.tableOp root (.map va m)).1 root n f

/-- **A page table is a finite map**: after every run of calls `walk_page_table` gives what the
last effective call on the page said; `map_page` fails when the page is mapped or memory is out,
and then nothing is mapped otherwise and no page is lost. -/
theorem table_is_map {vm vm₀ vm' : Vm} {root : Word} {log : List (TableOp × Bool)}
    (hcreate : vm.createPageTable = (vm₀, root)) (hroot : root ≠ 0)
    (hrun : TableRun root vm₀ log vm') : IsMap root log vm' := by
  obtain ⟨t, r, h⟩ := hrun.holds hcreate hroot
  refine ⟨h.walkPageTable, ?_, ?_, ?_⟩
  · intro va m
    rw [← entryOf_valid, ← h.leaf]
    exact mapPage_fails_iff h.repr h.top h.designates va m.pa m.flags
  · intro va m hfail x
    obtain ⟨vm₁, t₁, ok, hmap, hext, hres⟩ :=
      mapPage_spec h.repr h.top h.designates va m.pa m.flags
    rw [tableOp, hmap] at hfail ⊢
    rcases hres with ⟨rfl, -, -⟩ | ⟨-, -, hleaf⟩
    · exact absurd hfail (by simp)
    · rw [walkPageTable_eq hext.repr (hext.mono _ _ h.top) h.designates,
        walkPageTable_eq h.repr h.top h.designates, hleaf]
  · intro va m f hfree htaken
    obtain ⟨vm₁, t₁, ok, hmap, hext, -⟩ :=
      mapPage_spec h.repr h.top h.designates va m.pa m.flags
    rw [tableOp, hmap] at htaken ⊢
    obtain ⟨n, hn⟩ := hext.used f hfree htaken
    exact ⟨n, (tablePage_iff hext.repr (hext.mono _ _ h.top) h.designates
      (hext.proper h.proper)).mpr hn⟩

/-- A page is mapped. -/
def firstMap : TableOp := .map 0x1000 ⟨0x80001000, pteR⟩

/-- It is mapped, and unmapped again. -/
theorem table_is_map_unmapped : ∃ vm',
    TableRun newTable.2 newTable.1 [(.unmap 0x1000, true), (firstMap, true)] vm' ∧
      IsMap newTable.2 [(.unmap 0x1000, true), (firstMap, true)] vm' := by
  have hmapped : (newTable.1.tableOp newTable.2 firstMap).2 = true := by decide +kernel
  have hfits : firstMap.Fits := ⟨by decide, by decide, by decide⟩
  have hfirst : TableRun newTable.2 newTable.1 [(firstMap, true)]
      (newTable.1.tableOp newTable.2 firstMap).1 := hmapped ▸ TableRun.create.call firstMap hfits
  have hrun := hfirst.call (.unmap 0x1000) trivial
  exact ⟨_, hrun, table_is_map (Prod.mk.eta (p := newTable)).symm newTable_ne_zero hrun⟩

end Vm

end Lithium
