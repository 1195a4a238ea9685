/-
# The allocator of physical pages

`physmem.c`: a bitmap with one bit per page of RAM, set when the page is free.  The linker symbol
`_end` is a parameter.  What the later modules use of the allocator is section 3: which pages are
free after each call, and how many.
-/
import Mathlib.Data.BitVec
import Mathlib.Data.List.Nodup

namespace Lithium

/-! ## 1. Layout -/

/-- A 64-bit word or address. -/
abbrev Word := BitVec 64

/-- `KERNEL_BASE_ADDR`, where RAM starts. -/
abbrev kernelBaseAddr : Word := 0x80000000

/-- `PHYS_MEM_SIZE`. -/
abbrev physMemSize : Word := 0x8000000

/-- `PAGE_SIZE`. -/
abbrev pageSize : Word := 4096

/-- `NUM_PAGES`. -/
def numPages : Nat := 32768

/-- The physical address of page `f`. -/
def pageAddr (f : Nat) : Word := kernelBaseAddr + BitVec.ofNat 64 f * pageSize

theorem pageAddr_toNat {f : Nat} (hf : f < numPages) :
    (pageAddr f).toNat = 0x80000000 + 4096 * f := by
  have hf' : f < 32768 := hf
  have hbase : kernelBaseAddr.toNat = 0x80000000 := rfl
  have hsize : pageSize.toNat = 4096 := rfl
  rw [pageAddr, BitVec.toNat_add, BitVec.toNat_mul, BitVec.toNat_ofNat, hbase, hsize]
  omega

theorem pageAddr_ne_zero {f : Nat} (hf : f < numPages) : pageAddr f ≠ 0 := by
  intro h
  have h' := congrArg BitVec.toNat h
  rw [pageAddr_toNat hf] at h'
  simp at h'

theorem pageAddr_inj {f f' : Nat} (hf : f < numPages) (hf' : f' < numPages)
    (h : pageAddr f = pageAddr f') : f = f' := by
  have h' := congrArg BitVec.toNat h
  rw [pageAddr_toNat hf, pageAddr_toNat hf'] at h'
  omega

/-! ## 2. `physmem.c` -/

/-- `phys_bitmap` and `free_pages_count`. -/
structure Physmem where
  physBitmap : Nat → BitVec 8
  freePagesCount : Word

namespace Physmem

/-- `is_page_free`. -/
def isPageFree (p : Physmem) (i : Nat) : Bool :=
  (p.physBitmap (i / 8) >>> (i % 8)) &&& 1 != 0

/-- `mark_page_free`. -/
def markPageFree (p : Physmem) (i : Nat) : Physmem where
  physBitmap :=
    Function.update p.physBitmap (i / 8) (p.physBitmap (i / 8) ||| (1 : BitVec 8) <<< (i % 8))
  freePagesCount := p.freePagesCount + 1

/-- `mark_page_allocated`. -/
def markPageAllocated (p : Physmem) (i : Nat) : Physmem where
  physBitmap :=
    Function.update p.physBitmap (i / 8) (p.physBitmap (i / 8) &&& ~~~((1 : BitVec 8) <<< (i % 8)))
  freePagesCount := p.freePagesCount - 1

/-- `first_free_page`, for a kernel image that ends at `kend`. -/
def firstFreePage (kend : Word) : Nat :=
  let kernelSize := kend - kernelBaseAddr
  let firstFreePage := ((kernelSize + pageSize - 1) / pageSize).toNat
  if firstFreePage > numPages then numPages else firstFreePage

/-- `physmem_init`. -/
def physmemInit (kend : Word) : Physmem :=
  let p : Physmem :=
    { physBitmap := fun b => if b < numPages / 8 then 0xFF else 0
      freePagesCount := BitVec.ofNat 64 numPages }
  (List.range (firstFreePage kend)).foldl
    (fun p i => if p.isPageFree i then p.markPageAllocated i else p) p

/-- `physmem_alloc_page`; 0 when no page is free. -/
def allocPage (p : Physmem) : Physmem × Word :=
  match (List.range numPages).find? p.isPageFree with
  | some i => (p.markPageAllocated i, pageAddr i)
  | none => (p, 0)

/-- `free_physical_page`. -/
def freePage (p : Physmem) (phys : Word) : Physmem :=
  if phys < kernelBaseAddr ∨ kernelBaseAddr + physMemSize ≤ phys then p
  else
    let i := ((phys - kernelBaseAddr) / pageSize).toNat
    if numPages ≤ i then p
    else if p.isPageFree i then p
    else p.markPageFree i

/-! ## 3. Which pages are free -/

theorem isPageFree_eq (p : Physmem) (i : Nat) :
    p.isPageFree i = (p.physBitmap (i / 8)).getLsbD (i % 8) := by
  have h1 : (1 : BitVec 8) = BitVec.twoPow 8 0 := rfl
  rw [isPageFree, h1, BitVec.and_twoPow, BitVec.getLsbD_ushiftRight, Nat.add_zero]
  cases (p.physBitmap (i / 8)).getLsbD (i % 8) <;> rfl

/-- The bit of page `j` after the byte of page `i` was replaced. -/
theorem update_getLsbD {m : Nat → BitVec 8} {i j : Nat} {b : BitVec 8} :
    ((Function.update m (i / 8) b) (j / 8)).getLsbD (j % 8)
      = if j / 8 = i / 8 then b.getLsbD (j % 8) else (m (j / 8)).getLsbD (j % 8) := by
  rw [Function.update_apply]
  split <;> rfl

theorem one_shift_getLsbD {i j : Nat} :
    ((1 : BitVec 8) <<< (i % 8)).getLsbD (j % 8) = decide (j % 8 = i % 8) := by
  have h1 : (1 : BitVec 8) = BitVec.twoPow 8 0 := rfl
  have hj : j % 8 < 8 := Nat.mod_lt _ (by omega)
  rw [h1, BitVec.getLsbD_shiftLeft, BitVec.getLsbD_twoPow]
  simp only [hj, decide_true, Bool.true_and]
  by_cases h : j % 8 = i % 8
  · simp [h]
  · by_cases hlt : j % 8 < i % 8
    · simp [h, hlt]
    · have : ¬ 0 = j % 8 - i % 8 := by omega
      simp [h, this]

theorem isPageFree_markPageAllocated (p : Physmem) (i j : Nat) :
    (p.markPageAllocated i).isPageFree j = (p.isPageFree j && decide (j ≠ i)) := by
  rw [isPageFree_eq, isPageFree_eq, markPageAllocated, update_getLsbD]
  have hj : j % 8 < 8 := Nat.mod_lt _ (by omega)
  split
  case isTrue h =>
    rw [BitVec.getLsbD_and, BitVec.getLsbD_not, one_shift_getLsbD, h]
    have hiff : j ≠ i ↔ ¬ j % 8 = i % 8 := by omega
    simp [hj, hiff]
  case isFalse h =>
    have hne : j ≠ i := fun e => h (e ▸ rfl)
    simp [hne]

theorem isPageFree_markPageFree (p : Physmem) (i j : Nat) :
    (p.markPageFree i).isPageFree j = (p.isPageFree j || decide (j = i)) := by
  rw [isPageFree_eq, isPageFree_eq, markPageFree, update_getLsbD]
  split
  case isTrue h =>
    rw [BitVec.getLsbD_or, one_shift_getLsbD, h]
    have hiff : j = i ↔ j % 8 = i % 8 := by omega
    simp [hiff]
  case isFalse h =>
    have hne : ¬ j = i := fun e => h (e ▸ rfl)
    simp [hne]

/-- How many pages are free. -/
def numFree (p : Physmem) : Nat := (List.range numPages).countP p.isPageFree

/-- **`physmem_alloc_page`** either finds no page free, or takes a free page and no other. -/
theorem allocPage_cases (p : Physmem) :
    (p.allocPage = (p, 0) ∧ p.numFree = 0) ∨
    ∃ f, f < numPages ∧ p.isPageFree f = true ∧
      p.allocPage = (p.markPageAllocated f, pageAddr f) := by
  unfold allocPage
  cases hfind : (List.range numPages).find? p.isPageFree with
  | none =>
    refine Or.inl ⟨rfl, ?_⟩
    rw [numFree, List.countP_eq_zero]
    intro i hi
    simpa using List.find?_eq_none.mp hfind i hi
  | some f =>
    refine Or.inr ⟨f, ?_, List.find?_some hfind, rfl⟩
    exact List.mem_range.mp (List.mem_of_find?_eq_some hfind)

/-- It takes the lowest one. -/
theorem allocPage_of_lowest {p : Physmem} {f : Nat} (hf : f < numPages)
    (hfree : p.isPageFree f = true) (hbelow : ∀ j, j < f → p.isPageFree j = false) :
    p.allocPage = (p.markPageAllocated f, pageAddr f) := by
  have hfind : ∀ n, f < n → (List.range n).find? p.isPageFree = some f := by
    intro n hn
    rw [List.find?_range_eq_some]
    exact ⟨hfree, List.mem_range.mpr hn, fun j hj => by rw [hbelow j hj]; rfl⟩
  unfold allocPage
  rw [hfind _ hf]

/-- Striking one element off a predicate. -/
theorem countP_strike {l : List Nat} (hl : l.Nodup) {f : Nat} (hf : f ∈ l) {q q' : Nat → Bool}
    (hq : q f = true) (hq' : ∀ j, q' j = (q j && decide (j ≠ f))) :
    l.countP q' + 1 = l.countP q := by
  have hperm := List.perm_cons_erase hf
  have hsame : (l.erase f).countP q' = (l.erase f).countP q := by
    refine List.countP_congr ?_
    intro j hj
    have hne : j ≠ f := fun e => hl.not_mem_erase (e ▸ hj)
    rw [hq']
    simp [hne]
  rw [hperm.countP_eq, hperm.countP_eq, List.countP_cons, List.countP_cons, hsame, hq', hq]
  simp

/-- Taking a free page leaves one page less. -/
theorem numFree_markPageAllocated {p : Physmem} {f : Nat} (hf : f < numPages)
    (hfree : p.isPageFree f = true) : (p.markPageAllocated f).numFree + 1 = p.numFree :=
  countP_strike List.nodup_range (List.mem_range.mpr hf) hfree
    (isPageFree_markPageAllocated p f)

/-- `physmem_alloc_page` takes one page at most. -/
theorem numFree_le_allocPage (p : Physmem) : p.numFree ≤ p.allocPage.1.numFree + 1 := by
  rcases p.allocPage_cases with ⟨halloc, -⟩ | ⟨f, hf, hfree, halloc⟩
  · rw [halloc]
    exact Nat.le_succ _
  · rw [halloc, numFree_markPageAllocated hf hfree]

/-- **`free_physical_page`** frees the page of the address, if the address is in RAM. -/
theorem isPageFree_freePage (p : Physmem) (phys : Word) (j : Nat) :
    (p.freePage phys).isPageFree j = (p.isPageFree j ||
      decide (kernelBaseAddr ≤ phys ∧ phys < kernelBaseAddr + physMemSize ∧
        ((phys - kernelBaseAddr) / pageSize).toNat = j)) := by
  unfold freePage
  by_cases hout : phys < kernelBaseAddr ∨ kernelBaseAddr + physMemSize ≤ phys
  · have hno : ¬ (kernelBaseAddr ≤ phys ∧ phys < kernelBaseAddr + physMemSize ∧
        ((phys - kernelBaseAddr) / pageSize).toNat = j) := by
      rintro ⟨hlo, hhi, -⟩
      rcases hout with h | h
      · exact absurd hlo (BitVec.not_le.mpr h)
      · exact absurd hhi (BitVec.not_lt.mpr h)
    rw [if_pos hout, decide_eq_false hno, Bool.or_false]
  · obtain ⟨hlo, hhi⟩ := not_or.mp hout
    rw [BitVec.not_lt] at hlo
    rw [BitVec.not_le] at hhi
    have hin : (kernelBaseAddr ≤ phys ∧ phys < kernelBaseAddr + physMemSize ∧
        ((phys - kernelBaseAddr) / pageSize).toNat = j) ↔
        j = ((phys - kernelBaseAddr) / pageSize).toNat :=
      ⟨fun h => h.2.2.symm, fun h => ⟨hlo, hhi, h.symm⟩⟩
    have hidx : ((phys - kernelBaseAddr) / pageSize).toNat < numPages := by
      have hbase : kernelBaseAddr.toNat = 0x80000000 := rfl
      have htop : (kernelBaseAddr + physMemSize).toNat = 0x88000000 := rfl
      have hsize : pageSize.toNat = 4096 := rfl
      have hnum : numPages = 32768 := rfl
      rw [BitVec.le_def, hbase] at hlo
      rw [BitVec.lt_def, htop] at hhi
      rw [BitVec.toNat_udiv, BitVec.toNat_sub, hbase, hsize]
      omega
    rw [if_neg hout]
    dsimp only
    rw [if_neg (by omega), decide_eq_decide.mpr hin]
    split
    case isTrue hfree =>
      by_cases hj : j = ((phys - kernelBaseAddr) / pageSize).toNat
      · rw [← hj] at hfree
        rw [hfree, Bool.true_or]
      · rw [decide_eq_false hj, Bool.or_false]
    case isFalse => rw [isPageFree_markPageFree]

/-- Freeing a page by its address. -/
theorem freePage_pageAddr (p : Physmem) {f : Nat} (hf : f < numPages) :
    p.freePage (pageAddr f) = if p.isPageFree f then p else p.markPageFree f := by
  have hf' : f < 32768 := hf
  have hbase : kernelBaseAddr.toNat = 0x80000000 := rfl
  have htop : (kernelBaseAddr + physMemSize).toNat = 0x88000000 := rfl
  have hsize : pageSize.toNat = 4096 := rfl
  have haddr := pageAddr_toNat hf
  have hidx : ((pageAddr f - kernelBaseAddr) / pageSize).toNat = f := by
    rw [BitVec.toNat_udiv, BitVec.toNat_sub, haddr, hbase, hsize]
    omega
  have hin : ¬ (pageAddr f < kernelBaseAddr ∨ kernelBaseAddr + physMemSize ≤ pageAddr f) := by
    rw [BitVec.lt_def, BitVec.le_def, haddr, hbase, htop]
    omega
  rw [freePage, if_neg hin]
  dsimp only
  rw [hidx, if_neg (Nat.not_le.mpr hf)]

theorem isPageFree_freePage_pageAddr (p : Physmem) {f : Nat} (hf : f < numPages) (j : Nat) :
    (p.freePage (pageAddr f)).isPageFree j = (p.isPageFree j || decide (j = f)) := by
  rw [freePage_pageAddr p hf]
  split
  case isTrue hfree =>
    by_cases hj : j = f
    · rw [hj, hfree, Bool.true_or]
    · rw [decide_eq_false hj, Bool.or_false]
  case isFalse => exact isPageFree_markPageFree p f j

/-- Freeing takes no page away. -/
theorem numFree_le_freePage (p : Physmem) (phys : Word) :
    p.numFree ≤ (p.freePage phys).numFree := by
  refine List.countP_mono_left ?_
  intro j _ hj
  rw [isPageFree_freePage, hj, Bool.true_or]

/-- The bitmap `physmem_init` starts from. -/
theorem isPageFree_allFree (n : Word) (j : Nat) :
    (Physmem.mk (fun b => if b < numPages / 8 then 0xFF else 0) n).isPageFree j
      = decide (j < numPages) := by
  rw [isPageFree_eq]
  change (if j / 8 < numPages / 8 then (0xFF : BitVec 8) else 0).getLsbD (j % 8) = _
  by_cases hj : j < numPages
  · have hj' : j < 32768 := hj
    have hb : j / 8 < numPages / 8 := by
      change j / 8 < 32768 / 8
      omega
    have hbit : (0xFF : BitVec 8).getLsbD (j % 8) = true := by
      have hall : ∀ b : Fin 8, (0xFF : BitVec 8).getLsbD b.val = true := by decide
      exact hall ⟨j % 8, Nat.mod_lt _ (by omega)⟩
    rw [decide_eq_true hj, if_pos hb, hbit]
  · have hb : ¬ j / 8 < numPages / 8 := by
      have hj' : ¬ j < 32768 := hj
      change ¬ j / 8 < 32768 / 8
      omega
    rw [decide_eq_false hj, if_neg hb]
    exact BitVec.getLsbD_zero

/-- After `physmem_init` the pages behind the kernel image are free. -/
theorem isPageFree_physmemInit (kend : Word) (i : Nat) :
    (physmemInit kend).isPageFree i = decide (firstFreePage kend ≤ i ∧ i < numPages) := by
  -- the loop, after `n` pages
  have key : ∀ n (p : Physmem), (∀ j, p.isPageFree j = decide (j < numPages)) → ∀ j,
      ((List.range n).foldl
        (fun p i => if p.isPageFree i then p.markPageAllocated i else p) p).isPageFree j
        = decide (n ≤ j ∧ j < numPages) := by
    intro n p hp
    induction n with
    | zero => intro j; simpa using hp j
    | succ n ih =>
      intro j
      rw [List.range_succ, List.foldl_append, List.foldl_cons, List.foldl_nil]
      split
      case isTrue h =>
        rw [isPageFree_markPageAllocated, ih, ← Bool.decide_and, decide_eq_decide]
        omega
      case isFalse h =>
        rw [ih, decide_eq_true_eq] at h
        rw [ih, decide_eq_decide]
        omega
  exact key _ _ (isPageFree_allFree _) i

theorem firstFreePage_le (kend : Word) : firstFreePage kend ≤ numPages := by
  unfold firstFreePage
  dsimp only
  split <;> omega

theorem numFree_physmemInit (kend : Word) :
    (physmemInit kend).numFree = numPages - firstFreePage kend := by
  have hle := firstFreePage_le kend
  have hsplit : List.range numPages = List.range' 0 (firstFreePage kend)
      ++ List.range' (firstFreePage kend) (numPages - firstFreePage kend) := by
    have happend := @List.range'_append_1 0 (firstFreePage kend) (numPages - firstFreePage kend)
    rw [Nat.zero_add, Nat.add_sub_cancel' hle] at happend
    rw [happend, List.range_eq_range']
  have hlow : (List.range' 0 (firstFreePage kend)).countP (physmemInit kend).isPageFree = 0 := by
    rw [List.countP_eq_zero]
    intro i hi
    rw [List.mem_range'_1] at hi
    rw [isPageFree_physmemInit, decide_eq_true_eq]
    omega
  have hhigh : (List.range' (firstFreePage kend) (numPages - firstFreePage kend)).countP
      (physmemInit kend).isPageFree = numPages - firstFreePage kend := by
    have hall : ∀ i ∈ List.range' (firstFreePage kend) (numPages - firstFreePage kend),
        (physmemInit kend).isPageFree i = true := by
      intro i hi
      rw [List.mem_range'_1] at hi
      rw [isPageFree_physmemInit, decide_eq_true_eq]
      omega
    rw [List.countP_eq_length.mpr hall, List.length_range']
  rw [numFree, hsplit, List.countP_append, hlow, hhigh, Nat.zero_add]

end Physmem

end Lithium
