/-
# Runs of the page allocator

`free_pages_count` is kept beside the bitmap, by the two functions that change a bit of it.  Section
2 says that the two agree; section 3 follows runs of `physmem_alloc_page` and `free_physical_page`
from `physmem_init` on, with a log of the calls, and says which pages are out.
-/
import Lithium.Mem.Physmem

namespace Lithium

/-! ## 1. Calls -/

/-- A call of the allocator: `physmem_alloc_page` with what it returned, or `free_physical_page`. -/
inductive PhysCall
  | alloc (a : Word)
  | free (a : Word)

/-- `free_physical_page` takes an address outside RAM for an error. -/
def OutOfRange (a : Word) : Prop := a < kernelBaseAddr ∨ kernelBaseAddr + physMemSize ≤ a

/-- The address was returned, and has not been freed since.  The last call comes first. -/
def Allocated : List PhysCall → Word → Prop
  | [], _ => False
  | .alloc b :: log, a => (a = b ∧ b ≠ 0) ∨ Allocated log a
  | .free b :: log, a => a ≠ b ∧ Allocated log a

namespace Physmem

/-- The runs from `physmem_init` on.  What is freed is outside RAM, or was returned before. -/
inductive Run (kend : Word) : List PhysCall → Physmem → Prop
  | init : Run kend [] (physmemInit kend)
  | alloc {log : List PhysCall} {p : Physmem} (h : Run kend log p) :
      Run kend (.alloc p.allocPage.2 :: log) p.allocPage.1
  | free {log : List PhysCall} {p : Physmem} (h : Run kend log p) (a : Word)
      (ha : OutOfRange a ∨ .alloc a ∈ log) : Run kend (.free a :: log) (p.freePage a)

/-- The number of set bits of `phys_bitmap`. -/
def setBits (p : Physmem) : Nat :=
  ((List.range (numPages / 8)).map fun b => (List.range 8).countP (p.physBitmap b).getLsbD).sum

/-! ## 2. The counter -/

/-- Counting byte by byte. -/
theorem countP_bytes (q : Nat → Bool) (m : Nat) : (List.range (8 * m)).countP q =
    ((List.range m).map fun b => (List.range 8).countP fun j => q (8 * b + j)).sum := by
  induction m with
  | zero => rfl
  | succ m ih =>
    rw [Nat.mul_succ, List.range_add, List.countP_append, ih, @List.range_succ m, List.map_append,
      List.sum_append, List.countP_map, List.map_singleton, List.sum_singleton]
    rfl

/-- The set bits of the bitmap are the free pages. -/
theorem setBits_eq (p : Physmem) : p.setBits = p.numFree := by
  have hpages : 8 * (numPages / 8) = numPages := rfl
  have hbytes := countP_bytes p.isPageFree (numPages / 8)
  have hbit : ∀ b j, j < 8 → p.isPageFree (8 * b + j) = (p.physBitmap b).getLsbD j := by
    intro b j hj
    have hbyte : (8 * b + j) / 8 = b := by omega
    have hbit : (8 * b + j) % 8 = j := by omega
    rw [isPageFree_eq, hbyte, hbit]
  rw [hpages] at hbytes
  rw [numFree, hbytes, setBits]
  refine congrArg List.sum (List.map_congr_left fun b _ => List.countP_congr fun j hj => ?_)
  rw [hbit b j (List.mem_range.mp hj)]

/-- The counter is the number of free pages. -/
def Counted (p : Physmem) : Prop := p.freePagesCount.toNat = p.numFree

theorem numFree_le (p : Physmem) : p.numFree ≤ numPages := by
  have hle := List.countP_le_length (p := p.isPageFree) (l := List.range numPages)
  rwa [List.length_range] at hle

theorem Counted.markPageAllocated {p : Physmem} (h : Counted p) {f : Nat} (hf : f < numPages)
    (hfree : p.isPageFree f = true) : Counted (p.markPageAllocated f) := by
  have hstrike := numFree_markPageAllocated hf hfree
  have hle := p.numFree_le
  have hnum : numPages = 32768 := rfl
  have h' : p.freePagesCount.toNat = p.numFree := h
  have hone : (1 : Word).toNat = 1 := rfl
  change (p.freePagesCount - 1).toNat = _
  rw [BitVec.toNat_sub, h', hone]
  omega

/-- Freeing a taken page leaves one page more. -/
theorem numFree_markPageFree {p : Physmem} {f : Nat} (hf : f < numPages)
    (htaken : p.isPageFree f = false) : (p.markPageFree f).numFree = p.numFree + 1 := by
  refine (countP_strike List.nodup_range (List.mem_range.mpr hf) ?_ ?_).symm
  · rw [isPageFree_markPageFree]
    simp
  · intro j
    rw [isPageFree_markPageFree]
    by_cases hj : j = f
    · simp [hj, htaken]
    · simp [hj]

theorem Counted.markPageFree {p : Physmem} (h : Counted p) {f : Nat} (hf : f < numPages)
    (htaken : p.isPageFree f = false) : Counted (p.markPageFree f) := by
  have hmore := numFree_markPageFree hf htaken
  have hle := (p.markPageFree f).numFree_le
  have hnum : numPages = 32768 := rfl
  have h' : p.freePagesCount.toNat = p.numFree := h
  have hone : (1 : Word).toNat = 1 := rfl
  change (p.freePagesCount + 1).toNat = _
  rw [BitVec.toNat_add, h', hone]
  omega

/-- **`physmem_init`** leaves the counter right. -/
theorem counted_physmemInit (kend : Word) : Counted (physmemInit kend) := by
  -- the loop, after `n` pages
  have key : ∀ n, n ≤ numPages → ∀ p : Physmem, Counted p → Counted ((List.range n).foldl
      (fun p i => if p.isPageFree i then p.markPageAllocated i else p) p) := by
    intro n
    induction n with
    | zero => exact fun _ _ hp => hp
    | succ n ih =>
      intro hn p hp
      rw [List.range_succ, List.foldl_append, List.foldl_cons, List.foldl_nil]
      split
      case isTrue hfree => exact (ih (by omega) p hp).markPageAllocated (by omega) hfree
      case isFalse => exact ih (by omega) p hp
  refine key _ (firstFreePage_le kend) _ ?_
  have hall : numFree (.mk (fun b => if b < numPages / 8 then 0xFF else 0)
      (BitVec.ofNat 64 numPages)) = numPages := by
    rw [numFree, List.countP_eq_length.mpr, List.length_range]
    intro j hj
    rw [isPageFree_allFree]
    exact decide_eq_true (List.mem_range.mp hj)
  rw [Counted, hall]
  rfl

/-! ## 3. Runs -/

/-- What a run keeps: the pages of the kernel image are taken for good, and the others are free
when they are not allocated. -/
structure Holds (kend : Word) (log : List PhysCall) (p : Physmem) : Prop where
  counted : Counted p
  kernel : ∀ f, f < firstFreePage kend → p.isPageFree f = false
  free_iff : ∀ f, firstFreePage kend ≤ f → f < numPages →
    (p.isPageFree f = true ↔ ¬ Allocated log (pageAddr f))
  returned : ∀ a, .alloc a ∈ log →
    a = 0 ∨ ∃ f, firstFreePage kend ≤ f ∧ f < numPages ∧ a = pageAddr f

theorem freePage_outOfRange {a : Word} (h : OutOfRange a) (p : Physmem) : p.freePage a = p :=
  if_pos h

theorem pageAddr_inRange {f : Nat} (hf : f < numPages) : ¬ OutOfRange (pageAddr f) := by
  have hf' : f < 32768 := hf
  have hbase : kernelBaseAddr.toNat = 0x80000000 := rfl
  have htop : (kernelBaseAddr + physMemSize).toNat = 0x88000000 := rfl
  rw [OutOfRange, BitVec.lt_def, BitVec.le_def, pageAddr_toNat hf, hbase, htop]
  omega

namespace Holds

variable {kend : Word} {log : List PhysCall} {p : Physmem}

theorem init (kend : Word) : Holds kend [] (physmemInit kend) := by
  refine ⟨counted_physmemInit kend, ?_, ?_, by simp⟩
  · intro f hf
    rw [isPageFree_physmemInit]
    exact decide_eq_false (by omega)
  · intro f hlo hhi
    rw [isPageFree_physmemInit, decide_eq_true_eq]
    exact iff_of_true ⟨hlo, hhi⟩ id

theorem alloc (h : Holds kend log p) : Holds kend (.alloc p.allocPage.2 :: log) p.allocPage.1 := by
  rcases p.allocPage_cases with ⟨halloc, -⟩ | ⟨f, hf, hfree, halloc⟩
  · rw [halloc]
    refine ⟨h.counted, h.kernel, ?_, ?_⟩
    · intro g hlo hhi
      rw [h.free_iff g hlo hhi, Allocated]
      simp
    · intro a ha
      rcases List.mem_cons.mp ha with heq | ha
      · exact Or.inl (PhysCall.alloc.inj heq)
      · exact h.returned a ha
  · rw [halloc]
    have hbehind : firstFreePage kend ≤ f := by
      by_contra hlt
      rw [h.kernel f (by omega)] at hfree
      exact absurd hfree (by simp)
    refine ⟨h.counted.markPageAllocated hf hfree, ?_, ?_, ?_⟩
    · intro g hg
      rw [isPageFree_markPageAllocated, h.kernel g hg]
      rfl
    · intro g hlo hhi
      have hsame : pageAddr g = pageAddr f ↔ g = f := ⟨pageAddr_inj hhi hf, fun e => e ▸ rfl⟩
      rw [isPageFree_markPageAllocated, Bool.and_eq_true, decide_eq_true_eq, h.free_iff g hlo hhi,
        Allocated, hsame, and_iff_left (pageAddr_ne_zero hf), not_or, and_comm]
    · intro a ha
      rcases List.mem_cons.mp ha with heq | ha
      · exact Or.inr ⟨f, hbehind, hf, PhysCall.alloc.inj heq⟩
      · exact h.returned a ha

theorem free (h : Holds kend log p) {a : Word} (ha : OutOfRange a ∨ .alloc a ∈ log) :
    Holds kend (.free a :: log) (p.freePage a) := by
  have hreturned : ∀ b, .alloc b ∈ PhysCall.free a :: log →
      b = 0 ∨ ∃ f, firstFreePage kend ≤ f ∧ f < numPages ∧ b = pageAddr f := by
    intro b hb
    rcases List.mem_cons.mp hb with heq | hb
    · exact absurd heq (by simp)
    · exact h.returned b hb
  have hcases : OutOfRange a ∨ ∃ f, firstFreePage kend ≤ f ∧ f < numPages ∧ a = pageAddr f := by
    rcases ha with hout | hin
    · exact Or.inl hout
    · rcases h.returned a hin with rfl | hpage
      · exact Or.inl (Or.inl (by decide))
      · exact Or.inr hpage
  rcases hcases with hout | ⟨f, hbehind, hf, rfl⟩
  · rw [freePage_outOfRange hout]
    refine ⟨h.counted, h.kernel, ?_, hreturned⟩
    intro g hlo hhi
    have hne : pageAddr g ≠ a := by
      rintro rfl
      exact pageAddr_inRange hhi hout
    rw [h.free_iff g hlo hhi, Allocated]
    simp [hne]
  · refine ⟨?_, ?_, ?_, hreturned⟩
    · rw [freePage_pageAddr p hf]
      split
      case isTrue => exact h.counted
      case isFalse htaken => exact h.counted.markPageFree hf (by simpa using htaken)
    · intro g hg
      rw [isPageFree_freePage_pageAddr p hf, h.kernel g hg, Bool.false_or]
      exact decide_eq_false (by omega)
    · intro g hlo hhi
      have hsame : pageAddr g = pageAddr f ↔ g = f := ⟨pageAddr_inj hhi hf, fun e => e ▸ rfl⟩
      rw [isPageFree_freePage_pageAddr p hf, Bool.or_eq_true, decide_eq_true_eq,
        h.free_iff g hlo hhi, Allocated, ne_eq, hsame, not_and_or, not_not, or_comm]

end Holds

/-- **Every run** keeps it. -/
theorem Run.holds {kend : Word} {log : List PhysCall} {p : Physmem} (h : Run kend log p) :
    Holds kend log p := by
  induction h with
  | init => exact Holds.init kend
  | alloc _ ih => exact ih.alloc
  | free _ a ha ih => exact ih.free ha

/-! ## 4. What the allocator promises -/

/-- The pages behind the first free one are above the kernel image, if its size makes sense. -/
theorem above_kernel {kend : Word} (hsize : kend - kernelBaseAddr < (1 : Word) <<< 63) {f : Nat}
    (hbehind : firstFreePage kend ≤ f) (hf : f < numPages) : kend ≤ pageAddr f := by
  have hf' : f < 32768 := hf
  have hnum : numPages = 32768 := rfl
  have hbase : kernelBaseAddr.toNat = 0x80000000 := rfl
  have hpage : pageSize.toNat = 4096 := rfl
  have hone : (1 : Word).toNat = 1 := rfl
  have h63 : ((1 : Word) <<< 63).toNat = 2 ^ 63 := rfl
  rw [BitVec.lt_def, h63] at hsize
  have hsize' : (kend - kernelBaseAddr).toNat ≤ 4096 * f := by
    unfold firstFreePage at hbehind
    dsimp only at hbehind
    rw [BitVec.toNat_udiv, BitVec.toNat_sub, BitVec.toNat_add, hpage, hone, hnum] at hbehind
    split at hbehind <;> omega
  rw [BitVec.le_def, pageAddr_toNat hf]
  rw [BitVec.toNat_sub, hbase] at hsize hsize'
  omega

/-- What the allocator does after the calls `log`. -/
structure AllocatorOk (kend : Word) (log : List PhysCall) (p : Physmem) : Prop where
  count : p.freePagesCount.toNat = p.setBits
  fails_iff : p.allocPage.2 = 0 ↔ p.freePagesCount = 0
  failed : p.allocPage.2 = 0 → p.allocPage.1 = p
  counts : p.allocPage.2 ≠ 0 → p.allocPage.1.freePagesCount.toNat + 1 = p.freePagesCount.toNat
  aligned : p.allocPage.2 % pageSize = 0
  inRam : p.allocPage.2 ≠ 0 → ¬ OutOfRange p.allocPage.2
  above : p.allocPage.2 ≠ 0 → kend ≤ p.allocPage.2
  fresh : p.allocPage.2 ≠ 0 → ¬ Allocated log p.allocPage.2
  outside : ∀ a, OutOfRange a → p.freePage a = p
  twice : ∀ a, .alloc a ∈ log → ¬ Allocated log a → p.freePage a = p

/-- **The allocator, after every run**: the counter counts the bits, a page that is handed out was
not out, and freeing what is not out changes nothing. -/
theorem allocator_ok {kend : Word} (hsize : kend - kernelBaseAddr < (1 : Word) <<< 63)
    {log : List PhysCall} {p : Physmem} (hrun : Run kend log p) : AllocatorOk kend log p := by
  have h := hrun.holds
  have hcount : p.freePagesCount.toNat = p.numFree := h.counted
  have htwice : ∀ a, .alloc a ∈ log → ¬ Allocated log a → p.freePage a = p := by
    intro a ha hnot
    rcases h.returned a ha with rfl | ⟨f, hbehind, hf, rfl⟩
    · exact freePage_outOfRange (Or.inl (by decide)) p
    · rw [freePage_pageAddr p hf, if_pos ((h.free_iff f hbehind hf).mpr hnot)]
  have hbits : p.freePagesCount.toNat = p.setBits := hcount.trans p.setBits_eq.symm
  rcases p.allocPage_cases with ⟨halloc, hzero⟩ | ⟨f, hf, hfree, halloc⟩
  · have hnone : p.freePagesCount = 0 := BitVec.eq_of_toNat_eq (hcount.trans hzero)
    have hfail : p.allocPage.2 = 0 := by rw [halloc]
    exact ⟨hbits, iff_of_true hfail hnone, fun _ => by rw [halloc], fun hne => absurd hfail hne,
      by rw [hfail]; rfl, fun hne => absurd hfail hne, fun hne => absurd hfail hne,
      fun hne => absurd hfail hne, fun a ha => freePage_outOfRange ha p, htwice⟩
  · have hbehind : firstFreePage kend ≤ f := by
      by_contra hlt
      rw [h.kernel f (by omega)] at hfree
      exact absurd hfree (by simp)
    have hpage : p.allocPage.2 = pageAddr f := by rw [halloc]
    have hne : p.allocPage.2 ≠ 0 := hpage ▸ pageAddr_ne_zero hf
    have hstrike := numFree_markPageAllocated hf hfree
    have hsome : p.freePagesCount ≠ 0 := by
      intro hnone
      rw [hnone] at hcount
      have hz : (0 : Word).toNat = 0 := rfl
      omega
    have hcounted : p.allocPage.1.freePagesCount.toNat = p.allocPage.1.numFree := h.alloc.counted
    refine ⟨hbits, iff_of_false hne hsome, fun hfail => absurd hfail hne, ?_, ?_, ?_, ?_, ?_,
      fun a ha => freePage_outOfRange ha p, htwice⟩
    · intro _
      rw [hcounted, hcount, halloc]
      exact hstrike
    · have hsize : pageSize.toNat = 4096 := rfl
      rw [hpage]
      refine BitVec.eq_of_toNat_eq ?_
      rw [BitVec.toNat_umod, pageAddr_toNat hf, hsize]
      change _ = 0
      omega
    · rw [hpage]
      exact fun _ => pageAddr_inRange hf
    · rw [hpage]
      exact fun _ => above_kernel hsize hbehind hf
    · rw [hpage]
      exact fun _ => (h.free_iff f hbehind hf).mp hfree

/-- Two pages are taken behind a kernel image of 32 pages; the first is freed twice, and `NULL` is
freed. -/
def freedTwice : List PhysCall :=
  [.free 0, .free 0x80020000, .free 0x80020000, .alloc 0x80021000, .alloc 0x80020000]

/-- One page is out. -/
theorem allocator_ok_freedTwice : (0x80020000 : Word) - kernelBaseAddr < (1 : Word) <<< 63 ∧
    ∃ p, Run 0x80020000 freedTwice p ∧ AllocatorOk 0x80020000 freedTwice p ∧
      p.freePagesCount + 1 = (physmemInit 0x80020000).freePagesCount := by
  have hfirst : (physmemInit 0x80020000).allocPage.2 = 0x80020000 := by decide +kernel
  have hsecond : (physmemInit 0x80020000).allocPage.1.allocPage.2 = 0x80021000 := by
    decide +kernel
  have htaken : Run 0x80020000 _ (physmemInit 0x80020000).allocPage.1.allocPage.1 :=
    .alloc (.alloc .init)
  rw [hsecond, hfirst] at htaken
  have hrun : Run 0x80020000 freedTwice _ :=
    ((htaken.free 0x80020000 (.inr (by simp))).free 0x80020000 (.inr (by simp))).free 0
      (.inl (.inl (by decide)))
  exact ⟨by decide, _, hrun, allocator_ok (by decide) hrun, by decide +kernel⟩

end Physmem

end Lithium
