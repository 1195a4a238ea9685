/-
# The page tables of the processes

`scheduler()` loads the page table of the process it dispatches and goes on in kernel code, so
that table should map what the kernel page table maps.  `proc_init` and `fork` give a process the
page `create_page_table` returns, and nobody ever maps anything in it.  The invariant behind that
is that the pages of the processes are their own: section 2.
-/
import Lithium.Proc.Machine

namespace Lithium

/-! ## 1. The pages of a process -/

/-- What a process has pages for. -/
inductive Resource where
  | kstack
  | trapframe
  | pagetable
  deriving DecidableEq

/-- The field of `struct proc`; 0 when there is no page. -/
def Proc.pointer (p : Proc) : Resource → Word
  | .kstack => p.kstack
  | .trapframe => p.trapframe
  | .pagetable => p.pagetable

/-- The field `w` stands for page `f`.  A page table is given by its physical address when it was
made before paging was active. -/
def PointsTo : Resource → Word → Nat → Prop
  | .kstack, w, f => w = physToVirt (pageAddr f) + pageSize
  | .trapframe, w, f => w = physToVirt (pageAddr f)
  | .pagetable, w, f => w = pageAddr f ∨ w = physToVirt (pageAddr f)

/-- The pages of the processes. -/
abbrev Pages := ProcRef → Resource → Option Nat

/-- Process `i` gets a page for `r`, or loses it. -/
def Pages.set (own : Pages) (i : ProcRef) (r : Resource) (o : Option Nat) : Pages :=
  fun j s => if j = i ∧ s = r then o else own j s

theorem PointsTo.designates {w : Word} {f : Nat} (h : PointsTo .pagetable w f)
    (hf : f < numPages) : Designates w f := by
  rcases h with rfl | rfl
  · exact resolve_pageAddr hf
  · exact resolve_physToVirt hf

theorem pointsTo_helper (vm : Vm) (f : Nat) :
    PointsTo .pagetable (vm.physToVirtHelper (pageAddr f)) f := by
  unfold Vm.physToVirtHelper
  split
  · exact Or.inr rfl
  · exact Or.inl rfl

namespace Kernel

/-- The pages `own` are taken, are all different, and the fields of the processes stand for
them; the page tables are empty. -/
structure OwnsPages (k : Kernel) (own : Pages) : Prop where
  taken : ∀ i r f, own i r = some f → f < numPages ∧ k.vm.phys.isPageFree f = false
  inj : ∀ i r j s f, own i r = some f → own j s = some f → i = j ∧ r = s
  points : ∀ i r f, own i r = some f → PointsTo r ((k.procTable i).pointer r) f
  null : ∀ i r, own i r = none → (k.procTable i).pointer r = 0
  empty : ∀ i f n, own i .pagetable = some f → n < 512 → k.vm.word f n = 0

/-- The pages of the processes are their own. -/
def PagesOk (k : Kernel) : Prop := ∃ own, OwnsPages k own

/-! ## 2. What keeps the pages apart -/

/-- Pages that are lost, or kept as they are. -/
theorem OwnsPages.shrink {k k' : Kernel} {own own' : Pages} (h : OwnsPages k own)
    (hsub : ∀ i r f, own' i r = some f → own i r = some f)
    (hptr : ∀ i r f, own' i r = some f →
      (k'.procTable i).pointer r = (k.procTable i).pointer r)
    (hnull : ∀ i r, own' i r = none → (k'.procTable i).pointer r = 0)
    (hfree : ∀ i r f, own' i r = some f → k'.vm.phys.isPageFree f = false)
    (hword : ∀ i f n, own' i .pagetable = some f → n < 512 → k'.vm.word f n = k.vm.word f n) :
    OwnsPages k' own' where
  taken i r f hf := ⟨(h.taken i r f (hsub i r f hf)).1, hfree i r f hf⟩
  inj i r j s f hi hj := h.inj i r j s f (hsub i r f hi) (hsub j s f hj)
  points i r f hf := by
    rw [hptr i r f hf]
    exact h.points i r f (hsub i r f hf)
  null := hnull
  empty i f n hf hn := (hword i f n hf hn).trans (h.empty i f n (hsub i _ f hf) hn)

/-- A change that leaves memory and the fields alone. -/
theorem PagesOk.congr {k k' : Kernel} (h : PagesOk k) (hphys : k'.vm.phys = k.vm.phys)
    (hmem : k'.vm.mem = k.vm.mem)
    (hptr : ∀ i r, (k'.procTable i).pointer r = (k.procTable i).pointer r) : PagesOk k' := by
  obtain ⟨own, h⟩ := h
  refine ⟨own, h.shrink (fun _ _ _ hf => hf) (fun i r _ _ => hptr i r) ?_ ?_ ?_⟩
  · intro i r hn
    rw [hptr, h.null i r hn]
  · intro i r f hf
    rw [hphys]
    exact (h.taken i r f hf).2
  · intro i f n _ _
    rw [Vm.word, Vm.word, hmem]

/-- An assignment to other fields. -/
theorem PagesOk.modify {k : Kernel} (h : PagesOk k) (i : ProcRef) {f : Proc → Proc}
    (hf : ∀ p r, (f p).pointer r = p.pointer r) : PagesOk (k.modify i f) :=
  h.congr rfl rfl fun j r => modify_field k i f (fun p => p.pointer r) (fun p => hf p r) j

/-- Process `i` gets the free page `f` for `r`. -/
theorem PagesOk.give {k k' : Kernel} (h : PagesOk k) {i : ProcRef} {r : Resource} {f : Nat}
    (hf : f < numPages) (hfree : k.vm.phys.isPageFree f = true)
    (hphys : k'.vm.phys = k.vm.phys.markPageAllocated f)
    (hpoint : PointsTo r ((k'.procTable i).pointer r) f)
    (hptr : ∀ j s, ¬ (j = i ∧ s = r) → (k'.procTable j).pointer s = (k.procTable j).pointer s)
    (hword : ∀ g n, g < numPages → n < 512 → g ≠ f → k'.vm.word g n = k.vm.word g n)
    (hempty : r = .pagetable → ∀ n, n < 512 → k'.vm.word f n = 0) : PagesOk k' := by
  obtain ⟨own, h⟩ := h
  -- the page is nobody's yet
  have hnew : ∀ j s g, own j s = some g → g ≠ f := by
    rintro j s g hg rfl
    have := (h.taken j s g hg).2
    rw [hfree] at this
    exact absurd this (by simp)
  have hset : ∀ j s g, own.set i r (some f) j s = some g →
      (j = i ∧ s = r ∧ g = f) ∨ (¬ (j = i ∧ s = r) ∧ own j s = some g) := by
    intro j s g hg
    rw [Pages.set] at hg
    split at hg
    case isTrue hjs => exact Or.inl ⟨hjs.1, hjs.2, (Option.some.inj hg).symm⟩
    case isFalse hjs => exact Or.inr ⟨hjs, hg⟩
  refine ⟨own.set i r (some f), ?_, ?_, ?_, ?_, ?_⟩
  · intro j s g hg
    rw [hphys, Physmem.isPageFree_markPageAllocated]
    rcases hset j s g hg with ⟨-, -, rfl⟩ | ⟨-, hg'⟩
    · exact ⟨hf, by simp⟩
    · exact ⟨(h.taken j s g hg').1, by rw [(h.taken j s g hg').2, Bool.false_and]⟩
  · intro j s j' s' g hg hg'
    rcases hset j s g hg with ⟨rfl, rfl, rfl⟩ | ⟨-, h₁⟩ <;>
      rcases hset j' s' g hg' with ⟨rfl, rfl, h₂⟩ | ⟨-, h₂⟩
    · exact ⟨rfl, rfl⟩
    · exact absurd rfl (hnew j' s' g h₂)
    · exact absurd h₂ (hnew j s g h₁)
    · exact h.inj j s j' s' g h₁ h₂
  · intro j s g hg
    rcases hset j s g hg with ⟨rfl, rfl, rfl⟩ | ⟨hjs, hg'⟩
    · exact hpoint
    · rw [hptr j s hjs]
      exact h.points j s g hg'
  · intro j s hn
    rw [Pages.set] at hn
    split at hn
    case isTrue => exact absurd hn (by simp)
    case isFalse hjs => rw [hptr j s hjs, h.null j s hn]
  · intro j g n hg hn
    rcases hset j _ g hg with ⟨rfl, hr, rfl⟩ | ⟨-, hg'⟩
    · exact hempty hr.symm n hn
    · rw [hword g n (h.taken j _ g hg').1 hn (hnew j _ g hg')]
      exact h.empty j g n hg' hn

/-- Process `i` loses its page for `r`, and no other page becomes free. -/
theorem PagesOk.drop {k k' : Kernel} (h : PagesOk k) {i : ProcRef} {r : Resource}
    (hpoint : (k'.procTable i).pointer r = 0)
    (hptr : ∀ j s, ¬ (j = i ∧ s = r) → (k'.procTable j).pointer s = (k.procTable j).pointer s)
    (hmem : ∀ g n, k'.vm.word g n = k.vm.word g n)
    (hfree : ∀ f g, f < numPages → g < numPages → PointsTo r ((k.procTable i).pointer r) f →
      g ≠ f → k.vm.phys.isPageFree g = false → k'.vm.phys.isPageFree g = false)
    (hnone : (k.procTable i).pointer r = 0 → k'.vm.phys = k.vm.phys) : PagesOk k' := by
  obtain ⟨own, h⟩ := h
  have hset : ∀ j s g, own.set i r none j s = some g →
      ¬ (j = i ∧ s = r) ∧ own j s = some g := by
    intro j s g hg
    rw [Pages.set] at hg
    split at hg
    case isTrue => exact absurd hg (by simp)
    case isFalse hjs => exact ⟨hjs, hg⟩
  refine ⟨own.set i r none, h.shrink (fun j s g hg => (hset j s g hg).2)
    (fun j s g hg => hptr j s (hset j s g hg).1) ?_ ?_ (fun _ g n _ _ => hmem g n)⟩
  · intro j s hn
    rw [Pages.set] at hn
    split at hn
    case isTrue hjs => rw [hjs.1, hjs.2, hpoint]
    case isFalse hjs => rw [hptr j s hjs, h.null j s hn]
  · intro j s g hg
    obtain ⟨hjs, hg'⟩ := hset j s g hg
    have htaken := h.taken j s g hg'
    cases hi : own i r with
    | none =>
      rw [hnone (h.null i r hi)]
      exact htaken.2
    | some f =>
      refine hfree f g (h.taken i r f hi).1 htaken.1 (h.points i r f hi) ?_ htaken.2
      rintro rfl
      exact hjs (h.inj j s i r g hg' hi)

/-! ## 3. The functions of `process.c` and `control.c` -/

theorem pointer_kstack (p : Proc) (w : Word) {s : Resource} (h : s ≠ .kstack) :
    ({ p with kstack := w } : Proc).pointer s = p.pointer s := by
  cases s with
  | kstack => exact absurd rfl h
  | trapframe => rfl
  | pagetable => rfl

theorem pointer_trapframe (p : Proc) (w : Word) {s : Resource} (h : s ≠ .trapframe) :
    ({ p with trapframe := w } : Proc).pointer s = p.pointer s := by
  cases s with
  | kstack => rfl
  | trapframe => exact absurd rfl h
  | pagetable => rfl

theorem pointer_pagetable (p : Proc) (w : Word) {s : Resource} (h : s ≠ .pagetable) :
    ({ p with pagetable := w } : Proc).pointer s = p.pointer s := by
  cases s with
  | kstack => rfl
  | trapframe => rfl
  | pagetable => exact absurd rfl h

/-- An assignment to one of the three fields leaves the others alone. -/
theorem modify_pointer (k : Kernel) (i : ProcRef) {r : Resource} {f : Proc → Proc}
    (hf : ∀ p s, s ≠ r → (f p).pointer s = p.pointer s) (j : ProcRef) (s : Resource)
    (hjs : ¬ (j = i ∧ s = r)) :
    ((k.modify i f).procTable j).pointer s = (k.procTable j).pointer s := by
  by_cases hj : j = i
  · rw [hj, modify_self]
    exact hf _ s (fun hs => hjs ⟨hj, hs⟩)
  · rw [modify_of_ne _ _ _ hj]

theorem pagesOk_claimProc {k : Kernel} (h : PagesOk k) (i : ProcRef) :
    PagesOk (k.claimProc i) := by
  obtain ⟨own, h⟩ := h
  have hother : ∀ j, j ≠ i → (k.claimProc i).procTable j = k.procTable j :=
    fun j hj => k.claimProc_of_ne hj
  have hset : ∀ j r f, (if j = i then none else own j r) = some f →
      j ≠ i ∧ own j r = some f := by
    intro j r f hf
    split at hf
    case isTrue => exact absurd hf (by simp)
    case isFalse hj => exact ⟨hj, hf⟩
  refine ⟨fun j r => if j = i then none else own j r,
    h.shrink (fun j r f hf => (hset j r f hf).2) ?_ ?_ ?_ (fun _ _ _ _ _ => rfl)⟩
  · intro j r f hf
    rw [hother j (hset j r f hf).1]
  · intro j r hn
    split at hn
    case isTrue hj =>
      rw [hj, claimProc]
      dsimp only
      rw [modify_self]
      cases r <;> rfl
    case isFalse hj => rw [hother j hj, h.null j r hn]
  · exact fun j r f hf => (h.taken j r f (hset j r f hf).2).2

theorem pagesOk_giveStack {k : Kernel} (h : PagesOk k) (i : ProcRef) :
    PagesOk (k.giveStack i).1 := by
  rcases k.giveStack_cases i with ⟨hrun, -⟩ | ⟨f, hf, hfree, hrun⟩
  · rw [hrun]
    exact h
  · rw [hrun]
    dsimp only
    refine h.give (i := i) (r := .kstack) hf hfree rfl ?_
      (modify_pointer _ i fun p s hs => pointer_kstack p _ hs) (fun _ _ _ _ _ => rfl) (by simp)
    rw [modify_self]
    exact rfl

theorem pagesOk_giveTrapframe {k : Kernel} (h : PagesOk k) (i : ProcRef) :
    PagesOk (k.giveTrapframe i).1 := by
  rcases k.giveTrapframe_cases i with ⟨hrun, -⟩ | ⟨f, hf, hfree, hrun⟩
  · rw [hrun]
    exact h
  · rw [hrun]
    dsimp only
    refine h.give (i := i) (r := .trapframe) hf hfree rfl ?_
      (modify_pointer _ i fun p s hs => pointer_trapframe p _ hs) (fun _ _ _ _ _ => rfl) (by simp)
    rw [modify_self]
    exact rfl

theorem pagesOk_giveTable {k : Kernel} (h : PagesOk k) (i : ProcRef) :
    PagesOk (k.giveTable i).1 := by
  rcases k.giveTable_cases i with ⟨hrun, hzero⟩ | ⟨vm', f, hf, hfree, hphys, hregs, hword, hrun⟩
  · rw [hrun]
    refine h.drop (i := i) (r := .pagetable) (by rw [modify_self]; rfl)
      (modify_pointer _ i fun p s hs => pointer_pagetable p _ hs) (fun _ _ => rfl)
      (fun _ _ _ _ _ _ hg => hg) (fun _ => rfl)
  · rw [hrun]
    dsimp only
    refine h.give (i := i) (r := .pagetable) hf hfree hphys ?_
      (modify_pointer _ i fun p s hs => pointer_pagetable p _ hs) ?_ ?_
    · rw [modify_self]
      exact pointsTo_helper k.vm f
    · intro g n hg hn hne
      exact (hword g n hg hn).trans (if_neg hne)
    · intro _ n hn
      exact (hword f n hf hn).trans (if_pos rfl)

/-- The address of the page, or an address outside RAM. -/
theorem pagetable_freed {vm : Vm} {w : Word} {f : Nat} (hf : f < numPages)
    (h : PointsTo .pagetable w f) {g : Nat} (hne : g ≠ f) (hg : vm.phys.isPageFree g = false) :
    (vm.freePageTable w).phys.isPageFree g = false := by
  have hf' : f < 32768 := hf
  have hbase : kernelBaseAddr.toNat = 0x80000000 := rfl
  have htop : (kernelBaseAddr + physMemSize).toNat = 0x88000000 := rfl
  have hoff : physToVirtOffset.toNat = 0x40000000 := rfl
  have haddr := pageAddr_toNat hf
  -- whatever the two modes say, only the page of `w` is freed
  have hpage : (vm.phys.freePage (pageAddr f)).isPageFree g = false := by
    rw [Physmem.isPageFree_freePage_pageAddr _ hf, hg]
    simp [hne]
  have hout : ∀ a : Word, ¬ (kernelBaseAddr ≤ a ∧ a < kernelBaseAddr + physMemSize) →
      (vm.phys.freePage a).isPageFree g = false := by
    intro a ha
    rw [Physmem.isPageFree_freePage, hg, Bool.false_or, decide_eq_false]
    exact fun h => ha ⟨h.1, h.2.1⟩
  unfold Vm.freePageTable Vm.virtToPhysHelper
  split
  · exact hg
  · dsimp only
    split
    · rcases h with rfl | rfl
      · refine hout _ ?_
        rintro ⟨hlo, -⟩
        rw [BitVec.le_def, virtToPhys, BitVec.toNat_sub, haddr, hbase, hoff] at hlo
        omega
      · rw [virtToPhys, physToVirt, BitVec.add_sub_cancel]
        exact hpage
    · rcases h with rfl | rfl
      · exact hpage
      · refine hout _ ?_
        rintro ⟨-, hhi⟩
        rw [BitVec.lt_def, physToVirt, BitVec.toNat_add, haddr, hoff, htop] at hhi
        omega

theorem pagesOk_freeProcTable {k : Kernel} (h : PagesOk k) (i : ProcRef) :
    PagesOk (k.freeProcTable i) := by
  unfold freeProcTable
  split
  case isFalse => exact h
  case isTrue hne =>
    refine h.drop (i := i) (r := .pagetable) (by rw [modify_self]; rfl)
      (modify_pointer _ i fun p s hs => pointer_pagetable p _ hs) ?_ ?_ ?_
    · intro g n
      unfold Vm.freePageTable
      dsimp only [modify_vm]
      split <;> rfl
    · exact fun f g hf _ hp hgf hg => pagetable_freed hf hp hgf hg
    · exact fun hzero => absurd hzero hne

/-- A kernel stack or a trapframe goes back to the page allocator, if it lies at `phys`. -/
theorem PagesOk.freePage {k : Kernel} (h : PagesOk k) {i : ProcRef} {r : Resource} {phys : Word}
    {f : Proc → Proc} (hne : (k.procTable i).pointer r ≠ 0)
    (hphys : ∀ g, PointsTo r ((k.procTable i).pointer r) g → phys = pageAddr g)
    (hzero : ∀ p, (f p).pointer r = 0) (hother : ∀ p s, s ≠ r → (f p).pointer s = p.pointer s) :
    PagesOk ((k.freePage phys).modify i f) := by
  refine h.drop (i := i) (r := r) (by rw [modify_self]; exact hzero _) (modify_pointer _ i hother)
    (fun _ _ => rfl) ?_ fun hp => absurd hp hne
  intro g g' hg _ hp hne' hg'
  change (k.vm.phys.freePage phys).isPageFree g' = false
  rw [hphys g hp, Physmem.isPageFree_freePage_pageAddr _ hg, hg']
  simp [hne']

theorem pagesOk_freeProcStack {k : Kernel} (h : PagesOk k) (i : ProcRef) :
    PagesOk (k.freeProcStack i) := by
  unfold freeProcStack
  split
  case isFalse => exact h
  case isTrue hne =>
    refine h.freePage (r := .kstack) hne (fun g hp => ?_) (fun _ => rfl)
      fun p s hs => pointer_kstack p _ hs
    change (k.procTable i).kstack = _ at hp
    rw [hp, BitVec.add_sub_cancel, virtToPhys, physToVirt, BitVec.add_sub_cancel]

theorem pagesOk_freeProcTrapframe {k : Kernel} (h : PagesOk k) (i : ProcRef) :
    PagesOk (k.freeProcTrapframe i) := by
  unfold freeProcTrapframe
  split
  case isFalse => exact h
  case isTrue hne =>
    refine h.freePage (r := .trapframe) hne (fun g hp => ?_) (fun _ => rfl)
      fun p s hs => pointer_trapframe p _ hs
    change (k.procTable i).trapframe = _ at hp
    rw [hp, virtToPhys, physToVirt, BitVec.add_sub_cancel]

/-- `free_proc`. -/
theorem pagesOk_freeProc {k : Kernel} (h : PagesOk k) (i : ProcRef) : PagesOk (k.freeProc i) :=
  (pagesOk_freeProcTrapframe (pagesOk_freeProcStack (pagesOk_freeProcTable h i) i) i).modify i
    fun _ r => by cases r <;> rfl

/-- The copy goes to the trapframe of the child, which is not a page table. -/
theorem pagesOk_inheritTrapframe {k : Kernel} (h : PagesOk k) (parent : ProcRef) {child : ProcRef}
    (hne : (k.procTable child).trapframe ≠ 0) : PagesOk (k.inheritTrapframe parent child) := by
  obtain ⟨own, h⟩ := h
  obtain ⟨vm', heq, hphys, -, hword⟩ := k.inheritTrapframe_eq parent child
  cases hf : own child .trapframe with
  | none => exact absurd (h.null child _ hf) hne
  | some f =>
    have hflt := (h.taken child _ f hf).1
    have hd : Designates (k.procTable child).trapframe f := by
      have hp : (k.procTable child).trapframe = physToVirt (pageAddr f) := h.points child _ f hf
      rw [hp]
      exact resolve_physToVirt hflt
    rw [heq]
    refine ⟨own, h.shrink (fun _ _ _ hg => hg) (fun _ _ _ _ => rfl) h.null ?_ ?_⟩
    · intro j r g hg
      rw [hphys]
      exact (h.taken j r g hg).2
    · intro j g n hg hn
      refine hword f hd hflt g n (h.taken j _ g hg).1 hn ?_
      rintro rfl
      exact absurd (h.inj j _ child _ g hg hf).2 (by simp)

/-- The steps of `proc_init` and `fork`. -/
theorem keptBySpawn_pagesOk : KeptBySpawn PagesOk where
  claim i h := pagesOk_claimProc h i
  adopt i _ _ h := h.modify i fun _ r => by cases r <;> rfl
  stack i h := pagesOk_giveStack h i
  frame i h := pagesOk_giveTrapframe h i
  inherit parent _ hne h := pagesOk_inheritTrapframe h parent hne
  table i h := pagesOk_giveTable h i
  free i h := pagesOk_freeProc h i
  ready i h := h.modify i fun _ r => by cases r <;> rfl

theorem pagesOk_procInit (vm : Vm) : PagesOk (fresh vm).procInit := by
  have hstart : PagesOk { fresh vm with
      procTable := fun i => { (fresh vm).procTable i with state := .unused } } := by
    refine ⟨fun _ _ => none, ?_, ?_, ?_, ?_, ?_⟩
    · exact fun _ _ _ h => absurd h (by simp)
    · exact fun _ _ _ _ _ h => absurd h (by simp)
    · exact fun _ _ _ h => absurd h (by simp)
    · intro i r _
      cases r <;> rfl
    · exact fun _ _ _ h => absurd h (by simp)
  obtain ⟨k', h, hrun⟩ := keptBySpawn_pagesOk.procInit hstart
  rcases hrun with hrun | ⟨init, hrun⟩
  · rw [hrun]
    exact h
  · rw [hrun]
    exact h.congr rfl rfl fun _ _ => rfl

theorem pagesOk_wakeup {k : Kernel} (h : PagesOk k) : PagesOk k.wakeup := by
  refine h.congr rfl rfl ?_
  intro i r
  unfold wakeup
  dsimp only
  split
  · cases r <;> rfl
  · rfl

theorem pagesOk_exit {k : Kernel} (h : PagesOk k) (status : BitVec 32) :
    PagesOk (k.exit status) := by
  unfold exit
  split
  · exact h
  · have hzombie := fun i => h.modify i (f := fun p => { p with
      exitCode := status, state := .zombie }) fun _ r => by cases r <;> rfl
    dsimp only
    split
    · exact pagesOk_wakeup (hzombie _)
    · exact hzombie _

theorem pagesOk_sleep {k : Kernel} (h : PagesOk k) : PagesOk k.sleep := by
  unfold sleep
  split
  · exact h
  · exact h.modify _ fun _ r => by cases r <;> rfl

theorem pagesOk_yield {k : Kernel} (h : PagesOk k) : PagesOk k.yield := by
  unfold yield
  split
  · exact h
  · split
    · exact h.modify _ fun _ r => by cases r <;> rfl
    · exact h

theorem pagesOk_dispatch {k : Kernel} (h : PagesOk k) (i : ProcRef) : PagesOk (k.dispatch i) := by
  refine h.congr ?_ ?_ ?_
  · unfold dispatch
    dsimp only
    split <;> split <;> rfl
  · unfold dispatch
    dsimp only
    split <;> split <;> rfl
  · intro j r
    rw [k.dispatch_field i (fun p => p.pointer r) (fun p c => by cases r <;> rfl)]
    split
    case isTrue hj =>
      rw [hj]
      cases r <;> rfl
    case isFalse => rfl

/-- The status goes to an `int` of the caller, not to a page table. -/
def OutsideTables (k : Kernel) (statusAddr : Word) : Prop :=
  ∀ i n, n < 512 → (k.procTable i).pagetable ≠ 0 →
    resolve (statusAddr &&& ~~~7)
      ≠ resolve (Vm.entryPtr (k.procTable i).pagetable (BitVec.ofNat 64 n))

theorem storeInt_eq (vm : Vm) (ptr : Word) (v : BitVec 32) :
    ∃ w, storeInt vm ptr v = vm.store (ptr &&& ~~~7) w := by
  unfold storeInt
  dsimp only
  split
  · exact ⟨_, rfl⟩
  · exact ⟨_, rfl⟩

theorem pagesOk_wait {k : Kernel} (h : PagesOk k) {statusAddr : Word}
    (hout : k.OutsideTables statusAddr) : PagesOk (k.wait statusAddr).1 := by
  unfold wait
  split
  · exact h
  case h_2 child _ =>
    dsimp only
    refine pagesOk_freeProc ?_ child
    obtain ⟨own, h⟩ := h
    obtain ⟨w, hstore⟩ := storeInt_eq k.vm statusAddr (k.procTable child).exitCode
    rw [hstore]
    refine ⟨own, h.shrink (fun _ _ _ hf => hf) (fun _ _ _ _ => rfl) h.null
      (fun i r f hf => (h.taken i r f hf).2) ?_⟩
    intro i f n hf hn
    have hflt := (h.taken i _ f hf).1
    have hd := (h.points i _ f hf).designates hflt
    have hne : wordAddr f n ≠ resolve (statusAddr &&& ~~~7) := by
      rw [← hd n hn]
      exact (hout i n hn (hd.ne_zero hflt)).symm
    exact Function.update_of_ne hne _ _

/-- The page tables are in RAM. -/
theorem PagesOk.outsideTables {k : Kernel} (h : PagesOk k) {statusAddr : Word}
    (hlow : resolve (statusAddr &&& ~~~7) < kernelBaseAddr) : k.OutsideTables statusAddr := by
  obtain ⟨own, h⟩ := h
  intro i n hn hne heq
  cases hf : own i .pagetable with
  | none => exact hne (h.null i _ hf)
  | some f =>
    have hflt := (h.taken i _ f hf).1
    have hd : Designates (k.procTable i).pagetable f := (h.points i _ f hf).designates hflt
    rw [heq, hd n hn, BitVec.lt_def, wordAddr_toNat hflt hn] at hlow
    have hbase : kernelBaseAddr.toNat = 0x80000000 := rfl
    omega

/-! ## 4. What the page tables map -/

/-- Every process the scheduler can pick, and every one it has picked, has in its page table what
the kernel page table maps. -/
def KeepsKernel (k : Kernel) : Prop :=
  ∀ i, ((k.procTable i).state = .runnable ∨ (k.procTable i).state = .running) →
    (k.procTable i).pagetable ≠ 0 →
    ∀ va, k.vm.isMapped k.vm.kernelPagetable va = true →
      k.vm.walkPageTable (k.procTable i).pagetable va
        = k.vm.walkPageTable k.vm.kernelPagetable va

/-- No such process has a page table, or the kernel page table translates nothing but to 0. -/
def NothingToKeep (k : Kernel) : Prop :=
  (∀ i, ((k.procTable i).state = .runnable ∨ (k.procTable i).state = .running) →
    (k.procTable i).pagetable = 0) ∨
  ∀ va, k.vm.isMapped k.vm.kernelPagetable va = true →
    k.vm.walkPageTable k.vm.kernelPagetable va = 0

/-- The page table of a process maps nothing. -/
theorem walk_table_zero {k : Kernel} (h : PagesOk k) {i : ProcRef}
    (hne : (k.procTable i).pagetable ≠ 0) (va : Word) :
    k.vm.walkPageTable (k.procTable i).pagetable va = 0 := by
  obtain ⟨own, h⟩ := h
  cases hf : own i .pagetable with
  | none => exact absurd (h.null i _ hf) hne
  | some f =>
    obtain ⟨hflt, htaken⟩ := h.taken i _ f hf
    have hrepr := Vm.repr_rootOnly hflt htaken fun n hn => h.empty i f n hf hn
    have hd : Designates (k.procTable i).pagetable f := (h.points i _ f hf).designates hflt
    rw [Vm.walkPageTable_eq hrepr rfl hd, Vm.leaf_rootOnly, if_neg (by simp)]

theorem keepsKernel_iff {k : Kernel} (h : PagesOk k) : KeepsKernel k ↔ NothingToKeep k := by
  constructor
  · intro hkeep
    by_cases hall : ∀ i, ((k.procTable i).state = .runnable ∨ (k.procTable i).state = .running) →
        (k.procTable i).pagetable = 0
    · exact Or.inl hall
    · push Not at hall
      obtain ⟨i, hi, hne⟩ := hall
      refine Or.inr ?_
      intro va hva
      rw [← hkeep i hi hne va hva, walk_table_zero h hne]
  · rintro (hnone | hzero) i hi hne va hva
    · exact absurd (hnone i hi) hne
    · rw [walk_table_zero h hne, hzero va hva]

end Kernel

namespace Machine

/-- In a step, `wait` stores the status outside the page tables. -/
def StatusOutside (m : Machine) : KernelOp → Prop
  | .wait statusAddr => m.kernel.OutsideTables statusAddr
  | _ => True

/-- **The pages of the processes stay their own.** -/
theorem step_pagesOk {m m' : Machine} {op : KernelOp} (h : m.kernel.PagesOk)
    (hout : m.StatusOutside op) (hs : m.step op = some m') : m'.kernel.PagesOk := by
  have hadv : m.kernel.advance.PagesOk := h.congr rfl rfl fun _ _ => rfl
  cases step_to hs with
  | dispatched => exact Kernel.pagesOk_dispatch hadv _
  | passed => exact hadv
  | yielded => exact Kernel.pagesOk_yield h
  | slept => exact Kernel.pagesOk_sleep h
  | notSlept => exact h
  | woken => exact Kernel.pagesOk_wakeup h
  | forked => exact Kernel.keptBySpawn_pagesOk.fork h
  | exited status => exact Kernel.pagesOk_exit h status
  | notExited => exact h
  | waited statusAddr => exact Kernel.pagesOk_wait h hout

/-- After `proc_init`. -/
def afterInit (vm : Vm) : Machine := ⟨(Kernel.fresh vm).procInit, false⟩

theorem afterInit_kernel (vm : Vm) : (afterInit vm).kernel = (Kernel.fresh vm).procInit := by
  rw [afterInit]

theorem pagesOk_afterInit (vm : Vm) : (afterInit vm).kernel.PagesOk := by
  rw [afterInit_kernel]
  exact Kernel.pagesOk_procInit vm

/-- **The processes keep the kernel mapped exactly in the states where there is nothing to
keep.** -/
theorem keepsKernel_iff_nothingToKeep (vm : Vm) (ops : List KernelOp)
    (hout : Transition.EachStep step StatusOutside (afterInit vm) ops) :
    Transition.Always step (fun m => m.kernel.KeepsKernel ↔ m.kernel.NothingToKeep)
      (afterInit vm) ops := by
  have hok : Transition.Always step (fun m => m.kernel.PagesOk) (afterInit vm) ops :=
    Transition.always_of_eachStep (fun _ _ _ h hc hs => step_pagesOk h hc hs) ops _
      (pagesOk_afterInit vm) hout
  exact hok.mono fun _ h => Kernel.keepsKernel_iff h

/-- A status below RAM is in no page table. -/
theorem statusOutside_of_low {m : Machine} (h : m.kernel.PagesOk) {op : KernelOp}
    (hlow : ∀ a, op = .wait a → resolve (a &&& ~~~7) < kernelBaseAddr) : m.StatusOutside op := by
  cases op with
  | wait a => exact h.outsideTables (hlow a rfl)
  | scan | yield | sleep | wakeup | fork | exit _ => trivial

/-- After `paging_init`: `init` forks, waits, and a process that the scheduler has picked waits
again. -/
theorem keepsKernel_iff_nothingToKeep_wait : ∃ vm m,
    (Vm.boot 0x80020000 fun _ => 0).pagingInit 0x80020000 = (vm, true) ∧
    Transition.run step (afterInit vm) [.fork, .wait 0x1000, .yield, .scan, .wait 0x1000] = some m ∧
    Transition.Always step (fun m => m.kernel.KeepsKernel ↔ m.kernel.NothingToKeep)
      (afterInit vm) [.fork, .wait 0x1000, .yield, .scan, .wait 0x1000] := by
  obtain ⟨vm, hrun⟩ := Vm.pagingInit_reaches fun _ => 0
  have hlow : Transition.EachStep step
      (fun _ op => ∀ a, op = .wait a → resolve (a &&& ~~~7) < kernelBaseAddr) (afterInit vm)
      [.fork, .wait 0x1000, .yield, .scan, .wait 0x1000] := by
    refine Transition.eachStep_of_labels fun op hop _ a ha => ?_
    subst ha
    simp only [List.mem_cons, KernelOp.wait.injEq, reduceCtorEq, List.not_mem_nil, false_or,
      or_false, or_self] at hop
    exact hop ▸ by decide
  have hout : Transition.EachStep step StatusOutside (afterInit vm)
      [.fork, .wait 0x1000, .yield, .scan, .wait 0x1000] :=
    Transition.eachStep_of_eachStep (fun m op _ h hc hs =>
      have hout := statusOutside_of_low h hc
      ⟨step_pagesOk h hout hs, hout⟩) _ _ (pagesOk_afterInit vm) hlow
  obtain ⟨m, hm⟩ : ∃ m, Transition.run step (afterInit vm)
      [.fork, .wait 0x1000, .yield, .scan, .wait 0x1000] = some m := by
    simp only [Transition.run_cons, step, Option.bind_some, if_true]
    split
    all_goals exact ⟨_, rfl⟩
  exact ⟨vm, m, hrun, hm, keepsKernel_iff_nothingToKeep vm _ hout⟩

/-- `init` is runnable, and its page table does not map what `paging_init` has mapped at
`0x40001000`. -/
theorem init_loses_kernel : ¬ ∀ (vm : Vm) (ops : List KernelOp),
    Transition.EachStep step StatusOutside (afterInit vm) ops →
      Transition.Always step (fun m => m.kernel.KeepsKernel) (afterInit vm) ops := by
  intro h
  obtain ⟨vm, hrun⟩ := Vm.pagingInit_reaches fun _ => 0
  have hkeep : (afterInit vm).kernel.KeepsKernel :=
    (h vm [] (by rw [Transition.EachStep]; trivial)).head
  rw [afterInit_kernel] at hkeep
  obtain ⟨vm', ok, hrun', -, hok⟩ :=
    Vm.pagingInit_spec 0x80020000 (Vm.boot 0x80020000 fun _ => 0)
  rw [hrun, Prod.mk.injEq] at hrun'
  obtain ⟨rfl, rfl⟩ := hrun'
  obtain ⟨t, r, hrepr, hr, hd, hfree, -⟩ := hok rfl
  have hboot := Vm.boot_numFree fun _ => 0
  obtain ⟨hinit, -, -⟩ := Kernel.procInit_spawned (k := Kernel.fresh vm)
    (by change 3 ≤ vm.phys.numFree; omega)
  -- the kernel page table is untouched
  obtain ⟨hrepr', hleaf⟩ := hrepr.keeps hinit.keeps
  have hroot : (Kernel.fresh vm).procInit.vm.kernelPagetable = vm.kernelPagetable :=
    hinit.keeps.regs.kernelPagetable
  have hwalk : (Kernel.fresh vm).procInit.vm.walkPageTable vm.kernelPagetable 0x40001000
      = 0x1000 := by
    rw [Vm.walkPageTable_eq hrepr' hr hd, hleaf, ← Vm.walkPageTable_eq hrepr hr hd,
      Vm.walk_kernel_window hrun (by decide) (by decide)]
    decide
  have hmapped : (Kernel.fresh vm).procInit.vm.isMapped vm.kernelPagetable 0x40001000 = true := by
    rw [Vm.isMapped_eq hrepr' hr hd]
    intro hzero
    rw [Vm.walkPageTable_eq hrepr' hr hd, if_neg (not_not_intro hzero)] at hwalk
    exact absurd hwalk (by decide)
  have hempty := Kernel.walk_table_zero (Kernel.pagesOk_procInit vm) hinit.table 0x40001000
  have hsame := hkeep 0 (Or.inl hinit.state) hinit.table 0x40001000 (by rw [hroot]; exact hmapped)
  rw [hempty, hroot, hwalk] at hsame
  exact absurd hsame (by decide)

end Machine

end Lithium
