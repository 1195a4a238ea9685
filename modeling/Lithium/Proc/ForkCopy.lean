/-
# What a child inherits

`fork` copies the trapframe of the parent and nothing else: the child gets a kernel stack with
whatever is in the page, and an empty page table, so that it shares no memory with its parent and
has none of its own.  The copy goes through pointers of the high half, and that the three new pages
are not pages of anybody is the account of `Account`.

A `fork` that runs out of pages may have written a trapframe into a page by then; that page is free
again.
-/
import Lithium.Proc.Resources

namespace Lithium

namespace Kernel

variable {P : Finset Nat} {k k' : Kernel} {p c : ProcRef}

/-! ## 1. The steps of `fork` -/

/-- There is a page for the kernel stack. -/
theorem giveStack_ok (k : Kernel) (c : ProcRef) (h : k.vm.phys.numFree ≠ 0) :
    ∃ k', k.giveStack c = (k', true) ∧ k'.vm.phys.numFree + 1 = k.vm.phys.numFree := by
  rcases k.giveStack_cases c with ⟨-, hzero⟩ | ⟨f, hf, hfree, hrun⟩
  · exact absurd hzero h
  · exact ⟨_, hrun, Physmem.numFree_markPageAllocated hf hfree⟩

/-- There is a page for the trapframe. -/
theorem giveTrapframe_ok (k : Kernel) (c : ProcRef) (h : k.vm.phys.numFree ≠ 0) :
    ∃ k', k.giveTrapframe c = (k', true) ∧ k'.vm.phys.numFree + 1 = k.vm.phys.numFree := by
  rcases k.giveTrapframe_cases c with ⟨-, hzero⟩ | ⟨f, hf, hfree, hrun⟩
  · exact absurd hzero h
  · exact ⟨_, hrun, Physmem.numFree_markPageAllocated hf hfree⟩

/-- There is a page for the page table. -/
theorem giveTable_ok (k : Kernel) (c : ProcRef) (h : k.vm.phys.numFree ≠ 0) :
    ∃ k', k.giveTable c = (k', true) := by
  rcases k.giveTable_cases c with ⟨-, hzero⟩ | ⟨vm', f, -, -, -, -, -, hrun⟩
  · exact absurd hzero h
  · exact ⟨_, hrun⟩

/-- **A `fork` that makes a child**, step after step. -/
theorem fork_steps (hcur : k.currentProcess = some p) (hcan : k.CanFork) :
    ∃ c k₁ k₂ k₃, (k.procTable c).state = .unused ∧ k.allocProc.2 = some c ∧
      (k.adopt p c).giveStack c = (k₁, true) ∧ k₁.giveTrapframe c = (k₂, true) ∧
      (k₂.inheritTrapframe p c).giveTable c = (k₃, true) ∧
      k.fork = (k₃.modify c fun q => { q with state := .runnable }, (k₃.procTable c).pid) := by
  obtain ⟨⟨i, hi⟩, hroom⟩ := hcan
  rcases k.allocProc_cases with ⟨hall, -⟩ | ⟨c, hfree, halloc⟩
  · exact absurd hi (hall i)
  have hthree : 3 ≤ (k.adopt p c).vm.phys.numFree := hroom
  obtain ⟨k₁, hrun₁, hnum₁⟩ := (k.adopt p c).giveStack_ok c (by omega)
  obtain ⟨k₂, hrun₂, hnum₂⟩ := k₁.giveTrapframe_ok c (by omega)
  obtain ⟨vm', heq, hphys₂, -⟩ := k₂.inheritTrapframe_eq p c
  obtain ⟨k₃, hrun₃⟩ := (k₂.inheritTrapframe p c).giveTable_ok c (by
    rw [heq]
    dsimp only
    rw [hphys₂]
    omega)
  refine ⟨c, k₁, k₂, k₃, hfree, by rw [halloc], hrun₁, hrun₂, hrun₃, ?_⟩
  unfold Kernel.fork
  rw [hcur, halloc]
  dsimp only
  rw [show (k.claimProc c).modify c (fun q => { q with
    parent := some p
    sz := ((k.claimProc c).procTable p).sz }) = k.adopt p c from rfl, hrun₁]
  dsimp only
  rw [hrun₂]
  dsimp only
  rw [hrun₃]
  dsimp only
  rw [modify_self]

/-! ## 2. The copy -/

/-- The words `copy_trapframe` copies: the first `m` after as many passes. -/
theorem copyTrapframe_passes (vm : Vm) {dest src : Word} {f g : Nat} (hd : Designates dest f)
    (hs : Designates src g) (hf : f < numPages) (hg : g < numPages) (hne : f ≠ g) :
    ∀ m, m ≤ 512 → ∀ vm' : Vm, vm' = (List.range m).foldl (fun vm n =>
      vm.store (Vm.entryPtr dest (BitVec.ofNat 64 n))
        (vm.load (Vm.entryPtr src (BitVec.ofNat 64 n)))) vm →
      ∀ h n, h < numPages → n < 512 →
        vm'.word h n = if h = f ∧ n < m then vm.word g n else vm.word h n := by
  intro m
  induction m with
  | zero =>
    rintro - vm' rfl h n - -
    simp
  | succ m ih =>
    rintro hm vm' rfl h n hh hn
    rw [List.range_succ, List.foldl_append, List.foldl_cons, List.foldl_nil,
      Vm.word_store (hd m (by omega)) hf (by omega) _ hh hn]
    have hload : ∀ vm' : Vm, vm'.load (Vm.entryPtr src (BitVec.ofNat 64 m)) = vm'.word g m :=
      fun vm' => by rw [Vm.load, hs m (by omega), Vm.word]
    rw [hload, ih (by omega) _ rfl g m hg (by omega), ih (by omega) _ rfl h n hh hn,
      if_neg fun e : g = f ∧ m < m => hne e.1.symm]
    by_cases hhf : h = f
    · subst hhf
      by_cases hnm : n = m
      · simp [hnm]
      · have hiff : n < m + 1 ↔ n < m := by omega
        rw [if_neg fun e => hnm e.2]
        simp [hiff]
    · simp [hhf]

/-- **`copy_trapframe`**, between two pages: 36 words. -/
theorem copyTrapframe_word (vm : Vm) {dest src : Word} {f g : Nat} (hd : Designates dest f)
    (hs : Designates src g) (hf : f < numPages) (hg : g < numPages) (hne : f ≠ g) {h n : Nat}
    (hh : h < numPages) (hn : n < 512) :
    (copyTrapframe vm dest src).word h n =
      if h = f ∧ n < 36 then vm.word g n else vm.word h n := by
  have hnonzero : ¬ (dest = 0 ∨ src = 0) := by
    rintro (hz | hz)
    · exact hd.ne_zero hf hz
    · exact hs.ne_zero hg hz
  rw [copyTrapframe, if_neg hnonzero]
  exact copyTrapframe_passes vm hd hs hf hg hne 36 (by decide) _ rfl h n hh hn

/-- **What the child inherits**: the trapframe, with 0 in `a0`. -/
theorem inheritTrapframe_word {f g : Nat} (hd : Designates (k.procTable c).trapframe f)
    (hs : Designates (k.procTable p).trapframe g) (hf : f < numPages) (hg : g < numPages)
    (hne : f ≠ g) {h n : Nat} (hh : h < numPages) (hn : n < 512) :
    (k.inheritTrapframe p c).vm.word h n =
      if h = f ∧ n = 14 then 0 else if h = f ∧ n < 36 then k.vm.word g n else k.vm.word h n := by
  have ha0 : resolve (Vm.entryPtr (k.procTable c).trapframe 14) = wordAddr f 14 :=
    hd 14 (by decide)
  rw [inheritTrapframe, if_pos (hs.ne_zero hg)]
  dsimp only
  rw [Vm.word_store ha0 hf (by decide) _ hh hn, copyTrapframe_word k.vm hd hs hf hg hne hh hn]

/-! ## 3. The child -/

/-- `fork` by `p` makes a child in entry `c`: it takes three free pages, `stack`, `frame` and
`table`, and `old` is the page of the trapframe of the parent. -/
structure Cloned (k k' : Kernel) (p c : ProcRef) (stack frame table old : Nat) : Prop where
  parent : k.Holds (p, .trapframe) old
  nodup : [stack, frame, table].Nodup
  fresh : ∀ f ∈ [stack, frame, table], k.IsFree f
  free : ∀ f, k'.IsFree f ↔ k.IsFree f ∧ f ∉ [stack, frame, table]
  entry : k'.procTable c = { k.procTable c with
    state := .runnable
    pid := k.nextPid
    parent := some p
    pagetable := handle .pagetable table
    sz := (k.procTable p).sz
    kstack := handle .kstack stack
    trapframe := handle .trapframe frame
    exitCode := 0 }
  others : ∀ j, j ≠ c → k'.procTable j = k.procTable j
  /-- The registers of the parent, but for `a0`, where the child finds 0. -/
  registers : ∀ n, n < 36 → k'.vm.word frame n = if n = 14 then 0 else k.vm.word old n
  /-- The address space of the child is empty. -/
  empty : ∀ n, n < 512 → k'.vm.word table n = 0
  /-- Nothing else is written, not even the rest of the page of the trapframe. -/
  memory : ∀ f n, f < numPages → n < 512 → ¬ (f = frame ∧ n < 36) → f ≠ table →
    k'.vm.word f n = k.vm.word f n

/-- Before the copy: the entry is filled in, with a kernel stack and a trapframe. -/
structure Framed (k k₂ : Kernel) (p c : ProcRef) (stack frame : Nat) : Prop where
  stackFree : k.IsFree stack
  frameFree : k.IsFree frame
  ne : stack ≠ frame
  phys : k₂.vm.phys = (k.vm.phys.markPageAllocated stack).markPageAllocated frame
  mem : k₂.vm.mem = k.vm.mem
  active : k₂.vm.pagingActive = k.vm.pagingActive
  entry : k₂.procTable c = { k.procTable c with
    state := .used
    pid := k.nextPid
    parent := some p
    pagetable := 0
    sz := (k.procTable p).sz
    kstack := handle .kstack stack
    trapframe := handle .trapframe frame
    exitCode := 0 }
  others : ∀ j, j ≠ c → k₂.procTable j = k.procTable j

theorem framed_of_runs {k₁ k₂ : Kernel} (hpc : p ≠ c)
    (hrun₁ : (k.adopt p c).giveStack c = (k₁, true)) (hrun₂ : k₁.giveTrapframe c = (k₂, true)) :
    ∃ stack frame, Framed k k₂ p c stack frame := by
  obtain ⟨stack, hstack, hstackFree, hk₁⟩ := giveStack_true hrun₁
  obtain ⟨frame, hframe, hframeFree, hk₂⟩ := giveTrapframe_true hrun₂
  have hphys₁ : k₁.vm.phys = k.vm.phys.markPageAllocated stack := by
    rw [hk₁]
    rfl
  rw [hphys₁, Physmem.isPageFree_markPageAllocated, Bool.and_eq_true, decide_eq_true_eq]
    at hframeFree
  refine ⟨stack, frame, ⟨hstack, hstackFree⟩, ⟨hframe, hframeFree.1⟩, hframeFree.2.symm, ?_, ?_,
    ?_, ?_, fun j hj => ?_⟩
  · rw [hk₂, modify_vm, hphys₁]
  · rw [hk₂, hk₁]
    rfl
  · rw [hk₂, hk₁]
    rfl
  · rw [hk₂, modify_self, hk₁]
    dsimp only
    rw [modify_self, adopt]
    dsimp only
    rw [modify_self, claimProc_of_ne k hpc, claimProc]
    dsimp only
    rw [modify_self]
    rfl
  · rw [hk₂, modify_of_ne _ _ _ hj, hk₁]
    dsimp only
    rw [modify_of_ne _ _ _ hj, adopt_of_ne k p hj]

/-- What the copy of the trapframe leaves in RAM. -/
theorem Framed.copied_word {k₂ : Kernel} {stack frame old : Nat}
    (h : Framed k k₂ p c stack frame) (hpc : p ≠ c)
    (hold : k.Holds (p, .trapframe) old) (hne : frame ≠ old) {f n : Nat} (hf : f < numPages)
    (hn : n < 512) : (k₂.inheritTrapframe p c).vm.word f n =
      if f = frame ∧ n = 14 then 0
      else if f = frame ∧ n < 36 then k.vm.word old n else k.vm.word f n := by
  have hd : Designates (k₂.procTable c).trapframe frame := by
    rw [h.entry]
    exact resolve_physToVirt h.frameFree.1
  have hs : Designates (k₂.procTable p).trapframe old := by
    rw [h.others p hpc, show (k.procTable p).trapframe = handle .trapframe old from hold.2]
    exact resolve_physToVirt hold.1
  rw [inheritTrapframe_word hd hs h.frameFree.1 hold.1 hne hf hn, Vm.word, Vm.word, Vm.word,
    Vm.word, h.mem]

/-- The pages that are free behind the stack and the trapframe. -/
theorem Framed.copied_free {k₂ : Kernel} {stack frame : Nat} (h : Framed k k₂ p c stack frame)
    (f : Nat) :
    (k₂.inheritTrapframe p c).vm.phys.isPageFree f =
      (k.vm.phys.isPageFree f && decide (f ≠ stack) && decide (f ≠ frame)) := by
  obtain ⟨vm', hinherit, hphys, -, -⟩ := k₂.inheritTrapframe_eq p c
  rw [hinherit]
  dsimp only
  rw [hphys, h.phys, Physmem.isPageFree_markPageAllocated, Physmem.isPageFree_markPageAllocated]

/-- **A `fork` that makes a child.** -/
theorem fork_cloned (h : Conserved P k) (hcur : k.currentProcess = some p)
    (hp : (k.procTable p).state ≠ .unused) (hcan : k.CanFork) :
    ∃ c stack frame table old, k.allocProc.2 = some c ∧
      Cloned k k.fork.1 p c stack frame table old := by
  obtain ⟨c, k₁, k₂, k₃, hfree, halloc, hrun₁, hrun₂, hrun₃, hend⟩ := fork_steps hcur hcan
  have hpc : p ≠ c := by
    rintro rfl
    exact hp hfree
  obtain ⟨old, hold⟩ := h.holds hp .trapframe
  obtain ⟨stack, frame, hk₂⟩ := framed_of_runs hpc hrun₁ hrun₂
  have hne : frame ≠ old := by
    rintro rfl
    exact h.accounts.ledger.taken hold hk₂.frameFree
  obtain ⟨vm', hinherit, -, hregs, -⟩ := k₂.inheritTrapframe_eq p c
  rcases (k₂.inheritTrapframe p c).giveTable_cases c with ⟨hfail, -⟩ |
    ⟨vm₃, table, htable, htableFree, hphys₃, hregs₃, hword₃, hgive⟩
  · exact absurd (hrun₃.symm.trans hfail) (by simp)
  obtain rfl : k₃ = _ := (Prod.mk.inj (hrun₃.symm.trans hgive)).1
  rw [hk₂.copied_free, Bool.and_eq_true, Bool.and_eq_true, decide_eq_true_eq, decide_eq_true_eq]
    at htableFree
  obtain ⟨⟨htableFree, htableStack⟩, htableFrame⟩ := htableFree
  have hfork : k.fork.1.vm = vm₃ := by rw [hend]; rfl
  refine ⟨c, stack, frame, table, old, halloc, ?_⟩
  constructor
  case parent => exact hold
  case nodup => simp [hk₂.ne, htableStack.symm, htableFrame.symm]
  case fresh =>
    intro f hf
    simp only [List.mem_cons, List.not_mem_nil, or_false] at hf
    rcases hf with rfl | rfl | rfl
    · exact hk₂.stackFree
    · exact hk₂.frameFree
    · exact ⟨htable, htableFree⟩
  case free =>
    intro f
    rw [IsFree, IsFree, hfork, hphys₃, Physmem.isPageFree_markPageAllocated, hk₂.copied_free]
    simp only [Bool.and_eq_true, decide_eq_true_eq, List.mem_cons, List.not_mem_nil, or_false,
      not_or]
    constructor
    · rintro ⟨hf, ⟨⟨hfree, hne₁⟩, hne₂⟩, hne₃⟩
      exact ⟨⟨hf, hfree⟩, hne₁, hne₂, hne₃⟩
    · rintro ⟨⟨hf, hfree⟩, hne₁, hne₂, hne₃⟩
      exact ⟨hf, ⟨⟨hfree, hne₁⟩, hne₂⟩, hne₃⟩
  case entry =>
    have hactive : (k₂.inheritTrapframe p c).vm.pagingActive = true := by
      rw [hinherit]
      exact hregs.pagingActive.trans (hk₂.active.trans h.accounts.active)
    have hentry : (k₂.inheritTrapframe p c).procTable c = k₂.procTable c := by rw [hinherit]
    rw [hend, modify_self, modify_self, Vm.physToVirtHelper, hactive, if_pos rfl]
    dsimp only
    rw [hentry, hk₂.entry]
    rfl
  case others =>
    intro j hj
    rw [hend]
    dsimp only
    rw [modify_of_ne _ _ _ hj, modify_of_ne _ _ _ hj, hinherit]
    exact hk₂.others j hj
  case registers =>
    intro n hn
    rw [hfork, hword₃ frame n hk₂.frameFree.1 (by omega), if_neg htableFrame.symm,
      hk₂.copied_word hpc hold hne hk₂.frameFree.1 (by omega)]
    by_cases hn14 : n = 14
    · simp [hn14]
    · simp [hn14, hn]
  case empty =>
    intro n hn
    rw [hfork, hword₃ table n htable hn, if_pos rfl]
  case memory =>
    intro f n hf hn hframe htab
    rw [hfork, hword₃ f n hf hn, if_neg htab, hk₂.copied_word hpc hold hne hf hn, if_neg ?_,
      if_neg hframe]
    rintro ⟨rfl, rfl⟩
    exact hframe ⟨rfl, by decide⟩

/-! ## 4. No child -/

/-- What is freed keeps its contents. -/
theorem freeProc_mem (k : Kernel) (i : ProcRef) : (k.freeProc i).vm.mem = k.vm.mem := by
  have htable : (k.freeProcTable i).vm.mem = k.vm.mem := by
    rw [freeProcTable]
    split
    · rw [modify_vm, Vm.freePageTable]
      split <;> rfl
    · rfl
  have hstack : ∀ k : Kernel, (k.freeProcStack i).vm.mem = k.vm.mem := by
    intro k
    rw [freeProcStack]
    split <;> rfl
  have hframe : ∀ k : Kernel, (k.freeProcTrapframe i).vm.mem = k.vm.mem := by
    intro k
    rw [freeProcTrapframe]
    split <;> rfl
  rw [freeProc, modify_vm, hframe, hstack, htable]

/-- The pages of process `c` were free, and nothing but free pages has been written. -/
structure Within (c : ProcRef) (k k' : Kernel) : Prop where
  pages : ∀ r f, k'.Holds (c, r) f → k.IsFree f
  free : ∀ f, k'.IsFree f → k.IsFree f
  memory : ∀ f n, f < numPages → n < 512 → ¬ k.IsFree f → k'.vm.word f n = k.vm.word f n

/-- One more page for the process. -/
theorem Within.give {k₁ k₂ : Kernel} (h : Within c k k₁) {r : Resource} {f : Nat}
    (hf : k₁.IsFree f) (hphys : k₂.vm.phys = k₁.vm.phys.markPageAllocated f)
    (hpoint : (k₂.procTable c).pointer r = handle r f)
    (hptr : ∀ s, s ≠ r → (k₂.procTable c).pointer s = (k₁.procTable c).pointer s)
    (hword : ∀ g n, g < numPages → n < 512 → g ≠ f → k₂.vm.word g n = k₁.vm.word g n) :
    Within c k k₂ := by
  refine ⟨fun s g hg => ?_, fun g hg => h.free g ?_, fun g n hg hn hnot => ?_⟩
  · by_cases hs : s = r
    · subst hs
      rw [handle_inj hg.1 hf.1 (hg.2.symm.trans hpoint)]
      exact h.free f hf
    · exact h.pages s g ⟨hg.1, (hptr s hs).symm.trans hg.2⟩
  · obtain ⟨hlt, hfree⟩ := hg
    rw [hphys, Physmem.isPageFree_markPageAllocated, Bool.and_eq_true] at hfree
    exact ⟨hlt, hfree.1⟩
  · have hne : g ≠ f := by
      rintro rfl
      exact hnot (h.free g hf)
    rw [hword g n hg hn hne, h.memory g n hg hn hnot]

/-- **The allocations write to pages that were free.** -/
theorem Supplied.within {rs : List Resource} (hs : Supplied c k rs k') (h : Accounts P k)
    (hnone : ∀ r, (k.procTable c).pointer r = 0) : Within c k k' := by
  induction hs with
  | claimed =>
    exact ⟨fun r f hf => absurd (hf.2.symm.trans (hnone r)) (handle_ne_zero r hf.1), fun _ => id,
      fun _ _ _ _ _ => rfl⟩
  | stack hs hrun ih =>
    obtain ⟨f, hf, hfree, rfl⟩ := giveStack_true hrun
    refine ih.give (r := .kstack) ⟨hf, hfree⟩ rfl ?_ (fun s hs => ?_) fun _ _ _ _ _ => rfl
    · rw [modify_self]
      rfl
    · exact modify_pointer _ c (fun p s hs => pointer_kstack p _ hs) c s fun e => hs e.2
  | frame hs hrun ih =>
    obtain ⟨f, hf, hfree, rfl⟩ := giveTrapframe_true hrun
    refine ih.give (r := .trapframe) ⟨hf, hfree⟩ rfl ?_ (fun s hs => ?_) fun _ _ _ _ _ => rfl
    · rw [modify_self]
      rfl
    · exact modify_pointer _ c (fun p s hs => pointer_trapframe p _ hs) c s fun e => hs e.2
  | @inherit k₁ parent hs hne ih =>
    obtain ⟨f, hf⟩ := (hs.accounts h hnone).1.held c .trapframe hne
    have hd : Designates (k₁.procTable c).trapframe f := by
      rw [show (k₁.procTable c).trapframe = handle .trapframe f from hf.2]
      exact resolve_physToVirt hf.1
    obtain ⟨vm', heq, hphys, -, hword⟩ := k₁.inheritTrapframe_eq parent c
    rw [heq]
    refine ⟨ih.pages, fun g hg => ih.free g ?_, fun g n hg hn hnot => ?_⟩
    · rw [IsFree] at hg ⊢
      exact hphys ▸ hg
    · have hgf : g ≠ f := by
        rintro rfl
        exact hnot (ih.pages .trapframe g hf)
      exact (hword f hd hf.1 g n hg hn hgf).trans (ih.memory g n hg hn hnot)
  | @table k₁ k₂ hs hrun ih =>
    rcases k₁.giveTable_cases c with ⟨hfail, -⟩ | ⟨vm', f, hf, hfree, hphys, -, hword, hgive⟩
    · exact absurd (hrun.symm.trans hfail) (by simp)
    obtain rfl : k₂ = _ := (Prod.mk.inj (hrun.symm.trans hgive)).1
    refine ih.give (r := .pagetable) ⟨hf, hfree⟩ hphys ?_ (fun s hs => ?_) fun g n hg hn hgf => ?_
    · rw [modify_self]
      change k₁.vm.physToVirtHelper (pageAddr f) = _
      rw [Vm.physToVirtHelper, (hs.accounts h hnone).1.active, if_pos rfl]
      rfl
    · exact modify_pointer _ c (fun p s hs => pointer_pagetable p _ hs) c s fun e => hs e.2
    · exact (hword g n hg hn).trans (if_neg hgf)
  | noTable hs hrun ih =>
    rw [giveTable_false hrun]
    refine ⟨fun r f hf => ih.pages r f ⟨hf.1, ?_⟩, ih.free, ih.memory⟩
    by_cases hr : r = .pagetable
    · subst hr
      have hzero := hf.2
      rw [modify_self] at hzero
      exact absurd hzero.symm (handle_ne_zero _ hf.1)
    · exact (modify_pointer _ c (fun p s hs => pointer_pagetable p _ hs) c r
        fun e => hr e.2).symm.trans hf.2

/-- `fork` makes no child, and nobody can tell that it was called: the free pages, the pages that
are not free and their contents, and the entries in use are as before. -/
structure Undone (k k' : Kernel) : Prop where
  result : k.fork.2 = -1
  free : ∀ f, k'.IsFree f ↔ k.IsFree f
  entries : ∀ j, (k.procTable j).state ≠ .unused → k'.procTable j = k.procTable j
  unused : ∀ j, (k.procTable j).state = .unused → (k'.procTable j).state = .unused
  memory : ∀ f n, f < numPages → n < 512 → ¬ k.IsFree f → k'.vm.word f n = k.vm.word f n

/-- **A `fork` that makes no child.** -/
theorem fork_undone (h : Conserved P k) (hcur : k.currentProcess = some p)
    (hcan : ¬ k.CanFork) : Undone k k.fork.1 := by
  have hr : k.Refused := by
    rcases fork_outcome hcur with ⟨hyes, -⟩ | ⟨-, hr⟩
    · exact absurd hyes hcan
    · exact hr
  have hundone := h.forkUndone hr
  have hother : ∀ j, (k.procTable j).state ≠ .unused → k.allocProc.2 ≠ some j := fun j hj hc =>
    hj (hr.slot j hc).1
  refine ⟨hr.result, fun f => ?_, fun j hj => hr.others j (hother j hj), fun j hj => ?_,
    fun f n hf hn hnot => ?_⟩
  · rw [IsFree, IsFree]
    exact and_congr_right fun hf => by rw [hundone.free f hf]
  · by_cases hc : k.allocProc.2 = some j
    · exact hundone.slot j hc
    · rw [hr.others j hc, hj]
  · rcases fork_supplied hcur with ⟨-, -, hend⟩ | ⟨c, rs, k', hfree, -, hs, hend⟩
    · rw [hend]
    · have hnone : ∀ r, (k.procTable c).pointer r = 0 := fun r => (h.full c r).mpr hfree
      have hadopt : Accounts P (k.adopt p c) := by
        refine h.accounts.congr rfl rfl fun j s => ?_
        by_cases hj : j = c
        · rw [hj, adopt_pointer, hnone]
        · rw [adopt_of_ne _ _ hj]
      have hwithin := hs.within hadopt (k.adopt_pointer p c)
      rcases hend with ⟨-, -, hend⟩ | ⟨rfl, hend⟩
      · rw [hend, Vm.word, freeProc_mem]
        exact hwithin.memory f n hf hn hnot
      · -- with all three pages there would have been a child
        have hnum := hs.numFree
        exact absurd ⟨⟨c, hfree⟩, by
          have hphys : (k.adopt p c).vm.phys = k.vm.phys := rfl
          rw [hphys] at hnum
          simp only [List.length_cons, List.length_nil] at hnum
          omega⟩ hcan

end Kernel

/-! ## 5. Whole runs -/

namespace ForkState

open Kernel

/-- What `fork` does in a state: the exact copy, or nothing. -/
def ForkExact (s : ForkState) : Prop :=
  ∀ p, s.caller = some p →
    (s.kernel.CanFork ∧ ∃ c stack frame table old, s.kernel.fork.2 = s.kernel.nextPid ∧
      Cloned s.kernel s.kernel.fork.1 p c stack frame table old) ∨
    (¬ s.kernel.CanFork ∧ Undone s.kernel s.kernel.fork.1)

/-- **`fork` is exact** in every state of every run of `fork`, `exit`, `wait`, `sleep`, `wakeup` and
the scheduler, after `kernel_main` has started the first process: it makes a child exactly when
there are an entry and three pages, the child has the registers of its parent and an empty address
space, and no byte of anybody else's memory changes; and when there are not, nothing changes. -/
theorem fork_exact (kend : Word) (mem : Word → Word) (ops : List ForkOp)
    (hinit : (init (memoryTested kend mem)).kernel.currentProcess ≠ none) :
    Transition.Always step ForkExact (init (memoryTested kend mem)) ops := by
  have h₀ := conserved_init hinit
  refine (Transition.always_of_inv (fun _ _ _ h hs => conserved_step h hs) ops _ h₀).mono
    fun s h p hp => ?_
  have hcur := (caller_eq_some hp).1
  by_cases hcan : s.kernel.CanFork
  · obtain ⟨c, stack, frame, table, old, -, hcloned⟩ :=
      fork_cloned h hcur (used_of_caller hp p hcur) hcan
    rcases fork_outcome hcur with ⟨-, c', hc'⟩ | ⟨hno, -⟩
    · exact Or.inl ⟨hcan, c, stack, frame, table, old, hc'.result, hcloned⟩
    · exact absurd hcan hno
  · exact Or.inr ⟨hcan, fork_undone h hcur hcan⟩

theorem fork_exact_boot : Transition.Always step ForkExact
    (init (memoryTested 0x80020000 fun _ => 0))
    [.fork, .dispatch 1, .exit 0, .dispatch 0, .wait 0x8001FFF0, .fork] :=
  fork_exact _ _ _ (init_boot_ne_none _)

end ForkState

end Lithium
