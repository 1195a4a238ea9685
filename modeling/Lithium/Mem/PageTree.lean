/-
# The tree behind a page table

The tables of a page table form a tree: a node is the list of the indices on the way to it from
the root, the last one first, and a `TableTree` gives the page of each node that exists.
`Vm.Repr` is the invariant that ties such a tree to memory; sections 3 to 5 say what one level of
`walk`, `walk` and `map_page` do to it, and section 6 reads `walk_page_table` off the tree.
-/
import Lithium.Mem.PageTable

namespace Lithium

/-! ## 1. The invariant -/

/-- A table, by the indices on the way to it from the root, the last one first. -/
abbrev TableNode := List Nat

/-- The pages of the tables that exist. -/
abbrev TableTree := TableNode → Option Nat

/-- The level-0 table of an address. -/
def leafNode (va : Word) : TableNode := [(vpn1 va).toNat, (vpn2 va).toNat]

/-- The tables `walk` may allocate. -/
def pathTo (va : Word) : List TableNode := [[(vpn2 va).toNat], leafNode va]

namespace Vm

/-- The tables in memory are those of the tree. -/
structure Repr (vm : Vm) (t : TableTree) : Prop where
  owned : ∀ n f, t n = some f → f < numPages ∧ vm.phys.isPageFree f = false
  inj : ∀ n n' f, t n = some f → t n' = some f → n = n'
  closed : ∀ k n, t n = none → t (k :: n) = none
  linked : ∀ n f k c, t n = some f → n.length < 2 → k < 512 → t (k :: n) = some c →
    vm.word f k = makePte (pageAddr c) pteV
  absent : ∀ n f k, t n = some f → n.length < 2 → k < 512 → t (k :: n) = none →
    vm.word f k &&& pteV = 0

/-- The level-0 entry of an address. -/
def leaf (vm : Vm) (t : TableTree) (va : Word) : Word :=
  match t (leafNode va) with
  | some f => vm.word f (vpn0 va).toNat
  | none => 0

/-- The invariant, and what it gives, are about the pages of the tree alone. -/
theorem Repr.congr {vm vm' : Vm} {t : TableTree} (h : vm.Repr t)
    (hfree : ∀ n f, t n = some f → vm'.phys.isPageFree f = false)
    (hword : ∀ n f k, t n = some f → k < 512 → vm'.word f k = vm.word f k) : vm'.Repr t where
  owned n f hf := ⟨(h.owned n f hf).1, hfree n f hf⟩
  inj := h.inj
  closed := h.closed
  linked n f k c hf hn hk hc := by rw [hword n f k hf hk]; exact h.linked n f k c hf hn hk hc
  absent n f k hf hn hk hc := by rw [hword n f k hf hk]; exact h.absent n f k hf hn hk hc

theorem leaf_congr {vm vm' : Vm} {t : TableTree}
    (hword : ∀ n f k, t n = some f → k < 512 → vm'.word f k = vm.word f k) (va : Word) :
    vm'.leaf t va = vm.leaf t va := by
  unfold leaf
  split
  case h_1 f hf => exact hword _ f _ hf (vpn0_lt va)
  case h_2 => rfl

/-- `vm'` comes from `vm` by taking free pages, and by stores to them. -/
structure Keeps (vm vm' : Vm) : Prop where
  regs : vm.SameRegs vm'
  taken : ∀ f, vm.phys.isPageFree f = false → vm'.phys.isPageFree f = false
  word : ∀ f k, f < numPages → k < 512 → vm.phys.isPageFree f = false →
    vm'.word f k = vm.word f k

theorem Keeps.refl (vm : Vm) : Keeps vm vm :=
  ⟨SameRegs.refl vm, fun _ h => h, fun _ _ _ _ _ => rfl⟩

theorem Keeps.trans {vm vm' vm'' : Vm} (h : Keeps vm vm') (h' : Keeps vm' vm'') :
    Keeps vm vm'' where
  regs := h.regs.trans h'.regs
  taken f hf := h'.taken f (h.taken f hf)
  word f k hf hk hfree := (h'.word f k hf hk (h.taken f hfree)).trans (h.word f k hf hk hfree)

/-- A free page `g` is taken, and written. -/
theorem Keeps.take {vm vm' : Vm} {g : Nat} (hphys : vm'.phys = vm.phys.markPageAllocated g)
    (hfree : vm.phys.isPageFree g = true) (hregs : vm.SameRegs vm')
    (hword : ∀ f k, f < numPages → k < 512 → f ≠ g → vm'.word f k = vm.word f k) :
    Keeps vm vm' where
  regs := hregs
  taken f hf := by rw [hphys, Physmem.isPageFree_markPageAllocated, hf, Bool.false_and]
  word f k hf hk htaken := by
    refine hword f k hf hk ?_
    rintro rfl
    rw [hfree] at htaken
    exact absurd htaken (by simp)

/-- The tables of a tree are kept. -/
theorem Repr.keeps {vm vm' : Vm} {t : TableTree} (h : vm.Repr t) (hk : Keeps vm vm') :
    vm'.Repr t ∧ ∀ va, vm'.leaf t va = vm.leaf t va := by
  have hword : ∀ n f k, t n = some f → k < 512 → vm'.word f k = vm.word f k := by
    intro n f k hf hlt
    exact hk.word f k (h.owned n f hf).1 hlt (h.owned n f hf).2
  exact ⟨h.congr (fun n f hf => hk.taken f (h.owned n f hf).2) hword, leaf_congr hword⟩

/-! ## 2. Growing a tree -/

/-- `vm'` and `t'` come from `vm` and `t` by allocating tables on the way to `va`, and by stores
to tables. -/
structure Extends (vm : Vm) (t : TableTree) (vm' : Vm) (t' : TableTree) (va : Word) : Prop where
  repr : vm'.Repr t'
  regs : vm.SameRegs vm'
  mono : ∀ n f, t n = some f → t' n = some f
  fresh : ∀ n f, t n = none → t' n = some f → n ∈ pathTo va ∧ vm.phys.isPageFree f = true
  taken : ∀ f, vm.phys.isPageFree f = false → vm'.phys.isPageFree f = false
  used : ∀ f, vm.phys.isPageFree f = true → vm'.phys.isPageFree f = false → ∃ n, t' n = some f
  outside : ∀ f k, f < numPages → k < 512 → vm.phys.isPageFree f = false →
    (∀ n, t n ≠ some f) → vm'.word f k = vm.word f k
  room : ∀ l : List TableNode, l.Nodup → (∀ n ∈ pathTo va, n ∈ l) →
    vm'.phys.numFree + l.countP (fun n => (t' n).isSome)
      = vm.phys.numFree + l.countP (fun n => (t n).isSome)

theorem Extends.refl {vm : Vm} {t : TableTree} (h : vm.Repr t) (va : Word) :
    Extends vm t vm t va where
  repr := h
  regs := SameRegs.refl vm
  mono _ _ hf := hf
  fresh n f hn hf := absurd hf (by rw [hn]; simp)
  taken _ hf := hf
  used f hf hf' := absurd hf (by rw [hf']; simp)
  outside _ _ _ _ _ _ := rfl
  room _ _ _ := rfl

theorem Extends.trans {vm vm' vm'' : Vm} {t t' t'' : TableTree} {va : Word}
    (h : Extends vm t vm' t' va) (h' : Extends vm' t' vm'' t'' va) :
    Extends vm t vm'' t'' va where
  repr := h'.repr
  regs := h.regs.trans h'.regs
  mono n f hf := h'.mono n f (h.mono n f hf)
  fresh := by
    intro n f hn hf
    cases hn' : t' n with
    | none =>
      obtain ⟨hpath, hfree⟩ := h'.fresh n f hn' hf
      refine ⟨hpath, ?_⟩
      by_contra hcon
      rw [h.taken f (by simpa using hcon)] at hfree
      exact absurd hfree (by simp)
    | some g =>
      have hg := h'.mono n g hn'
      rw [hf, Option.some.injEq] at hg
      subst hg
      exact h.fresh n f hn hn'
  taken f hf := h'.taken f (h.taken f hf)
  used := by
    intro f hf hf''
    cases hf' : vm'.phys.isPageFree f with
    | true => exact h'.used f hf' hf''
    | false =>
      obtain ⟨n, hn⟩ := h.used f hf hf'
      exact ⟨n, h'.mono n f hn⟩
  outside := by
    intro f k hf hk hfree hout
    rw [h'.outside f k hf hk (h.taken f hfree), h.outside f k hf hk hfree hout]
    intro n hn
    cases hn' : t n with
    | none =>
      rw [(h.fresh n f hn' hn).2] at hfree
      exact absurd hfree (by simp)
    | some g =>
      have hg := h.mono n g hn'
      rw [hn, Option.some.injEq] at hg
      exact hout n (hg ▸ hn')
  room l hl hpath := (h'.room l hl hpath).trans (h.room l hl hpath)

/-! ## 3. One level of `walk` -/

/-- `vm'` is `vm` with the free page `c` made the child `k` of the table in page `f`. -/
structure Grown (vm : Vm) (f k c : Nat) (vm' : Vm) : Prop where
  lt : c < numPages
  free : vm.phys.isPageFree c = true
  phys : vm'.phys = vm.phys.markPageAllocated c
  regs : vm.SameRegs vm'
  word : ∀ f' k', f' < numPages → k' < 512 → vm'.word f' k' =
    if f' = c then 0 else if f' = f ∧ k' = k then makePte (pageAddr c) pteV else vm.word f' k'

/-- **One level of `walk`**: the child is there, or it cannot be made, or it was made. -/
theorem nextTable_cases {vm : Vm} {t : TableTree} {n : TableNode} {f k : Nat} {pte : Word}
    (h : vm.Repr t) (hf : t n = some f) (hn : n.length < 2) (hk : k < 512)
    (hp : resolve pte = wordAddr f k) (alloc : Bool) :
    (∃ c, t (k :: n) = some c ∧
      vm.nextTable pte alloc = (vm, some (vm.physToVirtHelper (pageAddr c)))) ∨
    (t (k :: n) = none ∧ vm.nextTable pte alloc = (vm, none) ∧
      (alloc = true → vm.phys.numFree = 0)) ∨
    (t (k :: n) = none ∧ alloc = true ∧ ∃ vm' c, Grown vm f k c vm' ∧
      vm.nextTable pte alloc = (vm', some (vm.physToVirtHelper (pageAddr c)))) := by
  obtain ⟨hflt, hftaken⟩ := h.owned n f hf
  have hload : vm.load pte = vm.word f k := by rw [load, hp]; rfl
  cases hc : t (k :: n) with
  | some c =>
    have hclt := (h.owned _ c hc).1
    refine Or.inl ⟨c, rfl, ?_⟩
    have hword := h.linked n f k c hf hn hk hc
    rw [nextTable, hload, hword, if_neg (table_valid _), pteAddr_table hclt]
  | none =>
    have hword := h.absent n f k hf hn hk hc
    refine Or.inr ?_
    cases alloc with
    | false =>
      refine Or.inl ⟨rfl, ?_, by simp⟩
      rw [nextTable, hload, if_pos hword]
      rfl
    | true =>
      rcases vm.phys.allocPage_cases with ⟨halloc, hzero⟩ | ⟨c, hclt, hcfree, halloc⟩
      · refine Or.inl ⟨rfl, ?_, fun _ => hzero⟩
        rw [nextTable, hload, if_pos hword, halloc]
        rfl
      · have hfc : f ≠ c := by
          rintro rfl
          rw [hcfree] at hftaken
          exact absurd hftaken (by simp)
        -- the page, the entry, the zeros
        set vm₁ : Vm := { vm with phys := vm.phys.markPageAllocated c } with hvm₁
        set vm₂ := vm₁.store pte (makePte (pageAddr c) pteV) with hvm₂
        have hd : Designates (vm₂.physToVirtHelper (pageAddr c)) c := vm₂.designates_helper hclt
        obtain ⟨hphys, hregs, hzeros⟩ := vm₂.zeroTable_spec hd hclt
        set vm₃ := vm₂.zeroTable (vm₂.physToVirtHelper (pageAddr c)) with hvm₃
        have hregs' : vm.SameRegs vm₃ :=
          ⟨hregs.kernelPagetable, hregs.pagingActive, hregs.satp⟩
        have hwords : ∀ f' k', f' < numPages → k' < 512 → vm₃.word f' k' =
            if f' = c then 0
            else if f' = f ∧ k' = k then makePte (pageAddr c) pteV else vm.word f' k' := by
          intro f' k' hf' hk'
          rw [hzeros f' k' hf' hk', word_store hp hflt hk _ hf' hk']
          rfl
        refine Or.inr ⟨rfl, rfl, vm₃, c, ⟨hclt, hcfree, hphys, hregs', hwords⟩, ?_⟩
        have hload₃ : vm₃.load pte = makePte (pageAddr c) pteV := by
          have hw : vm₃.load pte = vm₃.word f k := by rw [load, hp]; rfl
          rw [hw, hwords f k hflt hk, if_neg hfc, if_pos ⟨rfl, rfl⟩]
        have hhelper : vm₃.physToVirtHelper (pageAddr c) = vm.physToVirtHelper (pageAddr c) := by
          rw [physToVirtHelper, hregs'.pagingActive]
          rfl
        have hne := pageAddr_ne_zero hclt
        rw [nextTable, hload, if_pos hword, halloc]
        change (if pageAddr c = 0 then (vm₁, none)
          else (vm₃, some (vm₃.physToVirtHelper (pteAddr (vm₃.load pte))))) = _
        rw [if_neg hne, hload₃, pteAddr_table hclt, hhelper]

/-- A page of the tree is not the new one. -/
theorem Grown.ne {vm vm' : Vm} {t : TableTree} {f k c : Nat} (hg : Grown vm f k c vm')
    (h : vm.Repr t) {m : TableNode} {g : Nat} (hm : t m = some g) : g ≠ c := by
  rintro rfl
  have htaken := (h.owned m g hm).2
  rw [hg.free] at htaken
  exact absurd htaken (by simp)

/-- A new table keeps the invariant. -/
theorem Grown.repr {vm vm' : Vm} {t : TableTree} {n : TableNode} {f k c : Nat}
    (hg : Grown vm f k c vm') (h : vm.Repr t) (hf : t n = some f) (hc : t (k :: n) = none) :
    vm'.Repr (Function.update t (k :: n) (some c)) := by
  have hup : ∀ m g, Function.update t (k :: n) (some c) m = some g →
      (m = k :: n ∧ g = c) ∨ (m ≠ k :: n ∧ t m = some g) := by
    intro m g hm
    by_cases hmn : m = k :: n
    · subst hmn
      rw [Function.update_self, Option.some.injEq] at hm
      exact Or.inl ⟨rfl, hm.symm⟩
    · rw [Function.update_of_ne hmn] at hm
      exact Or.inr ⟨hmn, hm⟩
  have hnone : ∀ j, t (j :: k :: n) = none := fun j => h.closed j _ hc
  have hchild : ∀ j, Function.update t (k :: n) (some c) (j :: k :: n) = none := by
    intro j
    rw [Function.update_of_ne, hnone]
    intro e
    have := congrArg List.length e
    simp at this
  refine ⟨?_, ?_, ?_, ?_, ?_⟩
  · intro m g hm
    rw [hg.phys, Physmem.isPageFree_markPageAllocated]
    rcases hup m g hm with ⟨-, rfl⟩ | ⟨-, hm'⟩
    · exact ⟨hg.lt, by simp⟩
    · rw [(h.owned m g hm').2]
      exact ⟨(h.owned m g hm').1, rfl⟩
  · intro m m' g hm hm'
    rcases hup m g hm with ⟨rfl, rfl⟩ | ⟨-, h₁⟩ <;> rcases hup m' g hm' with ⟨rfl, h₂⟩ | ⟨-, h₂⟩
    · rfl
    · exact absurd rfl (hg.ne h h₂)
    · exact absurd h₂ (hg.ne h h₁)
    · exact h.inj m m' g h₁ h₂
  · intro j m hm
    have hmn : m ≠ k :: n := by
      rintro rfl
      rw [Function.update_self] at hm
      exact absurd hm (by simp)
    rw [Function.update_of_ne hmn] at hm
    rw [Function.update_of_ne]
    · exact h.closed j m hm
    · intro e
      rw [List.cons.injEq] at e
      rw [e.2, hf] at hm
      exact absurd hm (by simp)
  · intro m g j d hm hlen hj hd
    rcases hup m g hm with ⟨rfl, -⟩ | ⟨-, hm'⟩
    · rw [hchild] at hd
      exact absurd hd (by simp)
    · rw [hg.word g j (h.owned m g hm').1 hj, if_neg (hg.ne h hm')]
      rcases hup _ d hd with ⟨e, rfl⟩ | ⟨hne, hd'⟩
      · rw [List.cons.injEq] at e
        rw [if_pos]
        rw [e.2, hf, Option.some.injEq] at hm'
        exact ⟨hm'.symm, e.1⟩
      · rw [if_neg]
        · exact h.linked m g j d hm' hlen hj hd'
        · rintro ⟨rfl, rfl⟩
          exact hne (by rw [h.inj m n g hm' hf])
  · intro m g j hm hlen hj hd
    rcases hup m g hm with ⟨rfl, rfl⟩ | ⟨-, hm'⟩
    · rw [hg.word g j hg.lt hj, if_pos rfl]
      exact BitVec.zero_and
    · have hne : ¬ (g = f ∧ j = k) := by
        rintro ⟨rfl, rfl⟩
        rw [h.inj m n g hm' hf, Function.update_self] at hd
        exact absurd hd (by simp)
      rw [hg.word g j (h.owned m g hm').1 hj, if_neg (hg.ne h hm'), if_neg hne]
      refine h.absent m g j hm' hlen hj ?_
      rwa [Function.update_of_ne] at hd
      intro e
      rw [List.cons.injEq] at e
      rw [e.2, hf, Option.some.injEq] at hm'
      exact hne ⟨hm'.symm, e.1⟩

/-- Making one element satisfy a predicate. -/
theorem countP_update {l : List TableNode} (hl : l.Nodup) {n : TableNode} (hn : n ∈ l)
    {t : TableTree} (ht : t n = none) (c : Nat) :
    l.countP (fun m => (Function.update t n (some c) m).isSome)
      = l.countP (fun m => (t m).isSome) + 1 := by
  have hperm := List.perm_cons_erase hn
  have hsame : (l.erase n).countP (fun m => (Function.update t n (some c) m).isSome)
      = (l.erase n).countP (fun m => (t m).isSome) := by
    refine List.countP_congr ?_
    intro m hm
    have hne : m ≠ n := fun e => hl.not_mem_erase (e ▸ hm)
    rw [Function.update_of_ne hne]
  rw [hperm.countP_eq, hperm.countP_eq, List.countP_cons, List.countP_cons, hsame, ht,
    Function.update_self]
  simp

/-- The tables that were there stay. -/
theorem update_of_absent {t : TableTree} {n m : TableNode} {g : Nat} (c : Nat)
    (hn : t n = none) (hm : t m = some g) : Function.update t n (some c) m = some g := by
  rw [Function.update_of_ne, hm]
  rintro rfl
  rw [hn] at hm
  exact absurd hm (by simp)

/-- No entry of level 0 changes with a new table; those of a new table are zero. -/
theorem Grown.leaf {vm vm' : Vm} {t : TableTree} {n : TableNode} {f k c : Nat}
    (hg : Grown vm f k c vm') (h : vm.Repr t) (hf : t n = some f) (hc : t (k :: n) = none)
    (hn : n.length < 2) (va : Word) :
    vm'.leaf (Function.update t (k :: n) (some c)) va = vm.leaf t va := by
  unfold Vm.leaf
  cases ht : t (leafNode va) with
  | some g =>
    have hgf : ¬ (g = f ∧ (vpn0 va).toNat = k) := by
      rintro ⟨rfl, -⟩
      rw [← h.inj _ n g ht hf] at hn
      simp [leafNode] at hn
    rw [update_of_absent c hc ht]
    change vm'.word g _ = vm.word g _
    rw [hg.word g _ (h.owned _ g ht).1 (vpn0_lt va), if_neg (hg.ne h ht), if_neg hgf]
  | none =>
    by_cases hmn : leafNode va = k :: n
    · rw [hmn, Function.update_self]
      change vm'.word c _ = 0
      rw [hg.word c _ hg.lt (vpn0_lt va), if_pos rfl]
    · rw [Function.update_of_ne hmn, ht]

/-- A new table on the way to `va` extends the tree. -/
theorem Grown.extends {vm vm' : Vm} {t : TableTree} {n : TableNode} {f k c : Nat} (va : Word)
    (hg : Grown vm f k c vm') (h : vm.Repr t) (hf : t n = some f) (hc : t (k :: n) = none)
    (hpath : k :: n ∈ pathTo va) :
    Extends vm t vm' (Function.update t (k :: n) (some c)) va := by
  refine ⟨hg.repr h hf hc, hg.regs, fun _ _ hm => update_of_absent c hc hm, ?_, ?_, ?_, ?_, ?_⟩
  · intro m g hm hm'
    by_cases hmn : m = k :: n
    · rw [hmn, Function.update_self, Option.some.injEq] at hm'
      rw [hmn, ← hm']
      exact ⟨hpath, hg.free⟩
    · rw [Function.update_of_ne hmn, hm] at hm'
      exact absurd hm' (by simp)
  · intro g hfree
    rw [hg.phys, Physmem.isPageFree_markPageAllocated, hfree]
    rfl
  · intro g hfree htaken
    rw [hg.phys, Physmem.isPageFree_markPageAllocated, hfree, Bool.true_and,
      decide_eq_false_iff_not, not_not] at htaken
    exact ⟨k :: n, by rw [Function.update_self, htaken]⟩
  · intro g j hglt hj hfree hout
    have hgc : g ≠ c := by
      rintro rfl
      rw [hg.free] at hfree
      exact absurd hfree (by simp)
    have hgf : ¬ (g = f ∧ j = k) := by
      rintro ⟨rfl, -⟩
      exact hout n hf
    rw [hg.word g j hglt hj, if_neg hgc, if_neg hgf]
  · intro l hl hsub
    have hfree := Physmem.numFree_markPageAllocated hg.lt hg.free
    rw [countP_update hl (hsub _ hpath) hc, hg.phys]
    omega

/-! ## 4. `walk` -/

theorem entryPtr_vpn (p : Word) (x : Word) :
    entryPtr p (x &&& 0x1FF) = entryPtr p (BitVec.ofNat 64 (x &&& 0x1FF).toNat) := by
  rw [BitVec.ofNat_toNat, BitVec.setWidth_eq]

/-- **`walk`**, from the root of a tree: it extends the tree on the way to `va`, and returns a
pointer to the level-0 entry of `va`, or fails for want of a table. -/
theorem walk_spec {vm : Vm} {t : TableTree} {root : Word} {r : Nat} (h : vm.Repr t)
    (hr : t [] = some r) (hd : Designates root r) (va : Word) (alloc : Bool) :
    ∃ vm' t' res, vm.walk root va alloc = (vm', res) ∧ Extends vm t vm' t' va ∧
      (∀ va', vm'.leaf t' va' = vm.leaf t va') ∧ (alloc = false → vm' = vm ∧ t' = t) ∧
      ((res = none ∧ t' (leafNode va) = none ∧ (alloc = true → vm'.phys.numFree = 0)) ∨
        ∃ p c, res = some p ∧ t' (leafNode va) = some c ∧
          resolve p = wordAddr c (vpn0 va).toNat) := by
  have hk₂ := vpn2_lt va
  have hk₁ := vpn1_lt va
  have hp₂ : resolve (entryPtr root (vpn2 va)) = wordAddr r (vpn2 va).toNat := by
    rw [vpn2, entryPtr_vpn]
    exact hd _ hk₂
  -- the pointer the last level returns
  have hlast : ∀ {vm' : Vm} {c : Nat}, c < numPages → resolve
      (entryPtr (vm'.physToVirtHelper (pageAddr c)) (vpn0 va)) = wordAddr c (vpn0 va).toNat := by
    intro vm' c hc
    rw [vpn0, entryPtr_vpn]
    exact vm'.designates_helper hc _ (vpn0_lt va)
  -- the second level, once the first one has been passed
  have hsecond : ∀ {vm' : Vm} {t' : TableTree} {c : Nat} {level1 : Word}, vm'.Repr t' →
      t' [(vpn2 va).toNat] = some c → level1 = vm'.physToVirtHelper (pageAddr c) →
      ∃ vm'' t'' next, vm'.nextTable (entryPtr level1 (vpn1 va)) alloc = (vm'', next) ∧
        Extends vm' t' vm'' t'' va ∧ (∀ va', vm''.leaf t'' va' = vm'.leaf t' va') ∧
        (alloc = false → vm'' = vm' ∧ t'' = t') ∧
        ((next = none ∧ t'' (leafNode va) = none ∧ (alloc = true → vm''.phys.numFree = 0)) ∨
          ∃ level0 c, next = some level0 ∧ t'' (leafNode va) = some c ∧
            resolve (entryPtr level0 (vpn0 va)) = wordAddr c (vpn0 va).toNat) := by
    intro vm' t' c level1 h' hc hlevel
    have hp₁ : resolve (entryPtr level1 (vpn1 va)) = wordAddr c (vpn1 va).toNat := by
      rw [vpn1, entryPtr_vpn, hlevel]
      exact vm'.designates_helper (h'.owned _ c hc).1 _ hk₁
    rcases nextTable_cases h' hc (by simp) hk₁ hp₁ alloc with
      ⟨d, hd', hrun⟩ | ⟨hd', hrun, hzero⟩ | ⟨hd', halloc, vm'', d, hg, hrun⟩
    · exact ⟨vm', t', _, hrun, Extends.refl h' va, fun _ => rfl, fun _ => ⟨rfl, rfl⟩,
        Or.inr ⟨_, d, rfl, hd', hlast (h'.owned _ d hd').1⟩⟩
    · exact ⟨vm', t', none, hrun, Extends.refl h' va, fun _ => rfl,
        fun _ => ⟨rfl, rfl⟩, Or.inl ⟨rfl, hd', hzero⟩⟩
    · have hext := hg.extends va h' hc hd' (by simp [pathTo, leafNode])
      exact ⟨vm'', _, _, hrun, hext, hg.leaf h' hc hd' (by simp), by simp [halloc],
        Or.inr ⟨_, d, rfl, Function.update_self _ _ _, hlast hg.lt⟩⟩
  -- both levels, and the pointer
  have hwalk : ∀ {vm' vm'' : Vm} {level1 : Word} {next : Option Word},
      vm.nextTable (entryPtr root (vpn2 va)) alloc = (vm', some level1) →
      vm'.nextTable (entryPtr level1 (vpn1 va)) alloc = (vm'', next) →
      vm.walk root va alloc = (vm'', next.map fun level0 => entryPtr level0 (vpn0 va)) := by
    intro vm' vm'' level1 next hrun hrun'
    simp only [walk, hrun, hrun']
    cases next <;> rfl
  rcases nextTable_cases h hr (by simp) hk₂ hp₂ alloc with
    ⟨c, hc, hrun⟩ | ⟨hc, hrun, hzero⟩ | ⟨hc, halloc, vm', c, hg, hrun⟩
  · obtain ⟨vm'', t'', next, hrun', hext, hleaf, hsame, hres⟩ := hsecond h hc rfl
    refine ⟨vm'', t'', _, hwalk hrun hrun', hext, hleaf, hsame, ?_⟩
    rcases hres with ⟨rfl, hrest⟩ | ⟨level0, d, rfl, hrest⟩
    · exact Or.inl ⟨rfl, hrest⟩
    · exact Or.inr ⟨_, d, rfl, hrest⟩
  · refine ⟨vm, t, none, by rw [walk, hrun], Extends.refl h va, fun _ => rfl,
      fun _ => ⟨rfl, rfl⟩, Or.inl ⟨rfl, h.closed _ _ hc, hzero⟩⟩
  · have hext := hg.extends va h hr hc (by simp [pathTo])
    have hhelper : vm.physToVirtHelper (pageAddr c) = vm'.physToVirtHelper (pageAddr c) := by
      rw [physToVirtHelper, physToVirtHelper, hg.regs.pagingActive]
    obtain ⟨vm'', t'', next, hrun', hext', hleaf', -, hres⟩ :=
      hsecond hext.repr (Function.update_self _ _ _) hhelper
    refine ⟨vm'', t'', _, hwalk hrun hrun', hext.trans hext', ?_, by simp [halloc], ?_⟩
    · exact fun va' => (hleaf' va').trans (hg.leaf h hr hc (by simp) va')
    · rcases hres with ⟨rfl, hrest⟩ | ⟨level0, d, rfl, hrest⟩
      · exact Or.inl ⟨rfl, hrest⟩
      · exact Or.inr ⟨_, d, rfl, hrest⟩

/-! ## 5. `map_page` -/

/-- A store to an entry of level 0. -/
theorem storeLeaf {vm : Vm} {t : TableTree} {va p : Word} {c : Nat} (h : vm.Repr t)
    (hc : t (leafNode va) = some c) (hp : resolve p = wordAddr c (vpn0 va).toNat) (v : Word) :
    Extends vm t (vm.store p v) t va ∧ ∀ va', (vm.store p v).leaf t va' =
      if leafNode va' = leafNode va ∧ vpn0 va' = vpn0 va then v else vm.leaf t va' := by
  have hclt := (h.owned _ c hc).1
  have hword : ∀ f k, f < numPages → k < 512 → (vm.store p v).word f k
      = if f = c ∧ k = (vpn0 va).toNat then v else vm.word f k :=
    fun f k hf hk => word_store hp hclt (vpn0_lt va) v hf hk
  have hinner : ∀ n f, t n = some f → n.length < 2 → f ≠ c := by
    rintro n f hn hlen rfl
    rw [h.inj n _ f hn hc] at hlen
    simp [leafNode] at hlen
  refine ⟨⟨⟨h.owned, h.inj, h.closed, ?_, ?_⟩, ⟨rfl, rfl, rfl⟩, fun _ _ hf => hf, ?_,
    fun _ hf => hf, ?_, ?_, fun _ _ _ => rfl⟩, ?_⟩
  · intro n f k d hf hlen hk hd
    rw [hword f k (h.owned n f hf).1 hk, if_neg (fun e => hinner n f hf hlen e.1)]
    exact h.linked n f k d hf hlen hk hd
  · intro n f k hf hlen hk hd
    rw [hword f k (h.owned n f hf).1 hk, if_neg (fun e => hinner n f hf hlen e.1)]
    exact h.absent n f k hf hlen hk hd
  · intro n f hn hf
    exact absurd hf (by rw [hn]; simp)
  · intro f hf hf'
    exact absurd (hf.symm.trans hf') (by simp)
  · intro f k hf hk _ hout
    rw [hword f k hf hk, if_neg]
    rintro ⟨rfl, -⟩
    exact hout _ hc
  · intro va'
    unfold leaf
    cases ht : t (leafNode va') with
    | none =>
      rw [if_neg]
      rintro ⟨e, -⟩
      rw [e, hc] at ht
      exact absurd ht (by simp)
    | some f =>
      change (vm.store p v).word f _ = if _ then v else vm.word f _
      rw [hword f _ (h.owned _ f ht).1 (vpn0_lt va')]
      refine if_congr ?_ rfl rfl
      constructor
      · rintro ⟨rfl, e⟩
        exact ⟨h.inj _ _ f ht hc, BitVec.eq_of_toNat_eq e⟩
      · rintro ⟨e, e'⟩
        rw [e, hc, Option.some.injEq] at ht
        exact ⟨ht.symm, congrArg BitVec.toNat e'⟩

theorem load_leaf {vm : Vm} {t : TableTree} {va p : Word} {c : Nat} (hc : t (leafNode va) = some c)
    (hp : resolve p = wordAddr c (vpn0 va).toNat) : vm.load p = vm.leaf t va := by
  rw [load, hp, leaf, hc]
  rfl

/-- **`map_page`** writes the entry of `va` if it was not valid, and fails otherwise; it fails
too when a table is missing and no page is free. -/
theorem mapPage_spec {vm : Vm} {t : TableTree} {root : Word} {r : Nat} (h : vm.Repr t)
    (hr : t [] = some r) (hd : Designates root r) (va pa flags : Word) :
    ∃ vm' t' ok, vm.mapPage root va pa flags = (vm', ok) ∧ Extends vm t vm' t' va ∧
      ((ok = true ∧ vm.leaf t va &&& pteV = 0 ∧ ∀ va', vm'.leaf t' va' =
          if leafNode va' = leafNode va ∧ vpn0 va' = vpn0 va then makePte pa (flags ||| pteV)
          else vm.leaf t va') ∨
        (ok = false ∧ (vm.leaf t va &&& pteV ≠ 0 ∨ vm'.phys.numFree = 0) ∧
          ∀ va', vm'.leaf t' va' = vm.leaf t va')) := by
  obtain ⟨vm', t', res, hrun, hext, hleaf, -, hres⟩ := walk_spec h hr hd va true
  rcases hres with ⟨rfl, -, hzero⟩ | ⟨p, c, rfl, hc, hp⟩
  · exact ⟨vm', t', false, by rw [mapPage, hrun], hext, Or.inr ⟨rfl, Or.inr (hzero rfl), hleaf⟩⟩
  · have hload : vm'.load p = vm.leaf t va := (load_leaf hc hp).trans (hleaf va)
    by_cases hv : vm.leaf t va &&& pteV = 0
    · obtain ⟨hext', hleaf'⟩ := storeLeaf hext.repr hc hp (makePte pa (flags ||| pteV))
      refine ⟨vm'.store p (makePte pa (flags ||| pteV)), t', true, ?_, hext.trans hext',
        Or.inl ⟨rfl, hv, ?_⟩⟩
      · rw [mapPage, hrun]
        change (if vm'.load p &&& pteV ≠ 0 then _ else _) = _
        rw [hload, if_neg (not_not_intro hv)]
      · intro va'
        rw [hleaf', hleaf]
    · refine ⟨vm', t', false, ?_, hext, Or.inr ⟨rfl, Or.inl hv, hleaf⟩⟩
      rw [mapPage, hrun]
      change (if vm'.load p &&& pteV ≠ 0 then _ else _) = _
      rw [hload, if_pos hv]

/-- **`unmap_page`** clears the entry of `va` if it was valid, and does nothing otherwise. -/
theorem unmapPage_spec {vm : Vm} {t : TableTree} {root : Word} {r : Nat} (h : vm.Repr t)
    (hr : t [] = some r) (hd : Designates root r) (va : Word) :
    Extends vm t (vm.unmapPage root va) t va ∧ ∀ va', (vm.unmapPage root va).leaf t va' =
      if (leafNode va' = leafNode va ∧ vpn0 va' = vpn0 va) ∧ vm.leaf t va &&& pteV ≠ 0 then 0
      else vm.leaf t va' := by
  obtain ⟨vm', t', res, hrun, -, -, hsame, hres⟩ := walk_spec h hr hd va false
  obtain ⟨rfl, rfl⟩ := hsame rfl
  rcases hres with ⟨rfl, hnone, -⟩ | ⟨p, c, rfl, hc, hp⟩
  · have hleaf : vm'.leaf t' va = 0 := by rw [leaf, hnone]
    have hstop : vm'.unmapPage root va = vm' := by rw [unmapPage, hrun]
    rw [hstop, hleaf]
    exact ⟨Extends.refl h va, fun va' => (if_neg fun e => e.2 BitVec.zero_and).symm⟩
  · have hload : vm'.load p = vm'.leaf t' va := load_leaf hc hp
    have hunmap : vm'.unmapPage root va
        = if vm'.leaf t' va &&& pteV ≠ 0 then vm'.store p 0 else vm' := by
      rw [unmapPage, hrun]
      change (if vm'.load p &&& pteV ≠ 0 then _ else _) = _
      rw [hload]
    by_cases hv : vm'.leaf t' va &&& pteV ≠ 0
    · obtain ⟨hext, hleaf⟩ := storeLeaf h hc hp 0
      rw [hunmap, if_pos hv]
      refine ⟨hext, fun va' => ?_⟩
      rw [hleaf]
      exact if_congr (and_iff_left hv).symm rfl rfl
    · rw [hunmap, if_neg hv]
      exact ⟨Extends.refl h va, fun va' => (if_neg fun e => hv e.2).symm⟩

/-! ## 6. `walk_page_table` and `create_page_table` -/

/-- **`walk_page_table`** reads the level-0 entry. -/
theorem walkPageTable_eq {vm : Vm} {t : TableTree} {root : Word} {r : Nat} (h : vm.Repr t)
    (hr : t [] = some r) (hd : Designates root r) (va : Word) :
    vm.walkPageTable root va = if vm.leaf t va &&& pteV ≠ 0
      then pteAddr (vm.leaf t va) + (va &&& (pageSize - 1)) else 0 := by
  obtain ⟨vm', t', res, hrun, -, -, hsame, hres⟩ := walk_spec h hr hd va false
  obtain ⟨rfl, rfl⟩ := hsame rfl
  rcases hres with ⟨rfl, hnone, -⟩ | ⟨p, c, rfl, hc, hp⟩
  · have hleaf : vm'.leaf t' va = 0 := by rw [leaf, hnone]
    rw [walkPageTable, hrun, hleaf, if_neg (by simp)]
  · rw [walkPageTable, hrun, ← load_leaf hc hp]

/-- `walk` finds a valid entry for `va`. -/
def isMapped (vm : Vm) (pagetable va : Word) : Bool :=
  match (vm.walk pagetable va false).2 with
  | none => false
  | some pte => vm.load pte &&& pteV != 0

theorem isMapped_eq {vm : Vm} {t : TableTree} {root : Word} {r : Nat} (h : vm.Repr t)
    (hr : t [] = some r) (hd : Designates root r) (va : Word) :
    vm.isMapped root va = true ↔ vm.leaf t va &&& pteV ≠ 0 := by
  obtain ⟨vm', t', res, hrun, -, -, hsame, hres⟩ := walk_spec h hr hd va false
  obtain ⟨rfl, rfl⟩ := hsame rfl
  rcases hres with ⟨rfl, hnone, -⟩ | ⟨p, c, rfl, hc, hp⟩
  · rw [isMapped, hrun, leaf, hnone]
    simp
  · rw [isMapped, hrun, ← load_leaf hc hp]
    simp

/-- The tree with a root only. -/
def rootOnly (r : Nat) : TableTree := fun n => if n = [] then some r else none

/-- A page of zeros is a table without entries. -/
theorem repr_rootOnly {vm : Vm} {r : Nat} (hr : r < numPages)
    (htaken : vm.phys.isPageFree r = false) (hzero : ∀ k, k < 512 → vm.word r k = 0) :
    vm.Repr (rootOnly r) := by
  have hroot : ∀ n f, rootOnly r n = some f → n = [] ∧ f = r := by
    intro n f hf
    rw [rootOnly] at hf
    split at hf
    · exact ⟨‹n = []›, (Option.some.inj hf).symm⟩
    · exact absurd hf (by simp)
  refine ⟨?_, ?_, ?_, ?_, ?_⟩
  · intro n f hf
    obtain ⟨rfl, rfl⟩ := hroot n f hf
    exact ⟨hr, htaken⟩
  · intro n n' f hf hf'
    rw [(hroot n f hf).1, (hroot n' f hf').1]
  · intro k n _
    exact if_neg (by simp)
  · intro n f k c hf _ _ hc
    exact absurd (hroot _ c hc).1 (by simp)
  · intro n f k hf _ hk _
    obtain ⟨rfl, rfl⟩ := hroot n f hf
    rw [hzero k hk]
    exact BitVec.zero_and

theorem leaf_rootOnly (vm : Vm) (r : Nat) (va : Word) : vm.leaf (rootOnly r) va = 0 := by
  have h : rootOnly r (leafNode va) = none := if_neg (by simp [leafNode])
  rw [leaf, h]

/-- **`create_page_table`** fails when no page is free, and otherwise returns a page of zeros. -/
theorem createPageTable_cases (vm : Vm) :
    (vm.createPageTable = (vm, 0) ∧ vm.phys.numFree = 0) ∨
    ∃ vm' r, vm.createPageTable = (vm', vm.physToVirtHelper (pageAddr r)) ∧ r < numPages ∧
      vm.phys.isPageFree r = true ∧ vm'.phys = vm.phys.markPageAllocated r ∧ vm.SameRegs vm' ∧
      ∀ f k, f < numPages → k < 512 → vm'.word f k = if f = r then 0 else vm.word f k := by
  rcases vm.phys.allocPage_cases with ⟨halloc, hzero⟩ | ⟨r, hr, hfree, halloc⟩
  · refine Or.inl ⟨?_, hzero⟩
    rw [createPageTable, halloc]
    rfl
  · set vm₁ : Vm := { vm with phys := vm.phys.markPageAllocated r } with hvm₁
    have hd : Designates (vm₁.physToVirtHelper (pageAddr r)) r := vm₁.designates_helper hr
    obtain ⟨hphys, hregs, hword⟩ := vm₁.zeroTable_spec hd hr
    refine Or.inr ⟨_, r, ?_, hr, hfree, hphys,
      ⟨hregs.kernelPagetable, hregs.pagingActive, hregs.satp⟩, hword⟩
    rw [createPageTable, halloc]
    change (if pageAddr r = 0 then _ else _) = _
    rw [if_neg (pageAddr_ne_zero hr)]
    rfl

/-- A table that was created is a root without entries. -/
theorem createPageTable_root {vm vm₁ : Vm} {root : Word}
    (hcreate : vm.createPageTable = (vm₁, root)) (hroot : root ≠ 0) :
    ∃ r, root = vm.physToVirtHelper (pageAddr r) ∧ r < numPages ∧ vm.phys.isPageFree r = true ∧
      vm₁.phys = vm.phys.markPageAllocated r ∧ vm.SameRegs vm₁ ∧ vm₁.Repr (rootOnly r) := by
  rcases vm.createPageTable_cases with ⟨hfail, -⟩ | ⟨vm', r, hok, hr, hfree, hphys, hregs, hword⟩
  · rw [hfail, Prod.mk.injEq] at hcreate
    exact absurd hcreate.2.symm hroot
  · rw [hok, Prod.mk.injEq] at hcreate
    obtain ⟨rfl, rfl⟩ := hcreate
    refine ⟨r, rfl, hr, hfree, hphys, hregs, repr_rootOnly hr ?_ ?_⟩
    · rw [hphys, Physmem.isPageFree_markPageAllocated]
      simp
    · intro k hk
      rw [hword r k hr hk, if_pos rfl]

end Vm

end Lithium
