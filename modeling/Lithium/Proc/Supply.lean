/-
# One allocation after the other

`fork` and `proc_init` allocate a kernel stack, a trapframe and a page table, and each of the three
can fail.  `Supplied` follows them from one allocation to the next; `fork_outcome` says when `fork`
makes a child, and what it leaves in the table.
-/
import Lithium.Proc.Children
import Lithium.Proc.Tables

namespace Lithium

namespace Kernel

/-! ## 1. What has been given so far -/

/-- What `fork` does to the entry `alloc_proc` has found, before the allocations. -/
def adopt (k : Kernel) (parent child : ProcRef) : Kernel :=
  (k.claimProc child).modify child fun p => { p with
    parent := some parent
    sz := ((k.claimProc child).procTable parent).sz }

namespace Equipped

variable {c : ProcRef} {k k₁ k₂ : Kernel} {ok : Bool}

theorem giveStack (h : Equipped c k k₁) (hrun : k₁.giveStack c = (k₂, ok)) : Equipped c k k₂ := by
  have hnext := Equipped.stack h
  rwa [hrun] at hnext

theorem giveTrapframe (h : Equipped c k k₁) (hrun : k₁.giveTrapframe c = (k₂, ok)) :
    Equipped c k k₂ := by
  have hnext := Equipped.frame h
  rwa [hrun] at hnext

theorem giveTable (h : Equipped c k k₁) (hrun : k₁.giveTable c = (k₂, ok)) : Equipped c k k₂ := by
  have hnext := Equipped.table h
  rwa [hrun] at hnext

/-- The steps leave the globals alone. -/
theorem globals (h : Equipped c k k₂) :
    k₂.nextPid = k.nextPid ∧ k₂.currentProcess = k.currentProcess :=
  ⟨h.repaged.nextPid, h.repaged.currentProcess⟩

/-- The new process stays in the state `alloc_proc` has put it in. -/
theorem state (h : Equipped c k k₂) : (k₂.procTable c).state = (k.procTable c).state :=
  h.repaged.field Proc.state (fun _ _ _ _ => rfl) c

end Equipped

/-- `Supplied c k rs k'`: from `k` to `k'` process `c` has got pages for `rs`, the last one
first. -/
inductive Supplied (c : ProcRef) (k : Kernel) : List Resource → Kernel → Prop
  | claimed : Supplied c k [] k
  | stack {k₁ k₂ : Kernel} : Supplied c k [] k₁ → k₁.giveStack c = (k₂, true) →
      Supplied c k [.kstack] k₂
  | frame {k₁ k₂ : Kernel} : Supplied c k [.kstack] k₁ → k₁.giveTrapframe c = (k₂, true) →
      Supplied c k [.trapframe, .kstack] k₂
  | inherit {k₁ : Kernel} (parent : ProcRef) : Supplied c k [.trapframe, .kstack] k₁ →
      (k₁.procTable c).trapframe ≠ 0 →
      Supplied c k [.trapframe, .kstack] (k₁.inheritTrapframe parent c)
  | table {k₁ k₂ : Kernel} : Supplied c k [.trapframe, .kstack] k₁ →
      k₁.giveTable c = (k₂, true) → Supplied c k [.pagetable, .trapframe, .kstack] k₂
  | noTable {k₁ k₂ : Kernel} : Supplied c k [.trapframe, .kstack] k₁ →
      k₁.giveTable c = (k₂, false) → Supplied c k [.trapframe, .kstack] k₂

namespace Supplied

variable {c : ProcRef} {k k' : Kernel} {rs : List Resource}

theorem equipped (h : Supplied c k rs k') : Equipped c k k' := by
  induction h with
  | claimed => exact .claimed
  | stack _ hrun ih => exact ih.giveStack hrun
  | frame _ hrun ih => exact ih.giveTrapframe hrun
  | inherit parent _ hne ih => exact .inherit parent ih hne
  | table _ hrun ih => exact ih.giveTable hrun
  | noTable _ hrun ih => exact ih.giveTable hrun

/-- Every page that was given is one page less. -/
theorem numFree (h : Supplied c k rs k') :
    k'.vm.phys.numFree + rs.length = k.vm.phys.numFree := by
  induction h with
  | claimed => exact Nat.add_zero _
  | stack _ hrun ih =>
    obtain ⟨f, hf, hfree, rfl⟩ := giveStack_true hrun
    have hnum := Physmem.numFree_markPageAllocated hf hfree
    simp only [modify_vm, List.length_cons] at ih ⊢
    omega
  | frame _ hrun ih =>
    obtain ⟨f, hf, hfree, rfl⟩ := giveTrapframe_true hrun
    have hnum := Physmem.numFree_markPageAllocated hf hfree
    simp only [modify_vm, List.length_cons] at ih ⊢
    omega
  | @inherit k₁ parent _ _ ih =>
    obtain ⟨vm', heq, hphys, -⟩ := k₁.inheritTrapframe_eq parent c
    rw [← ih, heq]
    dsimp only
    rw [hphys]
  | table _ hrun ih =>
    obtain ⟨vm', r, hr, hfree, hphys, -, rfl⟩ := giveTable_true hrun
    have hnum := Physmem.numFree_markPageAllocated hr hfree
    simp only [modify_vm, List.length_cons] at ih ⊢
    rw [hphys]
    omega
  | noTable _ hrun ih => rwa [giveTable_false hrun, modify_vm]

end Supplied

/-! ## 2. `fork` and `proc_init` -/

/-- **How `fork` ends**, for a caller: with no entry for the child, with no page left and the
child freed again, or with all three pages and the child runnable. -/
theorem fork_supplied {k : Kernel} {parent : ProcRef} (hcur : k.currentProcess = some parent) :
    ((∀ i, (k.procTable i).state ≠ .unused) ∧ k.allocProc.2 = none ∧ k.fork = (k, -1)) ∨
    ∃ c rs k', (k.procTable c).state = .unused ∧ k.allocProc.2 = some c ∧
      Supplied c (k.adopt parent c) rs k' ∧
      ((rs.length < 3 ∧ k'.vm.phys.numFree = 0 ∧ k.fork = (k'.freeProc c, -1)) ∨
        (rs = [.pagetable, .trapframe, .kstack] ∧
          k.fork = (k'.modify c fun p => { p with state := .runnable },
            (k'.procTable c).pid))) := by
  unfold Kernel.fork
  rw [hcur]
  rcases k.allocProc_cases with ⟨hall, halloc⟩ | ⟨c, hfree, halloc⟩
  · exact Or.inl ⟨hall, by rw [halloc], by rw [halloc]⟩
  · refine Or.inr ⟨c, ?_⟩
    rw [halloc]
    dsimp only
    rw [show (k.claimProc c).modify c (fun p => { p with
      parent := some parent
      sz := ((k.claimProc c).procTable parent).sz }) = k.adopt parent c from rfl]
    have h₀ : Supplied c (k.adopt parent c) [] _ := .claimed
    rcases hrun₁ : (k.adopt parent c).giveStack c with ⟨k₁, ok₁⟩
    cases ok₁ with
    | false =>
      rcases (k.adopt parent c).giveStack_cases c with ⟨hrun', hzero⟩ | ⟨f, -, -, hrun'⟩
      · rw [hrun₁, Prod.mk.injEq] at hrun'
        exact ⟨[], _, hfree, rfl, h₀, Or.inl ⟨by decide, hzero, by rw [hrun'.1]⟩⟩
      · exact absurd (hrun₁.symm.trans hrun') (by simp)
    | true =>
      dsimp only
      have h₁ := Supplied.stack h₀ hrun₁
      rcases hrun₂ : k₁.giveTrapframe c with ⟨k₂, ok₂⟩
      cases ok₂ with
      | false =>
        rcases k₁.giveTrapframe_cases c with ⟨hrun', hzero⟩ | ⟨f, -, -, hrun'⟩
        · rw [hrun₂, Prod.mk.injEq] at hrun'
          exact ⟨_, _, hfree, rfl, h₁, Or.inl ⟨by decide, hzero, by rw [hrun'.1]⟩⟩
        · exact absurd (hrun₂.symm.trans hrun') (by simp)
      | true =>
        dsimp only
        have h₂ := Supplied.inherit parent (Supplied.frame h₁ hrun₂) (giveTrapframe_ne_zero hrun₂)
        rcases hrun₃ : (k₂.inheritTrapframe parent c).giveTable c with ⟨k₃, ok₃⟩
        cases ok₃ with
        | false =>
          refine ⟨_, k₃, hfree, rfl, .noTable h₂ hrun₃, Or.inl ⟨by decide, ?_, rfl⟩⟩
          rcases (k₂.inheritTrapframe parent c).giveTable_cases c with
            ⟨hrun', hzero⟩ | ⟨vm', r, -, -, -, -, -, hrun'⟩
          · rw [hrun₃, Prod.mk.injEq] at hrun'
            rw [hrun'.1]
            exact hzero
          · exact absurd (hrun₃.symm.trans hrun') (by simp)
        | true =>
          refine ⟨_, k₃, hfree, rfl, .table h₂ hrun₃, Or.inr ⟨rfl, ?_⟩⟩
          dsimp only
          rw [modify_self]

/-- There are an entry and the three pages for a child. -/
def CanFork (k : Kernel) : Prop :=
  (∃ i, (k.procTable i).state = .unused) ∧ 3 ≤ k.vm.phys.numFree

instance (k : Kernel) : Decidable k.CanFork := inferInstanceAs (Decidable (_ ∧ _))

/-- `fork` makes a child of `p` in entry `c`. -/
structure Created (k : Kernel) (p c : ProcRef) : Prop where
  free : (k.procTable c).state = .unused
  slot : k.allocProc.2 = some c
  state : (k.fork.1.procTable c).state = .runnable
  pid : (k.fork.1.procTable c).pid = k.nextPid
  parent : (k.fork.1.procTable c).parent = some p
  result : k.fork.2 = k.nextPid
  others : ∀ j, j ≠ c → k.fork.1.procTable j = k.procTable j
  nextPid : k.fork.1.nextPid = k.nextPid + 1
  current : k.fork.1.currentProcess = some p

/-- `fork` makes no child: the entry it has tried is free again. -/
structure Refused (k : Kernel) : Prop where
  result : k.fork.2 = -1
  others : ∀ j, k.allocProc.2 ≠ some j → k.fork.1.procTable j = k.procTable j
  slot : ∀ c, k.allocProc.2 = some c →
    (k.procTable c).state = .unused ∧ (k.fork.1.procTable c).state = .unused
  current : k.fork.1.currentProcess = k.currentProcess

theorem freeProc_globals (k : Kernel) (i : ProcRef) :
    (k.freeProc i).nextPid = k.nextPid ∧ (k.freeProc i).currentProcess = k.currentProcess := by
  obtain ⟨k₁, hk₁, hfree⟩ := k.freeProc_repaged i
  rw [hfree]
  exact ⟨hk₁.nextPid, hk₁.currentProcess⟩

/-- **`fork`** makes a child exactly when it can. -/
theorem fork_outcome {k : Kernel} {parent : ProcRef} (hcur : k.currentProcess = some parent) :
    (k.CanFork ∧ ∃ c, k.Created parent c) ∨ (¬ k.CanFork ∧ k.Refused) := by
  rcases fork_supplied hcur with ⟨hall, halloc, hend⟩ | ⟨c, rs, k', hfree, halloc, hs, hend⟩
  · refine Or.inr ⟨fun hcan => ?_, by rw [hend], ?_, ?_, by rw [hend]⟩
    · obtain ⟨i, hi⟩ := hcan.1
      exact hall i hi
    · intro j _
      rw [hend]
    · intro c hc
      rw [halloc] at hc
      exact absurd hc (by simp)
  have hnum := hs.numFree
  have hphys : (k.adopt parent c).vm.phys = k.vm.phys := rfl
  rw [hphys] at hnum
  have hothers : ∀ j, j ≠ c → k'.procTable j = k.procTable j := by
    intro j hj
    rw [(Fills.equipped hs.equipped).others j hj, adopt, modify_of_ne _ _ _ hj,
      claimProc_of_ne _ hj]
  obtain ⟨hnext, hcurrent⟩ := hs.equipped.globals
  rcases hend with ⟨hlen, hzero, hend⟩ | ⟨rfl, hend⟩
  · refine Or.inr ⟨fun hcan => ?_, by rw [hend], ?_, ?_, ?_⟩
    · have hroom := hcan.2
      omega
    · intro j hj
      have hjc : j ≠ c := fun e => hj (by rw [e, halloc])
      rw [hend, (Fills.freeProc c k').others j hjc, hothers j hjc]
    · intro d hd
      rw [halloc, Option.some.injEq] at hd
      subst hd
      rw [hend]
      exact ⟨hfree, k'.freeProc_state c⟩
    · rw [hend, (freeProc_globals k' c).2, hcurrent]
      rfl
  · have hpid : (k'.procTable c).pid = k.nextPid := by
      rw [(Fills.equipped hs.equipped).pid, adopt, modify_self]
      unfold claimProc
      dsimp only
      rw [modify_self]
    refine Or.inl ⟨⟨⟨c, hfree⟩, ?_⟩, c, hfree, halloc, ?_, ?_, ?_, ?_, ?_, ?_, ?_⟩
    · simp only [List.length_cons, List.length_nil] at hnum
      omega
    · rw [hend, modify_self]
    · rw [hend, modify_self, ← hpid]
    · rw [hend, modify_self]
      change (k'.procTable c).parent = some parent
      rw [(Fills.equipped hs.equipped).parent, adopt, modify_self]
    · rw [hend, ← hpid]
    · intro j hj
      rw [hend, modify_of_ne _ _ _ hj, hothers j hj]
    · rw [hend, modify_nextPid, hnext]
      rfl
    · rw [hend, modify_currentProcess, hcurrent]
      exact hcur

/-- What `fork` leaves as it is, whether it makes a child or not. -/
theorem fork_frame {k : Kernel} {parent : ProcRef} (hcur : k.currentProcess = some parent) :
    k.fork.1.currentProcess = k.currentProcess ∧
      (∀ j, k.allocProc.2 ≠ some j → k.fork.1.procTable j = k.procTable j) ∧
      ∀ c, k.allocProc.2 = some c → (k.procTable c).state = .unused ∧
        ((k.fork.1.procTable c).state = .runnable ∨ (k.fork.1.procTable c).state = .unused) := by
  rcases fork_outcome hcur with ⟨-, c, hc⟩ | ⟨-, hr⟩
  · refine ⟨hc.current.trans hcur.symm, ?_, ?_⟩
    · exact fun j hj => hc.others j fun e => hj (e ▸ hc.slot)
    · intro d hd
      obtain rfl : c = d := Option.some.inj (hc.slot.symm.trans hd)
      exact ⟨hc.free, Or.inl hc.state⟩
  · exact ⟨hr.current, hr.others, fun c hc => ⟨(hr.slot c hc).1, Or.inr (hr.slot c hc).2⟩⟩

/-- **`proc_init`**, when it ends with a current process. -/
theorem procInit_supplied {k : Kernel} (hnone : k.currentProcess = none)
    (hinit : k.procInit.currentProcess ≠ none) :
    let k₀ : Kernel := { k with procTable := fun i => { k.procTable i with state := .unused } }
    ∃ init k', Supplied init (k₀.claimProc init) [.pagetable, .trapframe, .kstack] k' ∧
      k.procInit = { k'.modify init fun p => { p with state := .runnable } with
        currentProcess := some init } := by
  revert hinit
  unfold Kernel.procInit
  dsimp only
  have hnone' : ({ k with procTable := fun i => { k.procTable i with state := .unused } } :
    Kernel).currentProcess = none := hnone
  generalize ({ k with procTable := fun i => { k.procTable i with state := .unused } } : Kernel)
    = k₀ at hnone'
  rcases k₀.allocProc_cases with ⟨-, halloc⟩ | ⟨init, -, halloc⟩
  · rw [halloc]
    exact fun hinit => absurd hnone' hinit
  · rw [halloc]
    dsimp only
    have h₀ : Supplied init (k₀.claimProc init) [] _ := .claimed
    rcases hrun₁ : (k₀.claimProc init).giveStack init with ⟨k₁, ok₁⟩
    have he₁ : Equipped init (k₀.claimProc init) k₁ := Equipped.claimed.giveStack hrun₁
    cases ok₁ with
    | false => exact fun hinit => absurd ((he₁.globals.2).trans hnone') hinit
    | true =>
      dsimp only
      have h₁ := Supplied.stack h₀ hrun₁
      rcases hrun₂ : k₁.giveTrapframe init with ⟨k₂, ok₂⟩
      have he₂ := he₁.giveTrapframe hrun₂
      cases ok₂ with
      | false => exact fun hinit => absurd ((he₂.globals.2).trans hnone') hinit
      | true =>
        dsimp only
        have h₂ := Supplied.frame h₁ hrun₂
        rcases hrun₃ : k₂.giveTable init with ⟨k₃, ok₃⟩
        have he₃ := he₂.giveTable hrun₃
        cases ok₃ with
        | false => exact fun hinit => absurd ((he₃.globals.2).trans hnone') hinit
        | true => exact fun _ => ⟨init, k₃, .table h₂ hrun₃, rfl⟩

/-- After `proc_init` no process is runnable but the current one. -/
theorem procInit_state (vm : Vm) (i : ProcRef) :
    ((fresh vm).procInit.procTable i).state = .unused ∨
      ((fresh vm).procInit.procTable i).state = .used ∨
      (((fresh vm).procInit.procTable i).state = .runnable ∧
        (fresh vm).procInit.currentProcess = some i) := by
  rcases (fresh vm).procInit_end with hend | ⟨init, k', he, hend⟩
  · rw [hend]
    exact Or.inl rfl
  · have hothers : i ≠ init → (k'.procTable i).state = .unused := by
      intro hi
      rw [(Fills.equipped he).others i hi, claimProc_of_ne _ hi]
    rcases hend with hend | hend <;> rw [hend] <;> by_cases hi : i = init
    · subst hi
      refine Or.inr (Or.inl ?_)
      rw [he.state]
      unfold claimProc
      dsimp only
      rw [modify_self]
    · exact Or.inl (hothers hi)
    · subst hi
      exact Or.inr (Or.inr ⟨by dsimp only; rw [modify_self], rfl⟩)
    · refine Or.inl ?_
      dsimp only
      rw [modify_of_ne _ _ _ hi, hothers hi]

end Kernel

end Lithium
