/-
# Freeing an inode that is in use

`inode_put` finds under `icache.lock` that it drops the last reference to an inode without links,
gives the lock back, and frees the inode.  Nothing marks the entry in between: an `inode_get` of
the same number hits it, and its caller refers to an inode whose type on the disk becomes 0.

Section 2 says which runs are free of this: those without such an `inode_get`.
-/
import Lithium.Fs.Icache

namespace Lithium

open Transition

namespace IcacheState

variable {T : Type*} [DecidableEq T] {s s' : IcacheState T} {t u : T} {i : Fin ninode}

/-! ## 1. Who refers to the inode -/

/-- When `inode_put` is about to write the inode it frees, no other process has a reference to it
that is not yet put. -/
def FreesAlone (s : IcacheState T) : Prop :=
  ∀ t i, s.act t = .putting i .write →
    ∀ u j, u ≠ t → (u, j) ∈ s.refs ∨ (u, j) ∈ s.puts → s.key j ≠ s.key i

/-- The condition on a step: `inode_get` is not called for an inode that an `inode_put` is
freeing, from its test to its write. -/
def NotFreeing (s : IcacheState T) : InodeOp T → Prop
  | .inodeGet _ dev inum => ∀ t i, (s.act t).frees = some i → s.key i ≠ (dev, inum)
  | _ => True

instance [Fintype T] (s : IcacheState T) (op : InodeOp T) : Decidable (s.NotFreeing op) := by
  cases op <;> unfold NotFreeing <;> infer_instance

/-! ## 2. Without such a call it frees alone -/

/-- An inode that is being freed has one reference, which its `inode_put` is about to drop. -/
def Alone (s : IcacheState T) : Prop :=
  ∀ t i, (s.act t).frees = some i → (s.inodes i).ref = 1

omit [DecidableEq T] in
theorem InodeAct.puts_of_frees {a : InodeAct} (h : a.frees = some i) : a.puts = some i := by
  cases a with
  | putting k st =>
    rw [InodeAct.frees] at h
    split at h
    · exact h
    · cases h
  | _ => cases h

omit [DecidableEq T] in
/-- Neither a reference nor another `inode_put` is left for such an inode. -/
theorem Alone.none_left (ha : s.Alone) (h : CacheOk s) (hf : (s.act t).frees = some i) :
    handlesOf s.refs i = 0 ∧ handlesOf s.puts i = 1 := by
  have hput : (t, i) ∈ s.puts := (h.putting t i).mpr (InodeAct.puts_of_frees hf)
  have hpos := handlesOf_pos.mpr ⟨t, hput⟩
  have hcount := h.counted i
  rw [ha t i hf] at hcount
  omega

omit [DecidableEq T] in
theorem Alone.not_mem (ha : s.Alone) (h : CacheOk s) (hf : (s.act t).frees = some i) (u : T) :
    (u, i) ∉ s.refs := fun hmem => by
  have hpos := handlesOf_pos.mpr ⟨u, hmem⟩
  rw [(ha.none_left h hf).1] at hpos
  exact Nat.lt_irrefl 0 hpos

/-- **One step** that meets the condition. -/
theorem Alone.step {op : InodeOp T} (ha : s.Alone) (h : CacheOk s) (hop : s.NotFreeing op)
    (hs : s.step op = some s') : s'.Alone := by
  intro t i hf
  cases step_effect h hs with
  | quiet _ href _ _ _ hfrees => rw [href, ha t i (hfrees t i hf)]
  | counted v k _ hwhy =>
    have hk : i ≠ k := by
      rintro rfl
      rcases hwhy with ⟨u, hu⟩ | ⟨u, rfl⟩
      · exact ha.not_mem h hf u hu
      · exact hop t i hf rfl
    simpa only [goto, modify_of_ne s hk] using ha t i hf
  | taken v k dev inum hzero =>
    have hone := ha t i hf
    have hk : i ≠ k := by
      rintro rfl
      omega
    simpa only [modify_of_ne s hk] using hone
  | dropped v k hvk =>
    have hk : i ≠ k := by
      rintro rfl
      exact ha.not_mem h hf v hvk
    simpa only [goto, modify_of_ne s hk] using ha t i hf
  | started v k _ _ hun =>
    by_cases ht : t = v
    · subst ht
      simp only [goto, Function.update_self] at hf
      obtain rfl := Option.some.inj hf
      simp only [unlinked, Bool.and_eq_true, beq_iff_eq] at hun
      exact hun.1.1
    · simp only [goto, Function.update_of_ne ht] at hf
      exact ha t i hf
  | finished v k hact =>
    by_cases ht : t = v
    · subst ht
      simp only [goto, Function.update_self] at hf
      cases hf
    · simp only [goto, Function.update_of_ne ht, modify_act] at hf
      have hk : i ≠ k := by
        rintro rfl
        have hv : (v, i) ∈ s.puts := (h.putting v i).mpr (by rw [hact]; rfl)
        have ht' : (t, i) ∈ s.puts := (h.putting t i).mpr (InodeAct.puts_of_frees hf)
        exact ht (owner_eq_of_handlesOf_eq_one (ha.none_left h hf).2 hv ht')
      simpa only [goto, modify_of_ne s hk] using ha t i hf

/-- What is alone is freed alone. -/
theorem Alone.freesAlone (ha : s.Alone) (h : CacheOk s) : s.FreesAlone := by
  intro t i hact u j hu hmem hkey
  have hf : (s.act t).frees = some i := by
    rw [hact]
    rfl
  have hput : (t, i) ∈ s.puts := (h.putting t i).mpr (InodeAct.puts_of_frees hf)
  have hi : 0 < (s.inodes i).ref := by
    rw [ha t i hf]
    exact Nat.one_pos
  have hj : 0 < (s.inodes j).ref := by
    rw [h.counted]
    rcases hmem with hmem | hmem
    · exact Nat.add_pos_left (handlesOf_pos.mpr ⟨u, hmem⟩) _
    · exact Nat.add_pos_right _ (handlesOf_pos.mpr ⟨u, hmem⟩)
  obtain rfl := h.oneEntry j i hj hi hkey
  rcases hmem with hmem | hmem
  · exact ha.not_mem h hf u hmem
  · exact hu (owner_eq_of_handlesOf_eq_one (ha.none_left h hf).2 hput hmem)

/-- **When an inode is freed that nobody else uses.**  In every run in which `inode_get` is never
called for an inode between the test of an `inode_put` and its write. -/
theorem always_freesAlone (disk : BitVec 32 → BitVec 32 → Dinode) (ops : List (InodeOp T))
    (h : EachStep step NotFreeing (init disk) ops) : Always step FreesAlone (init disk) ops := by
  have hinv : Always step (fun s => CacheOk s ∧ s.Alone) (init disk) ops := by
    refine always_of_eachStep (fun s op s' hs hop hstep => ?_) ops _ ⟨init_ok disk, ?_⟩ h
    · exact ⟨hs.1.step hstep, hs.2.step hs.1 hop hstep⟩
    · exact fun t i hf => by cases hf
  exact Always.mono (fun s hs => hs.2.freesAlone hs.1) hinv

/-- A disk of inodes without links. -/
def unlinkedDisk : BitVec 32 → BitVec 32 → Dinode := fun _ _ => ⟨2, 0, 0, 0, 0, fun _ => 0⟩

/-- `inode_put` up to its write, and an `inode_get` after its test. -/
def getWhileFreeing : List (InodeOp (Fin 2)) :=
  [.inodeGet 0 1 7, .inodeLock 0 0, .next 0 false, .next 0 false, .inodeUnlock 0 0, .inodePut 0 0,
    .inodeGet 1 1 7, .next 0 false, .next 0 false, .next 0 false, .next 0 false]

/-- A run in which the second process asks for the inode only after the write. -/
theorem always_freesAlone_after : Always step FreesAlone (init unlinkedDisk)
    [.inodeGet (0 : Fin 2) 1 7, .inodeLock 0 0, .next 0 false, .next 0 false, .inodeUnlock 0 0,
      .inodePut 0 0, .next 0 false, .next 0 false, .next 0 false, .next 0 false, .next 0 false,
      .inodeGet 1 1 7] :=
  always_freesAlone _ _ (by decide +kernel)

/-- **The inode in use.**  The second process gets inode 7 while the first one frees it; when the
first one writes type 0, the second one has a reference. -/
theorem freed_in_use : ¬ Always step FreesAlone (init unlinkedDisk) getWhileFreeing := by
  intro hall
  have hrun : ((run step (init unlinkedDisk) getWhileFreeing).any fun s =>
      decide (s.act 0 = .putting 0 .write ∧ ((1 : Fin 2), (0 : Fin ninode)) ∈ s.refs)) = true := by
    decide +kernel
  obtain ⟨s, hs, hbad⟩ := (Option.any_eq_true _ _).mp hrun
  obtain ⟨hact, hmem⟩ := of_decide_eq_true hbad
  have halone := (always_iff_forall_part _ _).mp hall _ s List.prefix_rfl hs
  exact halone 0 0 hact 1 0 (by decide) (.inl hmem) rfl

end IcacheState

end Lithium
