/-
# Whose fields a locked inode has

`inode_lock` returns nothing, and `file_read`, `file_write` and `file_stat` go on with the fields
that the entry of the cache has then.  When `block_read` has returned `NULL` these are the fields of
the inode that the entry was used for before.

Any number of processes get, put and use inodes, over the machine of `Icache.lean`.  Section 4 says
which runs use only what is on the disk: those in which no `block_read` fails that `inode_lock` or
`inode_update` needs.
-/
import Lithium.Fs.Icache
import Lithium.Fs.InodeData

namespace Lithium

open Transition

/-! ## 1. Processes that use inodes -/

/-- Where a process is between `inode_lock` and `inode_unlock`. -/
inductive UseStage where
  /-- In `inode_lock`. -/
  | entering
  /-- It reads the fields of the inode. -/
  | inUse
  /-- In `inode_write`, before `inode_update`. -/
  | changed
  /-- Before `inode_unlock`. -/
  | leaving
  deriving DecidableEq

/-- The cache, and the inode that each process uses in `file_read`, `file_write` or `file_stat`. -/
structure UseState (T : Type*) where
  cache : IcacheState T
  job : T → Option (Fin ninode × UseStage)

/-- What happens next. -/
inductive UseOp (T : Type*) where
  | inodeGet (t : T) (dev inum : BitVec 32)
  | inodeDup (t : T) (i : Fin ninode) (u : T)
  | inodePut (t : T) (i : Fin ninode)
  /-- `t` begins `file_read`, `file_write` or `file_stat`, for an inode it refers to. -/
  | inodeLock (t : T) (i : Fin ninode)
  /-- `t` goes on in `inode_lock` or `inode_put`; `null` when `block_read` fails. -/
  | next (t : T) (null : Bool)
  /-- The loop of `inode_write` has come to `off`. -/
  | grow (t : T) (off : BitVec 32)
  /-- `inode_update` in `inode_write`. -/
  | inodeUpdate (t : T) (null : Bool)
  | inodeUnlock (t : T)

namespace UseState

variable {T : Type*} [DecidableEq T]

/-- A step of the cache by `t`, and where `t` is after it. -/
def call (s : UseState T) (t : T) (op : InodeOp T) (j : Option (Fin ninode × UseStage)) :
    Option (UseState T) :=
  (s.cache.step op).map fun c => ⟨c, Function.update s.job t j⟩

/-- One step. -/
def step (s : UseState T) : UseOp T → Option (UseState T)
  | .inodeGet t dev inum => if s.job t = none then s.call t (.inodeGet t dev inum) none else none
  | .inodeDup t i u => if s.job t = none then s.call t (.inodeDup t i u) none else none
  | .inodePut t i => if s.job t = none then s.call t (.inodePut t i) none else none
  | .inodeLock t i =>
    if s.job t = none ∧ s.cache.refs.contains (t, i) then
      s.call t (.inodeLock t i) (some (i, .entering))
    else none
  | .next t null =>
    match s.job t with
    | none => s.call t (.next t null) none
    | some (i, .entering) =>
      s.call t (.next t null)
        (some (i, if s.cache.act t = .loading i then .inUse else .entering))
    | some _ => none
  | .grow t off =>
    match s.job t with
    | some (i, .inUse) =>
      s.call t (.edit t i (Wal.grown (s.cache.inodes i).copy off)) (some (i, .changed))
    | _ => none
  | .inodeUpdate t null =>
    match s.job t with
    | some (i, .changed) => s.call t (.inodeUpdate t i null) (some (i, .leaving))
    | _ => none
  | .inodeUnlock t =>
    match s.job t with
    | some (i, .inUse) | some (i, .leaving) => s.call t (.inodeUnlock t i) none
    | _ => none

/-- The cache that `inode_init` leaves, over any disk. -/
def init (disk : BitVec 32 → BitVec 32 → Dinode) : UseState T := ⟨.init disk, fun _ => none⟩

end UseState

namespace IcacheState

/-- The inode on the disk that an entry is for. -/
def onDisk {T : Type*} (s : IcacheState T) (i : Fin ninode) : Dinode :=
  s.disk (s.inodes i).dev (s.inodes i).inum

end IcacheState

namespace UseState

variable {T : Type*}

/-- Whoever uses an inode uses the fields that it has on the disk. -/
def Fresh (s : UseState T) : Prop :=
  ∀ t i, s.job t = some (i, .inUse) → (s.cache.inodes i).copy = s.cache.onDisk i

/-- The condition on a step: the `block_read` of an `inode_lock` does not fail, unless the fields
are valid, nor that of an `inode_update`, unless it has nothing to store. -/
def Answered (s : UseState T) : UseOp T → Prop
  | .next t null => ∀ i, s.cache.act t = .loading i → null = true →
      (s.cache.inodes i).valid = true
  | .inodeUpdate t null => ∀ i, s.job t = some (i, .changed) → null = true →
      (s.cache.inodes i).copy = s.cache.onDisk i
  | _ => True

end UseState

/-! ## 2. Who holds an inode, and who has changed it -/

/-- `inode_put` holds the sleeplock. -/
def PutStage.locked : PutStage → Bool
  | .enter | .lock | .drop => false
  | _ => true

/-- `inode_put` has changed the fields, and they are still valid. -/
def PutStage.dirty : PutStage → Bool
  | .write | .invalidate => true
  | _ => false

/-- The entry whose sleeplock a process holds. -/
def heldBy (job : Option (Fin ninode × UseStage)) (act : InodeAct) : Option (Fin ninode) :=
  match job, act with
  | some (i, .entering), .loading _ => some i
  | some (_, .entering), _ => none
  | some (i, _), _ => some i
  | none, .putting i st => if st.locked then some i else none
  | none, _ => none

/-- The entry that a process has changed, and may not have stored. -/
def dirtiedBy (job : Option (Fin ninode × UseStage)) (act : InodeAct) : Option (Fin ninode) :=
  match job, act with
  | some (i, .changed), _ => some i
  | some _, _ => none
  | none, .putting i st => if st.dirty then some i else none
  | none, _ => none

namespace UseState

variable {T : Type*}

/-- What holds of an entry: its sleeplock is with the process that holds it, and what is valid and
has not been changed is on the disk. -/
structure EntryOk (s : UseState T) (i : Fin ninode) : Prop where
  lock : ∀ t, (s.cache.inodes i).lock = some t ↔ heldBy (s.job t) (s.cache.act t) = some i
  clean : 0 < (s.cache.inodes i).ref → (s.cache.inodes i).valid = true →
    (∀ t, dirtiedBy (s.job t) (s.cache.act t) ≠ some i) →
      (s.cache.inodes i).copy = s.cache.onDisk i

/-- What holds of a process. -/
def ProcOk (s : UseState T) (t : T) : Prop :=
  match s.job t with
  | none => s.cache.act t = .idle ∨ ∃ i st, s.cache.act t = .putting i st
  | some (i, .entering) => (t, i) ∈ s.cache.refs ∧
      (s.cache.act t = .locking i ∨ s.cache.act t = .loading i)
  | some (i, .inUse) => (t, i) ∈ s.cache.refs ∧ s.cache.act t = .idle ∧
      (s.cache.inodes i).valid = true
  | some (i, _) => (t, i) ∈ s.cache.refs ∧ s.cache.act t = .idle

/-- The invariant. -/
structure Inv (s : UseState T) : Prop where
  cache : s.cache.CacheOk
  entries : ∀ i, s.EntryOk i
  procs : ∀ t, s.ProcOk t

variable {s s' : UseState T} {t u : T} {i k : Fin ninode}

/-- Whoever has changed an inode holds it. -/
theorem held_of_dirtied {job : Option (Fin ninode × UseStage)} {act : InodeAct}
    (h : dirtiedBy job act = some i) : heldBy job act = some i := by
  rcases job with _ | ⟨j, st⟩
  · cases act with
    | putting k st => cases st <;> first | exact h | cases h
    | _ => cases h
  · cases st with
    | changed => exact h
    | _ => cases h

/-- Two processes do not hold one inode. -/
theorem EntryOk.sole (h : s.EntryOk i) (ht : heldBy (s.job t) (s.cache.act t) = some i)
    (hu : heldBy (s.job u) (s.cache.act u) = some i) : u = t := by
  have hlock := (h.lock t).mpr ht
  rw [(h.lock u).mpr hu] at hlock
  exact Option.some.inj hlock

/-- **The fields of an inode in use are those on the disk.** -/
theorem Inv.fresh (h : Inv s) : s.Fresh := by
  intro t i hjob
  have hproc := h.procs t
  rw [ProcOk, hjob] at hproc
  obtain ⟨hmem, -, hvalid⟩ := hproc
  refine (h.entries i).clean (h.cache.ref_pos hmem) hvalid fun u hdirty => ?_
  have hut := (h.entries i).sole (t := t) (by rw [hjob]; rfl) (held_of_dirtied hdirty)
  rw [hut, hjob] at hdirty
  cases hdirty

/-! ## 3. One step -/

/-- The other processes are where they were, and have the references they had. -/
structure Others (s s' : UseState T) (t : T) : Prop where
  job : ∀ u, u ≠ t → s'.job u = s.job u
  act : ∀ u, u ≠ t → s'.cache.act u = s.cache.act u
  refs : ∀ u, u ≠ t → ∀ k, (u, k) ∈ s.cache.refs → (u, k) ∈ s'.cache.refs

/-- An entry whose sleeplock stays where it was. -/
theorem EntryOk.change (h : s.EntryOk k) (ho : Others s s' t)
    (hlock : (s'.cache.inodes k).lock = (s.cache.inodes k).lock)
    (hheld : heldBy (s'.job t) (s'.cache.act t) = some k ↔
      heldBy (s.job t) (s.cache.act t) = some k)
    (hclean : 0 < (s'.cache.inodes k).ref → (s'.cache.inodes k).valid = true →
      (∀ u, dirtiedBy (s'.job u) (s'.cache.act u) ≠ some k) →
        (s'.cache.inodes k).copy = s'.cache.onDisk k) : s'.EntryOk k where
  clean := hclean
  lock u := by
    rw [hlock, h.lock u]
    by_cases hu : u = t
    · rw [hu, hheld]
    · rw [ho.job u hu, ho.act u hu]

/-- An entry that stays as it was, but for its references. -/
theorem EntryOk.keep (h : s.EntryOk k) (ho : Others s s' t)
    (hsame : ∃ n, s'.cache.inodes k = { s.cache.inodes k with ref := n } ∧
      (0 < n → 0 < (s.cache.inodes k).ref))
    (hdisk : 0 < (s.cache.inodes k).ref → s'.cache.onDisk k = s.cache.onDisk k)
    (hheld : heldBy (s'.job t) (s'.cache.act t) = some k ↔
      heldBy (s.job t) (s.cache.act t) = some k)
    (hdirty : dirtiedBy (s.job t) (s.cache.act t) = some k →
      dirtiedBy (s'.job t) (s'.cache.act t) = some k) : s'.EntryOk k := by
  obtain ⟨n, hsame, hpos⟩ := hsame
  refine h.change ho (by rw [hsame]) hheld fun href hvalid hnone => ?_
  rw [hsame] at href hvalid ⊢
  rw [hdisk (hpos href)]
  refine h.clean (hpos href) hvalid fun u hu => ?_
  by_cases hut : u = t
  · exact hnone u (by rw [hut] at hu ⊢; exact hdirty hu)
  · exact hnone u (by rw [ho.job u hut, ho.act u hut]; exact hu)

/-- What another process knows. -/
theorem ProcOk.keep (h : s.ProcOk u) (hu : u ≠ t) (ho : Others s s' t)
    (hvalid : ∀ k, s.job u = some (k, .inUse) → (s.cache.inodes k).valid = true →
      (s'.cache.inodes k).valid = true) : s'.ProcOk u := by
  unfold ProcOk at h ⊢
  rw [ho.job u hu, ho.act u hu]
  cases hjob : s.job u with
  | none =>
    rw [hjob] at h
    exact h
  | some r =>
    obtain ⟨k, st⟩ := r
    rw [hjob] at h
    cases st with
    | entering => exact ⟨ho.refs u hu k h.1, h.2⟩
    | inUse => exact ⟨ho.refs u hu k h.1, h.2.1, hvalid k hjob h.2.2⟩
    | changed => exact ⟨ho.refs u hu k h.1, h.2⟩
    | leaving => exact ⟨ho.refs u hu k h.1, h.2⟩

/-- **A step of `t` that concerns the entry `i` only.** -/
theorem Inv.of (h : Inv s) (hcache : s'.cache.CacheOk) (ho : Others s s' t) (i : Fin ninode)
    (hsame : ∀ k, k ≠ i → s'.cache.inodes k = s.cache.inodes k)
    (hdisk : ∀ k, k ≠ i → 0 < (s.cache.inodes k).ref → s'.cache.onDisk k = s.cache.onDisk k)
    (hold : ∀ k, heldBy (s.job t) (s.cache.act t) = some k → k = i)
    (hnew : ∀ k, heldBy (s'.job t) (s'.cache.act t) = some k → k = i)
    (hentry : s'.EntryOk i) (hproc : s'.ProcOk t)
    (hvalid : ∀ u, u ≠ t → s.job u = some (i, .inUse) → (s'.cache.inodes i).valid = true) :
    Inv s' where
  cache := hcache
  entries k := by
    by_cases hk : k = i
    · exact hk ▸ hentry
    · refine (h.entries k).keep ho ⟨(s.cache.inodes k).ref, hsame k hk, id⟩ (hdisk k hk)
        ⟨fun he => absurd (hnew k he) hk, fun he => absurd (hold k he) hk⟩
        fun hd => absurd (hold k (held_of_dirtied hd)) hk
  procs u := by
    by_cases hu : u = t
    · exact hu ▸ hproc
    · refine (h.procs u).keep hu ho fun k hjob hk => ?_
      by_cases hki : k = i
      · exact hki ▸ hvalid u hu (hki ▸ hjob)
      · rw [hsame k hki]
        exact hk

/-- The same, where only the entry `i` of the cache changes. -/
theorem Inv.modify (h : Inv s) (hcache : s'.cache.CacheOk) (ho : Others s s' t) (i : Fin ninode)
    {g : Inode T → Inode T} (hinodes : s'.cache.inodes = (s.cache.modify i g).inodes)
    (hdisk : s'.cache.disk = s.cache.disk)
    (hold : ∀ k, heldBy (s.job t) (s.cache.act t) = some k → k = i)
    (hnew : ∀ k, heldBy (s'.job t) (s'.cache.act t) = some k → k = i)
    (hentry : s'.EntryOk i) (hproc : s'.ProcOk t)
    (hvalid : ∀ u, u ≠ t → s.job u = some (i, .inUse) → (g (s.cache.inodes i)).valid = true) :
    Inv s' := by
  have hsame : ∀ k, k ≠ i → s'.cache.inodes k = s.cache.inodes k := fun k hk => by
    rw [hinodes, IcacheState.modify_of_ne _ hk]
  refine h.of hcache ho i hsame (fun k hk _ => ?_) hold hnew hentry hproc fun u hu hjob => ?_
  · rw [IcacheState.onDisk, IcacheState.onDisk, hsame k hk, hdisk]
  · rw [hinodes, IcacheState.modify_self]
    exact hvalid u hu hjob

/-- What `inode_get` does. -/
theorem inodeGet_cases {c c' : IcacheState T} {dev inum : BitVec 32}
    (hs : c.inodeGet dev inum = some (c', i)) :
    (0 < (c.inodes i).ref ∧ c' = c.modify i fun x => { x with ref := x.ref + 1 }) ∨
    ((c.inodes i).ref = 0 ∧ c' = c.modify i fun x =>
      { x with dev := dev, inum := inum, ref := 1, valid := false }) := by
  unfold IcacheState.inodeGet at hs
  cases hhit : c.findEntry dev inum with
  | some k =>
    simp only [hhit, Option.some.injEq, Prod.mk.injEq] at hs
    obtain ⟨rfl, rfl⟩ := hs
    have hk := List.find?_some (p := fun i => decide (0 < (c.inodes i).ref) &&
      (c.inodes i).dev == dev && (c.inodes i).inum == inum) hhit
    simp only [Bool.and_eq_true, decide_eq_true_eq] at hk
    exact .inl ⟨hk.1.1, rfl⟩
  | none =>
    cases hfree : c.findEmpty with
    | none => simp [hhit, hfree] at hs
    | some k =>
      simp only [hhit, hfree, Option.some.injEq, Prod.mk.injEq] at hs
      obtain ⟨rfl, rfl⟩ := hs
      have hk := List.find?_some (p := fun i => (c.inodes i).ref == 0) hfree
      exact .inr ⟨by simpa using hk, rfl⟩

/-- A process outside a job whose point in the cache is `idle` holds nothing. -/
theorem held_idle {k : Fin ninode} (hjob : s.job t = none) (hact : s.cache.act t = .idle) :
    heldBy (s.job t) (s.cache.act t) = some k → k = i := by
  rw [hjob, hact]
  intro h
  cases h

variable [DecidableEq T]

/-- `t` is as idle as before, and one entry has another count of references. -/
theorem Inv.counted (h : Inv s) {c : IcacheState T} (hcache : c.CacheOk) (hjob : s.job t = none)
    (hact : s.cache.act t = .idle) {n : Nat} (hsame : c.act = s.cache.act)
    (hinodes : c.inodes = (s.cache.modify i fun x => { x with ref := n }).inodes)
    (hdisk : c.disk = s.cache.disk) (hpos : 0 < n → 0 < (s.cache.inodes i).ref)
    (hrefs : ∀ u, u ≠ t → ∀ k, (u, k) ∈ s.cache.refs → (u, k) ∈ c.refs) :
    Inv ⟨c, Function.update s.job t none⟩ := by
  have hjob' : Function.update s.job t none = s.job := by rw [← hjob, Function.update_eq_self]
  rw [hjob']
  have ho : Others s ⟨c, s.job⟩ t := ⟨fun _ _ => rfl, fun u _ => by rw [hsame], hrefs⟩
  have hact' : c.act t = .idle := by rw [hsame, hact]
  refine h.modify hcache ho i hinodes hdisk (fun k => held_idle hjob hact)
    (fun k => held_idle (s := ⟨c, s.job⟩) hjob hact') ?_ ?_ fun u _ hu => ?_
  · refine (h.entries i).keep ho ⟨n, ?_, hpos⟩ (fun _ => ?_) (by rw [hsame])
      (by rw [hsame]; exact id)
    · rw [hinodes, IcacheState.modify_self]
    · rw [IcacheState.onDisk, IcacheState.onDisk, hinodes, IcacheState.modify_self, hdisk]
  · rw [ProcOk, hjob]
    exact .inl hact'
  · have hproc := h.procs u
    rw [ProcOk, hu] at hproc
    exact hproc.2.2

/-- `inode_get`. -/
theorem Inv.inodeGet (h : Inv s) {dev inum : BitVec 32} (hjob : s.job t = none)
    (hs : s.call t (.inodeGet t dev inum) none = some s') : Inv s' := by
  obtain ⟨c, hstep, rfl⟩ := Option.map_eq_some_iff.mp hs
  have hcache := h.cache.step hstep
  obtain ⟨hact, ⟨⟩⟩ := Option.ite_none_right_eq_some.mp hstep
  have hself : Function.update s.job t none = s.job := by rw [← hjob, Function.update_eq_self]
  cases hget : s.cache.inodeGet dev inum with
  | none =>
    rw [hself]
    exact h
  | some r =>
    obtain ⟨c, i⟩ := r
    rw [hget] at hcache
    rcases inodeGet_cases hget with ⟨hpos, rfl⟩ | ⟨hzero, rfl⟩
    · exact h.counted hcache hjob hact rfl rfl rfl (fun _ => hpos)
        fun u _ k hk => List.mem_cons_of_mem _ hk
    · -- nobody uses an entry without references
      have hunused : ∀ u, (u, i) ∉ s.cache.refs := fun u hu => by
        have hpos := h.cache.ref_pos hu
        omega
      have ho : Others s ⟨{ s.cache.modify i fun x =>
          { x with dev := dev, inum := inum, ref := 1, valid := false } with
          refs := (t, i) :: s.cache.refs }, Function.update s.job t none⟩ t :=
        ⟨fun u hu => Function.update_of_ne hu _ _, fun _ _ => rfl,
          fun u _ k hk => List.mem_cons_of_mem _ hk⟩
      refine h.modify (g := fun x => { x with dev := dev, inum := inum, ref := 1, valid := false })
        hcache ho i rfl rfl (fun k => held_idle hjob hact) (fun k => ?_) ?_ ?_ fun u _ hu => ?_
      · rw [hself]
        exact held_idle hjob hact
      · refine (h.entries i).change ho (by simp) (by rw [hself]; rfl) fun _ hvalid => ?_
        simp at hvalid
      · rw [ProcOk, hself, hjob]
        exact .inl hact
      · have hproc := h.procs u
        rw [ProcOk, hu] at hproc
        exact absurd hproc.1 (hunused u)

/-- `inode_dup`. -/
theorem Inv.inodeDup (h : Inv s) (hjob : s.job t = none)
    (hs : s.call t (.inodeDup t i u) none = some s') : Inv s' := by
  obtain ⟨c, hstep, rfl⟩ := Option.map_eq_some_iff.mp hs
  have hcache := h.cache.step hstep
  obtain ⟨⟨hact, hmem⟩, ⟨⟩⟩ := Option.ite_none_right_eq_some.mp hstep
  exact h.counted hcache hjob hact rfl rfl rfl (fun _ => h.cache.ref_pos hmem)
    fun v _ k hk => List.mem_cons_of_mem _ hk

/-- A process moves on, and the entries stay as they are. -/
theorem Inv.moved (h : Inv s) (hcache : s'.cache.CacheOk) (ho : Others s s' t)
    (hinodes : s'.cache.inodes = s.cache.inodes) (hdisk : s'.cache.disk = s.cache.disk)
    (hold : heldBy (s.job t) (s.cache.act t) = none)
    (hnew : heldBy (s'.job t) (s'.cache.act t) = none) (hproc : s'.ProcOk t) : Inv s' where
  cache := hcache
  entries k := by
    refine (h.entries k).keep ho ⟨_, by rw [hinodes], id⟩ (fun _ => ?_) (by rw [hold, hnew])
      fun hd => ?_
    · rw [IcacheState.onDisk, IcacheState.onDisk, hinodes, hdisk]
    · rw [held_of_dirtied hd] at hold
      cases hold
  procs u := by
    by_cases hu : u = t
    · exact hu ▸ hproc
    · exact (h.procs u).keep hu ho fun k _ hk => by rw [hinodes]; exact hk

/-- `t` moves on in the cache, and nobody else loses a reference. -/
theorem others_goto {c : IcacheState T} {a : InodeAct} {j : Option (Fin ninode × UseStage)}
    (hact : c.act = s.cache.act)
    (hrefs : ∀ u, u ≠ t → ∀ k, (u, k) ∈ s.cache.refs → (u, k) ∈ c.refs) :
    Others s ⟨c.goto t a, Function.update s.job t j⟩ t where
  job u hu := Function.update_of_ne hu _ _
  act u hu := by
    rw [← hact]
    exact Function.update_of_ne hu _ _
  refs := hrefs

/-- `inode_put`, up to its test. -/
theorem Inv.inodePut (h : Inv s) (hjob : s.job t = none)
    (hs : s.call t (.inodePut t i) none = some s') : Inv s' := by
  obtain ⟨c, hstep, rfl⟩ := Option.map_eq_some_iff.mp hs
  have hcache := h.cache.step hstep
  obtain ⟨⟨hact, hmem⟩, hstep⟩ := Option.ite_none_right_eq_some.mp hstep
  have hrefs : ∀ u, u ≠ t → ∀ k, (u, k) ∈ s.cache.refs →
      (u, k) ∈ s.cache.refs.erase (t, i) := fun u hu k hk =>
    (List.mem_erase_of_ne fun he => hu (Prod.mk.inj he).1).mpr hk
  split at hstep
  case isTrue =>
    obtain rfl := Option.some.inj hstep
    refine h.moved hcache (others_goto rfl hrefs) rfl rfl (by rw [hjob, hact]; rfl) ?_ ?_
    · simp [IcacheState.goto, heldBy, PutStage.locked]
    · simp [ProcOk, IcacheState.goto]
  case isFalse =>
    obtain rfl := Option.some.inj hstep
    exact h.counted hcache hjob hact rfl rfl rfl (fun _ => h.cache.ref_pos hmem) hrefs

/-- The beginning of `inode_lock`. -/
theorem Inv.inodeLock (h : Inv s) (hjob : s.job t = none) (hmem : (t, i) ∈ s.cache.refs)
    (hs : s.call t (.inodeLock t i) (some (i, .entering)) = some s') : Inv s' := by
  obtain ⟨c, hstep, rfl⟩ := Option.map_eq_some_iff.mp hs
  have hcache := h.cache.step hstep
  obtain ⟨hact, hstep⟩ := Option.ite_none_right_eq_some.mp hstep
  have hpos := h.cache.ref_pos hmem
  rw [if_neg (by omega)] at hstep
  obtain rfl := Option.some.inj hstep
  refine h.moved hcache (others_goto rfl fun _ _ _ => id) rfl rfl (by rw [hjob, hact]; rfl) ?_ ?_
  · simp [IcacheState.goto, heldBy]
  · simpa [ProcOk, IcacheState.goto] using hmem

/-- `t` changes an entry, and moves on. -/
def goOn (s : UseState T) (t : T) (i : Fin ninode) (g : Inode T → Inode T)
    (j : Option (Fin ninode × UseStage)) (a : InodeAct) : UseState T :=
  ⟨(s.cache.modify i g).goto t a, Function.update s.job t j⟩

section GoOn

variable {g : Inode T → Inode T} {j : Option (Fin ninode × UseStage)} {a : InodeAct}

@[simp] theorem goOn_inode : (s.goOn t i g j a).cache.inodes i = g (s.cache.inodes i) :=
  IcacheState.modify_self _ _ _

@[simp] theorem goOn_job : (s.goOn t i g j a).job t = j := Function.update_self _ _ _

@[simp] theorem goOn_act : (s.goOn t i g j a).cache.act t = a := Function.update_self _ _ _

@[simp] theorem goOn_refs : (s.goOn t i g j a).cache.refs = s.cache.refs := rfl

theorem goOn_onDisk (s : UseState T) (hg : ∀ x, (g x).dev = x.dev ∧ (g x).inum = x.inum) :
    (s.goOn t i g j a).cache.onDisk i = s.cache.onDisk i := by
  rw [IcacheState.onDisk, IcacheState.onDisk, goOn_inode, (hg _).1, (hg _).2]
  rfl

theorem goOn_others : Others s (s.goOn t i g j a) t := others_goto rfl fun _ _ _ => id

theorem Inv.goOn (h : Inv s) (hcache : (s.goOn t i g j a).cache.CacheOk)
    (hold : ∀ k, heldBy (s.job t) (s.cache.act t) = some k → k = i)
    (hnew : ∀ k, heldBy j a = some k → k = i) (hentry : (s.goOn t i g j a).EntryOk i)
    (hproc : (s.goOn t i g j a).ProcOk t)
    (hvalid : (s.cache.inodes i).valid = true → (g (s.cache.inodes i)).valid = true ∨
      heldBy (s.job t) (s.cache.act t) = some i) : Inv (s.goOn t i g j a) := by
  refine h.modify hcache goOn_others i rfl rfl hold (by simpa using hnew) hentry hproc
    fun u hu hjob => ?_
  have hproc' := h.procs u
  rw [ProcOk, hjob] at hproc'
  refine (hvalid hproc'.2.2).resolve_right fun hheld => hu ?_
  -- a process that uses the entry holds it
  exact (h.entries i).sole hheld (by rw [hjob]; rfl)

/-- Taking and giving back a sleeplock leaves the fields of the entry as they are. -/
theorem EntryOk.clean_relock (h : s.EntryOk i) (lock : Option T)
    (hdirty : dirtiedBy (s.job t) (s.cache.act t) = none) :
    let s' := s.goOn t i (fun x => { x with lock := lock }) j a
    0 < (s'.cache.inodes i).ref → (s'.cache.inodes i).valid = true →
      (∀ u, dirtiedBy (s'.job u) (s'.cache.act u) ≠ some i) →
        (s'.cache.inodes i).copy = s'.cache.onDisk i := by
  intro s' href hvalid hnone
  have hdisk : s'.cache.onDisk i = s.cache.onDisk i := s.goOn_onDisk fun _ => ⟨rfl, rfl⟩
  have hinode : s'.cache.inodes i = { s.cache.inodes i with lock := lock } := goOn_inode
  have ho : Others s s' t := goOn_others
  rw [hinode] at href hvalid ⊢
  rw [hdisk]
  refine h.clean href hvalid fun u hd => ?_
  by_cases hu : u = t
  · rw [hu, hdirty] at hd
    cases hd
  · exact hnone u (by rw [ho.job u hu, ho.act u hu]; exact hd)

/-- The sleeplock of an entry taken. -/
theorem EntryOk.acquire (h : s.EntryOk i) (hfree : (s.cache.inodes i).lock = none)
    (hheld : heldBy j a = some i) (hdirty : dirtiedBy (s.job t) (s.cache.act t) = none) :
    (s.goOn t i (fun x => { x with lock := some t }) j a).EntryOk i where
  lock u := by
    rw [goOn_inode]
    by_cases hu : u = t
    · rw [hu, goOn_job, goOn_act, hheld]
      simp
    · rw [goOn_others.job u hu, goOn_others.act u hu, ← h.lock u, hfree]
      simp [Ne.symm hu]
  clean := h.clean_relock (some t) hdirty

/-- The sleeplock of an entry given back. -/
theorem EntryOk.release (h : s.EntryOk i) (hold : heldBy (s.job t) (s.cache.act t) = some i)
    (hheld : heldBy j a = none) (hdirty : dirtiedBy (s.job t) (s.cache.act t) = none) :
    (s.goOn t i (fun x => { x with lock := none }) j a).EntryOk i where
  lock u := by
    rw [goOn_inode]
    refine ⟨fun hlock => (by cases hlock), fun hu => ?_⟩
    by_cases hut : u = t
    · rw [hut, goOn_job, goOn_act, hheld] at hu
      cases hu
    · rw [goOn_others.job u hut, goOn_others.act u hut] at hu
      exact absurd (h.sole hold hu) hut
  clean := h.clean_relock none hdirty

end GoOn

omit [DecidableEq T] in
/-- The end of `inode_lock`. -/
theorem inodeLoad_cases (c : IcacheState T) (i : Fin ninode) (null : Bool) :
    (c.inodeLoad i null = c.modify i id ∧ ((c.inodes i).valid = true ∨ null = true)) ∨
      c.inodeLoad i null = c.modify i fun x => { x with copy := c.onDisk i, valid := true } := by
  have hid : c.modify i id = c := by
    rw [IcacheState.modify, id_eq, Function.update_eq_self]
  rw [hid]
  unfold IcacheState.inodeLoad
  cases hvalid : (c.inodes i).valid
  · cases null
    · exact .inr rfl
    · exact .inl ⟨rfl, .inr rfl⟩
  · exact .inl ⟨rfl, .inl rfl⟩

/-- `inode_unlock` by the process that holds the inode. -/
theorem inodeUnlock_held {c : IcacheState T} (hlock : (c.inodes i).lock = some t)
    (hpos : 0 < (c.inodes i).ref) :
    c.inodeUnlock t i = c.modify i fun x => { x with lock := none } := by
  rw [IcacheState.inodeUnlock, if_neg]
  rintro (hother | hzero)
  · exact hother hlock
  · omega

/-- The end of `inode_lock` leaves an entry that its process holds in order. -/
theorem EntryOk.load (h : s.EntryOk i) {g : Inode T → Inode T}
    {j : Option (Fin ninode × UseStage)} {a : InodeAct}
    (hg : g = id ∨ g = fun x => { x with copy := s.cache.onDisk i, valid := true })
    (hheld : heldBy j a = heldBy (s.job t) (s.cache.act t))
    (hdirty : dirtiedBy (s.job t) (s.cache.act t) = none) : (s.goOn t i g j a).EntryOk i := by
  rcases hg with rfl | rfl
  · refine h.keep goOn_others ⟨_, goOn_inode, id⟩ (fun _ => s.goOn_onDisk fun _ => ⟨rfl, rfl⟩)
      (by rw [goOn_job, goOn_act, hheld]) fun hd => ?_
    rw [hdirty] at hd
    cases hd
  · refine h.change goOn_others (by rw [goOn_inode]) (by rw [goOn_job, goOn_act, hheld])
      fun _ _ _ => ?_
    rw [goOn_inode, s.goOn_onDisk]
    exact fun _ => ⟨rfl, rfl⟩

/-- `t`, which holds the sleeplock, comes to the end of `inode_lock`. -/
theorem Inv.loaded (h : Inv s) {null : Bool} {j : Option (Fin ninode × UseStage)} {a : InodeAct}
    (hcache : ((s.cache.inodeLoad i null).goto t a).CacheOk)
    (hheld : heldBy (s.job t) (s.cache.act t) = some i)
    (hdirty : dirtiedBy (s.job t) (s.cache.act t) = none) (hnew : heldBy j a = some i)
    (hproc : ∀ g : Inode T → Inode T, ((s.cache.inodes i).valid = true ∨ null = false →
      (g (s.cache.inodes i)).valid = true) → (s.goOn t i g j a).ProcOk t) :
    Inv ⟨(s.cache.inodeLoad i null).goto t a, Function.update s.job t j⟩ := by
  have hold : ∀ k, heldBy (s.job t) (s.cache.act t) = some k → k = i := fun k hk =>
    Option.some.inj (hk.symm.trans hheld)
  have hnew' : ∀ k, heldBy j a = some k → k = i := fun k hk =>
    Option.some.inj (hk.symm.trans hnew)
  have hsameHeld := hnew.trans hheld.symm
  rcases inodeLoad_cases s.cache i null with ⟨hsame, hwhy⟩ | hload
  · rw [hsame] at hcache ⊢
    refine Inv.goOn h hcache hold hnew' ((h.entries i).load (.inl rfl) hsameHeld hdirty)
      (hproc id fun hv => ?_) .inl
    rcases hv with hvalid | rfl
    · exact hvalid
    · exact hwhy.resolve_right Bool.false_ne_true
  · rw [hload] at hcache ⊢
    exact Inv.goOn (g := fun x => { x with copy := s.cache.onDisk i, valid := true }) h hcache
      hold hnew' ((h.entries i).load (.inr rfl) hsameHeld hdirty) (hproc _ fun _ => rfl)
      fun _ => .inl rfl

/-- `t` goes on in `inode_lock`. -/
theorem Inv.entering (h : Inv s) {null : Bool} (hjob : s.job t = some (i, .entering))
    (hanswer : s.Answered (.next t null))
    (hs : s.call t (.next t null)
      (some (i, if s.cache.act t = .loading i then .inUse else .entering)) = some s') :
    Inv s' := by
  obtain ⟨c, hstep, rfl⟩ := Option.map_eq_some_iff.mp hs
  have hcache := h.cache.step hstep
  have hdirty : dirtiedBy (s.job t) (s.cache.act t) = none := by
    rw [hjob]
    rfl
  have hproc := h.procs t
  rw [ProcOk, hjob] at hproc
  obtain ⟨hmem, hact | hact⟩ := hproc
  · -- `sleeplock_acquire`
    have hno : ¬ s.cache.act t = .loading i := by
      rw [hact]
      exact fun he => by cases he
    simp only [IcacheState.step, hact] at hstep
    obtain ⟨c', hlock, rfl⟩ := Option.map_eq_some_iff.mp hstep
    obtain ⟨hfree, ⟨⟩⟩ := Option.ite_none_right_eq_some.mp hlock
    rw [if_neg hno]
    refine Inv.goOn (g := fun x => { x with lock := some t }) h hcache (fun k hk => ?_)
      (fun k hk => (Option.some.inj hk).symm) ((h.entries i).acquire hfree rfl hdirty) ?_ .inl
    · rw [hjob, hact] at hk
      cases hk
    · rw [ProcOk, goOn_job, goOn_act]
      exact ⟨hmem, .inr rfl⟩
  · -- the test of `valid`
    have hheld : heldBy (s.job t) (s.cache.act t) = some i := by
      rw [hjob, hact]
      rfl
    simp only [IcacheState.step, hact, Option.some.injEq] at hstep
    subst hstep
    rw [if_pos hact]
    have hanswered : (s.cache.inodes i).valid = true ∨ null = false := by
      cases hnull : null with
      | true => exact .inl (hanswer i hact hnull)
      | false => exact .inr rfl
    refine h.loaded hcache hheld hdirty rfl fun g hg => ?_
    rw [ProcOk, goOn_job, goOn_act]
    exact ⟨hmem, rfl, by rw [goOn_inode]; exact hg hanswered⟩

omit [DecidableEq T] in
/-- `inode_update` stores the fields of the entry, and changes no other inode in use. -/
theorem inodeUpdate_onDisk {c : IcacheState T} (hc : c.CacheOk) (hi : 0 < (c.inodes i).ref)
    (null : Bool) : (c.inodeUpdate i null).inodes = c.inodes ∧
      (c.inodeUpdate i null).act = c.act ∧ (c.inodeUpdate i null).refs = c.refs ∧
      (null = false → (c.inodeUpdate i null).onDisk i = (c.inodes i).copy) ∧
      (null = true → (c.inodeUpdate i null).onDisk i = c.onDisk i) ∧
      ∀ k, k ≠ i → 0 < (c.inodes k).ref → (c.inodeUpdate i null).onDisk k = c.onDisk k := by
  cases null with
  | true => exact ⟨rfl, rfl, rfl, fun h => (by cases h), fun _ => rfl, fun _ _ _ => rfl⟩
  | false =>
    refine ⟨rfl, rfl, rfl, fun _ => ?_, fun h => (by cases h), fun k hk hpos => ?_⟩
    · simp [IcacheState.onDisk, IcacheState.inodeUpdate]
    · have hkey : c.key k ≠ c.key i := fun he => hk (hc.oneEntry k i hpos hi he)
      rw [IcacheState.onDisk, IcacheState.inodeUpdate, if_neg Bool.false_ne_true]
      by_cases hdev : (c.inodes k).dev = (c.inodes i).dev
      · have hinum : (c.inodes k).inum ≠ (c.inodes i).inum := fun he =>
          hkey (Prod.ext hdev he)
        simp [hdev, Function.update_of_ne hinum, IcacheState.onDisk]
      · simp [Function.update_of_ne hdev, IcacheState.onDisk]

omit [DecidableEq T] in
/-- An `inode_update` by the process that holds the inode. -/
theorem Inv.updated (h : Inv s) (null : Bool) (hpos : 0 < (s.cache.inodes i).ref)
    (hcache : s'.cache.CacheOk) (ho : Others s s' t)
    (hinodes : s'.cache.inodes = (s.cache.inodeUpdate i null).inodes)
    (hdisk : s'.cache.disk = (s.cache.inodeUpdate i null).disk)
    (hold : heldBy (s.job t) (s.cache.act t) = some i)
    (hnew : heldBy (s'.job t) (s'.cache.act t) = some i)
    (hclean : dirtiedBy (s'.job t) (s'.cache.act t) ≠ some i → null = true →
      (s.cache.inodes i).copy = s.cache.onDisk i)
    (hproc : s'.ProcOk t) : Inv s' := by
  obtain ⟨hsame, -, -, hstored, hlost, hothers⟩ := inodeUpdate_onDisk h.cache hpos null
  rw [hsame] at hinodes
  have hon : ∀ k, s'.cache.onDisk k = (s.cache.inodeUpdate i null).onDisk k := fun k => by
    rw [IcacheState.onDisk, IcacheState.onDisk, hdisk, hinodes, hsame]
  refine h.of hcache ho i (fun k _ => by rw [hinodes]) (fun k hk hk' => ?_)
    (fun k hk => Option.some.inj (hk.symm.trans hold))
    (fun k hk => Option.some.inj (hk.symm.trans hnew)) ?_ hproc fun u hu hjob => ?_
  · rw [hon, hothers k hk hk']
  · refine (h.entries i).change ho (by rw [hinodes]) (by rw [hold, hnew]) fun _ _ hnone => ?_
    rw [hinodes, hon]
    cases hnull : null with
    | false => rw [← hnull, hstored hnull]
    | true => rw [← hnull, hlost hnull, hclean (hnone t) hnull]
  · exact absurd ((h.entries i).sole hold (by rw [hjob]; rfl)) hu

/-- The end of `inode_put`. -/
theorem Inv.dropped (h : Inv s) {puts : List (T × Fin ninode)}
    (hcache : (({ s.cache.modify i fun x => { x with ref := x.ref - 1 } with
      puts := puts } : IcacheState T).goto t .idle).CacheOk) (hjob : s.job t = none)
    (hact : s.cache.act t = .putting i .drop) (hpos : 0 < (s.cache.inodes i).ref) :
    Inv ⟨({ s.cache.modify i fun x => { x with ref := x.ref - 1 } with
      puts := puts } : IcacheState T).goto t .idle, Function.update s.job t none⟩ := by
  have ho : Others s ⟨({ s.cache.modify i fun x => { x with ref := x.ref - 1 } with
      puts := puts } : IcacheState T).goto t .idle, Function.update s.job t none⟩ t :=
    others_goto rfl fun _ _ _ => id
  refine h.modify (g := fun x => { x with ref := x.ref - 1 }) hcache ho i rfl rfl (fun k hk => ?_)
    (fun k hk => ?_) ?_ ?_ fun u _ hu => ?_
  · rw [hjob, hact] at hk
    cases hk
  · simp [IcacheState.goto, heldBy] at hk
  · refine (h.entries i).keep ho ⟨(s.cache.inodes i).ref - 1,
      s.cache.modify_self i fun x => { x with ref := x.ref - 1 }, fun _ => hpos⟩ (fun _ => ?_)
      ?_ fun hd => ?_
    · simp [IcacheState.onDisk, IcacheState.goto, IcacheState.modify]
    · rw [hjob, hact]
      simp [IcacheState.goto, heldBy, PutStage.locked]
    · rw [hjob, hact] at hd
      cases hd
  · simp [ProcOk, IcacheState.goto]
  · have hproc := h.procs u
    rw [ProcOk, hu] at hproc
    exact hproc.2.2

/-- `t` goes on in `inode_put`. -/
theorem Inv.putting (h : Inv s) {null : Bool} (hjob : s.job t = none)
    (hs : s.call t (.next t null) none = some s') : Inv s' := by
  obtain ⟨c, hstep, rfl⟩ := Option.map_eq_some_iff.mp hs
  have hcache := h.cache.step hstep
  have hproc := h.procs t
  rw [ProcOk, hjob] at hproc
  rcases hproc with hact | ⟨i, st, hact⟩
  · simp [IcacheState.step, hact] at hstep
  have hput : (t, i) ∈ s.cache.puts := (h.cache.putting t i).mpr (by rw [hact]; rfl)
  have hpos : 0 < (s.cache.inodes i).ref := by
    rw [h.cache.counted]
    exact Nat.add_pos_right _ (handlesOf_pos.mpr ⟨t, hput⟩)
  have hprocOk : ∀ g st', (s.goOn t i g none (.putting i st')).ProcOk t := fun g st' => by
    rw [ProcOk, goOn_job, goOn_act]
    exact .inr ⟨i, st', rfl⟩
  have hold : ∀ k, heldBy (s.job t) (s.cache.act t) = some k → k = i := fun k hk => by
    rw [hjob, hact] at hk
    exact (Option.some.inj (Option.ite_none_right_eq_some.mp hk).2).symm
  have hnew : ∀ st' k, heldBy none (.putting i st') = some k → k = i := fun st' k hk =>
    (Option.some.inj (Option.ite_none_right_eq_some.mp hk).2).symm
  simp only [IcacheState.step, hact] at hstep
  cases st with
  | enter =>
    obtain rfl := Option.some.inj hstep
    rw [if_neg (by omega)] at hcache ⊢
    refine h.moved hcache (others_goto rfl fun _ _ _ => id) rfl rfl (by rw [hjob, hact]; rfl) ?_ ?_
    · simp [IcacheState.goto, heldBy, PutStage.locked]
    · simp [ProcOk, IcacheState.goto]
  | lock =>
    obtain ⟨c', hlock, rfl⟩ := Option.map_eq_some_iff.mp hstep
    obtain ⟨hfree, ⟨⟩⟩ := Option.ite_none_right_eq_some.mp hlock
    exact Inv.goOn (g := fun x => { x with lock := some t }) h hcache hold (hnew _)
      ((h.entries i).acquire hfree rfl (by rw [hjob, hact]; rfl)) (hprocOk _ _) .inl
  | load =>
    obtain rfl := Option.some.inj hstep
    exact h.loaded hcache (by rw [hjob, hact]; rfl) (by rw [hjob, hact]; rfl) rfl
      fun g _ => hprocOk g _
  | clear =>
    obtain rfl := Option.some.inj hstep
    refine Inv.goOn (g := fun x => { x with copy := { x.copy with type := 0 } }) h hcache hold
      (hnew _) ((h.entries i).change goOn_others (by rw [goOn_inode]) ?_ fun _ _ hnone => ?_)
      (hprocOk _ _) .inl
    · rw [goOn_job, goOn_act, hjob, hact]
      rfl
    · exact absurd (by rw [goOn_job, goOn_act]; rfl) (hnone t)
  | write =>
    obtain rfl := Option.some.inj hstep
    obtain ⟨-, hact', hrefs, -⟩ := inodeUpdate_onDisk h.cache hpos null
    have ho : Others s ⟨(s.cache.inodeUpdate i null).goto t (.putting i .invalidate),
        Function.update s.job t none⟩ t := others_goto hact' fun _ _ _ hk => hrefs.symm ▸ hk
    refine h.updated (i := i) null hpos hcache ho rfl rfl (by rw [hjob, hact]; rfl) ?_
      (fun hclean => ?_) ?_
    · simp [IcacheState.goto, heldBy, PutStage.locked]
    · simp [IcacheState.goto, dirtiedBy, PutStage.dirty] at hclean
    · simp [ProcOk, IcacheState.goto]
  | invalidate =>
    obtain rfl := Option.some.inj hstep
    refine Inv.goOn (g := fun x => { x with valid := false }) h hcache hold (hnew _)
      ((h.entries i).change goOn_others (by rw [goOn_inode]) ?_ fun _ hvalid _ => ?_)
      (hprocOk _ _) fun _ => .inr (by rw [hjob, hact]; rfl)
    · rw [goOn_job, goOn_act, hjob, hact]
      rfl
    · rw [goOn_inode] at hvalid
      cases hvalid
  | unlock =>
    obtain rfl := Option.some.inj hstep
    have hheld : heldBy (s.job t) (s.cache.act t) = some i := by
      rw [hjob, hact]
      rfl
    rw [inodeUnlock_held (((h.entries i).lock t).mpr hheld) hpos] at hcache ⊢
    exact Inv.goOn h hcache hold (hnew _)
      ((h.entries i).release hheld rfl (by rw [hjob, hact]; rfl)) (hprocOk _ _) .inl
  | drop =>
    obtain rfl := Option.some.inj hstep
    exact h.dropped hcache hjob hact hpos

/-- A step of `t` in a job that leaves its point in the cache. -/
theorem goOn_idle {c : IcacheState T} {g : Inode T → Inode T}
    {j : Option (Fin ninode × UseStage)} (hact : s.cache.act t = .idle)
    (hc : c = s.cache.modify i g) : (⟨c, Function.update s.job t j⟩ : UseState T)
      = s.goOn t i g j .idle := by
  have hself : Function.update (s.cache.modify i g).act t .idle = (s.cache.modify i g).act := by
    rw [IcacheState.modify_act, ← hact, Function.update_eq_self]
  rw [hc, UseState.goOn, IcacheState.goto, hself]

/-- The end of the loop of `inode_write`. -/
theorem Inv.grow (h : Inv s) {off : BitVec 32} (hjob : s.job t = some (i, .inUse))
    (hs : s.call t (.edit t i (Wal.grown (s.cache.inodes i).copy off)) (some (i, .changed))
      = some s') : Inv s' := by
  obtain ⟨c, hstep, rfl⟩ := Option.map_eq_some_iff.mp hs
  have hcache := h.cache.step hstep
  obtain ⟨⟨hact, -⟩, hc⟩ := Option.ite_none_right_eq_some.mp hstep
  have hproc := h.procs t
  rw [ProcOk, hjob] at hproc
  have heq := s.goOn_idle (j := some (i, .changed)) hact (Option.some.inj hc).symm
  rw [heq]
  refine Inv.goOn h (heq ▸ hcache) (fun k hk => ?_) (fun k hk => (Option.some.inj hk).symm)
    ((h.entries i).change goOn_others (by rw [goOn_inode]) ?_ fun _ _ hnone => ?_) ?_ .inl
  · rw [hjob] at hk
    exact (Option.some.inj hk).symm
  · rw [goOn_job, goOn_act, hjob]
    rfl
  · exact absurd (by rw [goOn_job, goOn_act]; rfl) (hnone t)
  · rw [ProcOk, goOn_job, goOn_act]
    exact ⟨hproc.1, rfl⟩

/-- `inode_update` in `inode_write`. -/
theorem Inv.inodeUpdate (h : Inv s) {null : Bool} (hjob : s.job t = some (i, .changed))
    (hanswer : s.Answered (.inodeUpdate t null))
    (hs : s.call t (.inodeUpdate t i null) (some (i, .leaving)) = some s') : Inv s' := by
  obtain ⟨c, hstep, rfl⟩ := Option.map_eq_some_iff.mp hs
  have hcache := h.cache.step hstep
  obtain ⟨hact, ⟨⟩⟩ := Option.ite_none_right_eq_some.mp hstep
  have hproc := h.procs t
  rw [ProcOk, hjob] at hproc
  obtain ⟨-, hact', hrefs, -⟩ := inodeUpdate_onDisk h.cache (h.cache.ref_pos hproc.1) null
  refine h.updated (i := i) (t := t) null (h.cache.ref_pos hproc.1) hcache
    ⟨fun u hu => Function.update_of_ne hu _ _, fun u _ => congrFun hact' u,
      fun u _ k hk => ?_⟩ rfl rfl (by rw [hjob]; rfl) ?_ (fun _ hnull => hanswer i hjob hnull) ?_
  · rw [← hrefs] at hk
    exact hk
  · simp [heldBy]
  · rw [ProcOk]
    dsimp only
    rw [Function.update_self, hrefs, hact']
    exact hproc

/-- `inode_unlock`. -/
theorem Inv.inodeUnlock (h : Inv s) {st : UseStage} (hjob : s.job t = some (i, st))
    (hst : st = .inUse ∨ st = .leaving)
    (hs : s.call t (.inodeUnlock t i) none = some s') : Inv s' := by
  obtain ⟨c, hstep, rfl⟩ := Option.map_eq_some_iff.mp hs
  have hcache := h.cache.step hstep
  obtain ⟨hact, hc⟩ := Option.ite_none_right_eq_some.mp hstep
  have hmem : (t, i) ∈ s.cache.refs := by
    have hproc := h.procs t
    rw [ProcOk, hjob] at hproc
    rcases hst with rfl | rfl
    · exact hproc.1
    · exact hproc.1
  have hheld : heldBy (s.job t) (s.cache.act t) = some i := by
    rw [hjob]
    rcases hst with rfl | rfl
    all_goals rfl
  have hdirty : dirtiedBy (s.job t) (s.cache.act t) = none := by
    rw [hjob]
    rcases hst with rfl | rfl
    all_goals rfl
  rw [inodeUnlock_held (((h.entries i).lock t).mpr hheld) (h.cache.ref_pos hmem)] at hc
  have heq := s.goOn_idle (j := none) hact (Option.some.inj hc).symm
  rw [heq]
  refine Inv.goOn h (heq ▸ hcache) (fun k hk => Option.some.inj (hk.symm.trans hheld))
    (fun k hk => by cases hk) ((h.entries i).release hheld rfl hdirty) ?_ .inl
  rw [ProcOk, goOn_job, goOn_act]
  exact .inl rfl

/-- **One step** that meets the condition. -/
theorem Inv.step {op : UseOp T} (h : Inv s) (hanswer : s.Answered op)
    (hs : s.step op = some s') : Inv s' := by
  cases op with
  | inodeGet t dev inum =>
    obtain ⟨hjob, hs⟩ := Option.ite_none_right_eq_some.mp hs
    exact h.inodeGet hjob hs
  | inodeDup t i u =>
    obtain ⟨hjob, hs⟩ := Option.ite_none_right_eq_some.mp hs
    exact h.inodeDup hjob hs
  | inodePut t i =>
    obtain ⟨hjob, hs⟩ := Option.ite_none_right_eq_some.mp hs
    exact h.inodePut hjob hs
  | inodeLock t i =>
    obtain ⟨⟨hjob, hrefs⟩, hs⟩ := Option.ite_none_right_eq_some.mp hs
    exact h.inodeLock hjob (List.contains_iff_mem.mp hrefs) hs
  | next t null =>
    rw [UseState.step] at hs
    split at hs
    case h_1 hjob => exact h.putting hjob hs
    case h_2 i hjob => exact h.entering hjob hanswer hs
    case h_3 => cases hs
  | grow t off =>
    rw [UseState.step] at hs
    split at hs
    case h_1 i hjob => exact h.grow hjob hs
    case h_2 => cases hs
  | inodeUpdate t null =>
    rw [UseState.step] at hs
    split at hs
    case h_1 i hjob => exact h.inodeUpdate hjob hanswer hs
    case h_2 => cases hs
  | inodeUnlock t =>
    rw [UseState.step] at hs
    split at hs
    case h_1 i hjob => exact h.inodeUnlock hjob (.inl rfl) hs
    case h_2 i hjob => exact h.inodeUnlock hjob (.inr rfl) hs
    case h_3 => cases hs

/-! ## 4. Any run -/

omit [DecidableEq T] in
theorem init_inv (disk : BitVec 32 → BitVec 32 → Dinode) : Inv (init disk : UseState T) where
  cache := IcacheState.init_ok disk
  entries i := ⟨fun t => ⟨fun h => (by cases h), fun h => (by cases h)⟩,
    fun h => absurd h (Nat.lt_irrefl 0)⟩
  procs t := .inl rfl

/-- **What a locked inode is used for is on the disk**, in every run of any number of processes in
which `block_read` does not fail where `inode_lock` or `inode_update` needs it. -/
theorem always_fresh (disk : BitVec 32 → BitVec 32 → Dinode) (ops : List (UseOp T))
    (h : EachStep step Answered (init disk) ops) : Always step Fresh (init disk) ops :=
  Always.mono (fun _ hs => hs.fresh)
    (always_of_eachStep (fun _ _ _ hs hop hstep => hs.step hop hstep) ops _ (init_inv disk) h)

/-- Files of as many bytes as their number says. -/
def numberedDisk : BitVec 32 → BitVec 32 → Dinode := fun _ inum => ⟨2, 0, 0, 1, inum, fun _ => 0⟩

/-- One process uses the inode 1, in the entry `i`, and puts it, and gets and locks the inode 2, in
the same entry. -/
def useTwo (i : Fin ninode) (null : Bool) : List (UseOp Nat) :=
  [.inodeGet 0 1 1, .inodeLock 0 i, .next 0 false, .next 0 false, .inodeUnlock 0, .inodePut 0 i,
    .inodeGet 0 1 2, .inodeLock 0 i, .next 0 false, .next 0 null]

theorem always_fresh_useTwo : Always step Fresh (init numberedDisk) (useTwo 0 false) := by
  refine always_fresh numberedDisk (useTwo 0 false) (eachStep_of_labels fun op hop s => ?_)
  simp only [useTwo, List.mem_cons, List.not_mem_nil, or_false] at hop
  rcases hop with rfl | rfl | rfl | rfl | rfl | rfl | rfl | rfl | rfl | rfl
  all_goals first | trivial | exact fun _ _ hnull => by cases hnull

/-- The last `block_read` returns `NULL`, and the size of the inode 1 is used for the inode 2. -/
theorem stale_fields_used : ¬ Always step Fresh (init numberedDisk) (useTwo 0 true) := by
  intro h
  have hrun : (run step (init numberedDisk) (useTwo 0 true)).map (fun s =>
      (s.job 0, (s.cache.inodes 0).copy.size, (s.cache.onDisk 0).size))
        = some (some (0, .inUse), 1, 2) := by
    decide +kernel
  obtain ⟨s, hs, hend⟩ := Option.map_eq_some_iff.mp hrun
  obtain ⟨hjob, hsizes⟩ := Prod.mk.inj hend
  obtain ⟨hcopy, hdisk⟩ := Prod.mk.inj hsizes
  have hfresh := (always_iff_forall_part _ _).mp h _ s List.prefix_rfl hs 0 0 hjob
  rw [hfresh, hdisk] at hcopy
  exact absurd hcopy (by decide)

end UseState

end Lithium
