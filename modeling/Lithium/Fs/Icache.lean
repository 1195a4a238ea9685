/-
# The inode cache

`inode.c` for any number of processes: fifty inodes in memory, each with its sleeplock, and the
inodes on the disk.  A section under `icache.lock` is one step, and so is each access to the disk,
which the buffer of the block protects; of a sleeplock only the owner matters.

`inode_put` gives `icache.lock` back between its test `ref == 1 && valid && nlink == 0` and the
`ref--` at its end, and frees the inode in between.
-/
import Lithium.Fs.Inode
import Lithium.Lib.Handles
import Lithium.Lib.Transition
import Mathlib.Data.List.FinRange

namespace Lithium

open Transition

/-! ## 1. Data -/

/-- `NINODE`. -/
abbrev ninode : Nat := 50

/-- `struct inode`: `lock` is the process that holds the sleeplock, `copy` the fields read from the
disk, and `ref` counts without bound. -/
structure Inode (T : Type*) where
  dev : BitVec 32
  inum : BitVec 32
  ref : Nat
  lock : Option T
  valid : Bool
  copy : Dinode

/-- Where `inode_put` is after it has found that the inode is to be freed. -/
inductive PutStage where
  /-- In `inode_lock`, before its test of `ref`. -/
  | enter
  /-- In `sleeplock_acquire`. -/
  | lock
  /-- In `inode_lock`, before its test of `valid`. -/
  | load
  /-- Before `ip->type = 0`. -/
  | clear
  /-- Before `inode_update`. -/
  | write
  /-- Before `ip->valid = 0`. -/
  | invalidate
  /-- Before `inode_unlock`. -/
  | unlock
  /-- Before the section with `ref--`. -/
  | drop
  deriving DecidableEq

/-- Where a process is in `inode.c`. -/
inductive InodeAct where
  | idle
  /-- In `inode_lock`, in `sleeplock_acquire`. -/
  | locking (i : Fin ninode)
  /-- In `inode_lock`, before its test of `valid`. -/
  | loading (i : Fin ninode)
  /-- In `inode_put`. -/
  | putting (i : Fin ninode) (st : PutStage)
  deriving DecidableEq

/-- The cache, the inodes on the disk, where each process is, the references the processes hold,
and those of them that an `inode_put` is about to drop. -/
structure IcacheState (T : Type*) where
  inodes : Fin ninode → Inode T
  disk : BitVec 32 → BitVec 32 → Dinode
  act : T → InodeAct
  refs : List (T × Fin ninode)
  puts : List (T × Fin ninode)

/-- What happens next. -/
inductive InodeOp (T : Type*) where
  | inodeGet (t : T) (dev inum : BitVec 32)
  /-- `t` calls `inode_dup` on an inode it holds, for itself or for another process `u`. -/
  | inodeDup (t : T) (i : Fin ninode) (u : T)
  | inodeLock (t : T) (i : Fin ninode)
  | inodeUnlock (t : T) (i : Fin ninode)
  /-- `t`, which has locked the inode, changes its fields. -/
  | edit (t : T) (i : Fin ninode) (copy : Dinode)
  /-- `inode_update`; `null` when `block_read` fails. -/
  | inodeUpdate (t : T) (i : Fin ninode) (null : Bool)
  /-- `t` calls `inode_put` for a reference it holds. -/
  | inodePut (t : T) (i : Fin ninode)
  /-- `t` goes on in `inode_lock` or `inode_put`; `null` when `block_read` fails. -/
  | next (t : T) (null : Bool)

/-- `inode_put` has still to write the inode. -/
def PutStage.beforeWrite : PutStage → Bool
  | .enter | .lock | .load | .clear | .write => true
  | _ => false

/-- The entry whose reference a process is about to drop. -/
def InodeAct.puts : InodeAct → Option (Fin ninode)
  | .putting i _ => some i
  | _ => none

/-- The entry that a process has found to be unlinked, and has still to free on the disk. -/
def InodeAct.frees : InodeAct → Option (Fin ninode)
  | .putting i st => if st.beforeWrite then some i else none
  | _ => none

namespace IcacheState

variable {T : Type*}

/-! ## 2. `inode.c` -/

/-- The hit of the loop of `inode_get`. -/
def findEntry (s : IcacheState T) (dev inum : BitVec 32) : Option (Fin ninode) :=
  (List.finRange ninode).find? fun i =>
    0 < (s.inodes i).ref && (s.inodes i).dev == dev && (s.inodes i).inum == inum

/-- The entry the loop leaves in `empty`. -/
def findEmpty (s : IcacheState T) : Option (Fin ninode) :=
  (List.finRange ninode).find? fun i => (s.inodes i).ref == 0

/-- Change an entry. -/
def modify (s : IcacheState T) (i : Fin ninode) (g : Inode T → Inode T) : IcacheState T :=
  { s with inodes := Function.update s.inodes i (g (s.inodes i)) }

/-- `inode_get`; `none` for `NULL`. -/
def inodeGet (s : IcacheState T) (dev inum : BitVec 32) : Option (IcacheState T × Fin ninode) :=
  match s.findEntry dev inum with
  | some i => some (s.modify i fun x => { x with ref := x.ref + 1 }, i)
  | none =>
    match s.findEmpty with
    | some i =>
      some (s.modify i fun x => { x with dev := dev, inum := inum, ref := 1, valid := false }, i)
    | none => none

/-- `inode_update`. -/
def inodeUpdate (s : IcacheState T) (i : Fin ninode) (null : Bool) : IcacheState T :=
  if null then s
  else { s with
    disk := Function.update s.disk (s.inodes i).dev
      (Function.update (s.disk (s.inodes i).dev) (s.inodes i).inum (s.inodes i).copy) }

/-- The end of `inode_lock`: read the fields from the disk when they are not valid. -/
def inodeLoad (s : IcacheState T) (i : Fin ninode) (null : Bool) : IcacheState T :=
  if (s.inodes i).valid || null then s
  else s.modify i fun x => { x with copy := s.disk x.dev x.inum, valid := true }

/-- `ip->ref == 1 && ip->valid && ip->nlink == 0`. -/
def unlinked (s : IcacheState T) (i : Fin ninode) : Bool :=
  (s.inodes i).ref == 1 && (s.inodes i).valid && (s.inodes i).copy.nlink == 0

variable [DecidableEq T]

/-- Move `t` on. -/
def goto (s : IcacheState T) (t : T) (a : InodeAct) : IcacheState T :=
  { s with act := Function.update s.act t a }

/-- `inode_unlock`. -/
def inodeUnlock (s : IcacheState T) (t : T) (i : Fin ninode) : IcacheState T :=
  if (s.inodes i).lock ≠ some t ∨ (s.inodes i).ref < 1 then s
  else s.modify i fun x => { x with lock := none }

/-- `sleeplock_acquire`, when the lock is free. -/
def acquire (s : IcacheState T) (t : T) (i : Fin ninode) : Option (IcacheState T) :=
  if (s.inodes i).lock = none then some (s.modify i fun x => { x with lock := some t }) else none

/-- The next step of a process inside `inode_put`. -/
def putStep (s : IcacheState T) (t : T) (i : Fin ninode) (null : Bool) :
    PutStage → Option (IcacheState T)
  | .enter => some (s.goto t (.putting i (if (s.inodes i).ref < 1 then .clear else .lock)))
  | .lock => (s.acquire t i).map fun s => s.goto t (.putting i .load)
  | .load => some ((s.inodeLoad i null).goto t (.putting i .clear))
  | .clear =>
    some ((s.modify i fun x => { x with copy := { x.copy with type := 0 } }).goto t
      (.putting i .write))
  | .write => some ((s.inodeUpdate i null).goto t (.putting i .invalidate))
  | .invalidate => some ((s.modify i fun x => { x with valid := false }).goto t
      (.putting i .unlock))
  | .unlock => some ((s.inodeUnlock t i).goto t (.putting i .drop))
  | .drop =>
    some ({ s.modify i fun x => { x with ref := x.ref - 1 } with
      puts := s.puts.erase (t, i) }.goto t .idle)

/-- One step. -/
def step (s : IcacheState T) : InodeOp T → Option (IcacheState T)
  | .inodeGet t dev inum =>
    if s.act t = .idle then
      some ((s.inodeGet dev inum).elim s fun r => { r.1 with refs := (t, r.2) :: s.refs })
    else none
  | .inodeDup t i u =>
    if s.act t = .idle ∧ (t, i) ∈ s.refs then
      some { s.modify i fun x => { x with ref := x.ref + 1 } with refs := (u, i) :: s.refs }
    else none
  | .inodeLock t i =>
    if s.act t = .idle then
      some (if (s.inodes i).ref < 1 then s else s.goto t (.locking i))
    else none
  | .inodeUnlock t i => if s.act t = .idle then some (s.inodeUnlock t i) else none
  | .edit t i copy =>
    if s.act t = .idle ∧ (s.inodes i).lock = some t then
      some (s.modify i fun x => { x with copy := copy })
    else none
  | .inodeUpdate t i null => if s.act t = .idle then some (s.inodeUpdate i null) else none
  | .inodePut t i =>
    if s.act t = .idle ∧ (t, i) ∈ s.refs then
      if s.unlinked i then
        some ({ s with refs := s.refs.erase (t, i), puts := (t, i) :: s.puts }.goto t
          (.putting i .enter))
      else
        some { s.modify i fun x => { x with ref := x.ref - 1 } with
          refs := s.refs.erase (t, i) }
    else none
  | .next t null =>
    match s.act t with
    | .idle => none
    | .locking i => (s.acquire t i).map fun s => s.goto t (.loading i)
    | .loading i => some ((s.inodeLoad i null).goto t .idle)
    | .putting i st => s.putStep t i null st

/-- The cache that `inode_init` leaves, over any disk. -/
def init (disk : BitVec 32 → BitVec 32 → Dinode) : IcacheState T where
  inodes := fun _ =>
    { dev := 0, inum := 0, ref := 0, lock := none, valid := false,
      copy := ⟨0, 0, 0, 0, 0, fun _ => 0⟩ }
  disk := disk
  act := fun _ => .idle
  refs := []
  puts := []

/-! ## 3. What a step does to the references -/

variable {s s' : IcacheState T} {t u : T} {i j : Fin ninode}

omit [DecidableEq T] in
@[simp] theorem modify_self (s : IcacheState T) (i : Fin ninode) (g : Inode T → Inode T) :
    (s.modify i g).inodes i = g (s.inodes i) := by simp [modify]

omit [DecidableEq T] in
@[simp] theorem modify_act (s : IcacheState T) (i : Fin ninode) (g : Inode T → Inode T) :
    (s.modify i g).act = s.act := rfl

omit [DecidableEq T] in
@[simp] theorem modify_puts (s : IcacheState T) (i : Fin ninode) (g : Inode T → Inode T) :
    (s.modify i g).puts = s.puts := rfl

omit [DecidableEq T] in
@[simp] theorem modify_refs (s : IcacheState T) (i : Fin ninode) (g : Inode T → Inode T) :
    (s.modify i g).refs = s.refs := rfl

omit [DecidableEq T] in
theorem modify_of_ne (s : IcacheState T) {i j : Fin ninode} (h : j ≠ i) (g : Inode T → Inode T) :
    (s.modify i g).inodes j = s.inodes j := by simp [modify, Function.update_of_ne h]

/-- The key of an entry. -/
def key (s : IcacheState T) (i : Fin ninode) : BitVec 32 × BitVec 32 :=
  ((s.inodes i).dev, (s.inodes i).inum)

/-- What a step does to the references, one case for each way. -/
inductive Effect (s : IcacheState T) (op : InodeOp T) : IcacheState T → Prop
  /-- Nothing, and no process finds an inode unlinked. -/
  | quiet {s' : IcacheState T} (hkey : ∀ j, s'.key j = s.key j)
      (href : ∀ j, (s'.inodes j).ref = (s.inodes j).ref) (hrefs : s'.refs = s.refs)
      (hputs : s'.puts = s.puts) (hact : ∀ u, (s'.act u).puts = (s.act u).puts)
      (hfrees : ∀ u i, (s'.act u).frees = some i → (s.act u).frees = some i) : Effect s op s'
  /-- An entry in use is referred to once more, by `inode_get` or for somebody who holds it. -/
  | counted (t : T) (i : Fin ninode) (hpos : 0 < (s.inodes i).ref)
      (hwhy : (∃ u, (u, i) ∈ s.refs) ∨ ∃ u, op = .inodeGet u (s.key i).1 (s.key i).2) :
      Effect s op { s.modify i fun x => { x with ref := x.ref + 1 } with refs := (t, i) :: s.refs }
  /-- An entry not in use gets a key that no entry in use has. -/
  | taken (t : T) (i : Fin ninode) (dev inum : BitVec 32) (hzero : (s.inodes i).ref = 0)
      (hnew : ∀ j, 0 < (s.inodes j).ref → s.key j ≠ (dev, inum)) :
      Effect s op { s.modify i fun x =>
        { x with dev := dev, inum := inum, ref := 1, valid := false } with
        refs := (t, i) :: s.refs }
  /-- A reference is dropped at once. -/
  | dropped (t : T) (i : Fin ninode) (hti : (t, i) ∈ s.refs) :
      Effect s op { s.modify i fun x => { x with ref := x.ref - 1 } with
        refs := s.refs.erase (t, i) }
  /-- A reference is about to be dropped. -/
  | started (t : T) (i : Fin ninode) (hti : (t, i) ∈ s.refs) (hidle : s.act t = .idle)
      (hunlinked : s.unlinked i = true) :
      Effect s op ({ s with refs := s.refs.erase (t, i), puts := (t, i) :: s.puts }.goto t
        (.putting i .enter))
  /-- It is dropped. -/
  | finished (t : T) (i : Fin ninode) (hact : s.act t = .putting i .drop) :
      Effect s op ({ s.modify i fun x => { x with ref := x.ref - 1 } with
        puts := s.puts.erase (t, i) }.goto t .idle)

/-- `s'` differs from `s` in neither keys, counts, references nor the points of the processes. -/
structure Keeps (s s' : IcacheState T) : Prop where
  key : ∀ j, s'.key j = s.key j
  ref : ∀ j, (s'.inodes j).ref = (s.inodes j).ref
  refs : s'.refs = s.refs
  puts : s'.puts = s.puts
  act : s'.act = s.act

omit [DecidableEq T] in
theorem Keeps.refl (s : IcacheState T) : Keeps s s := ⟨fun _ => rfl, fun _ => rfl, rfl, rfl, rfl⟩

theorem Keeps.quiet {op : InodeOp T} (h : Keeps s s') : Effect s op s' :=
  .quiet h.key h.ref h.refs h.puts (fun u => by rw [h.act]) fun u i => by rw [h.act]; exact id

/-- Such a change, and another point for `t`. -/
theorem Keeps.goto {op : InodeOp T} {a : InodeAct} (h : Keeps s s')
    (ha : a.puts = (s.act t).puts) (hf : ∀ i, a.frees = some i → (s.act t).frees = some i) :
    Effect s op (s'.goto t a) := by
  refine .quiet h.key h.ref h.refs h.puts (fun u => ?_) fun u => ?_
  all_goals
    simp only [IcacheState.goto, h.act]
    by_cases hu : u = t
  · subst hu
    rw [Function.update_self, ha]
  · rw [Function.update_of_ne hu]
  · subst hu
    rw [Function.update_self]
    exact hf
  · rw [Function.update_of_ne hu]
    exact fun _ => id

omit [DecidableEq T] in
/-- A change of an entry that leaves its key. -/
theorem key_modify (s : IcacheState T) (i : Fin ninode) {g : Inode T → Inode T}
    (hg : ∀ x, (g x).dev = x.dev ∧ (g x).inum = x.inum) (j : Fin ninode) :
    (s.modify i g).key j = s.key j := by
  by_cases hj : j = i
  · subst hj
    obtain ⟨hdev, hinum⟩ := hg (s.inodes j)
    simp [IcacheState.key, hdev, hinum]
  · simp [IcacheState.key, modify_of_ne s hj]

omit [DecidableEq T] in
/-- A change of an entry that leaves its key and its references. -/
theorem modify_keeps (s : IcacheState T) (i : Fin ninode) {g : Inode T → Inode T}
    (hg : ∀ x, (g x).dev = x.dev ∧ (g x).inum = x.inum ∧ (g x).ref = x.ref) :
    Keeps s (s.modify i g) := by
  refine ⟨s.key_modify i fun x => ⟨(hg x).1, (hg x).2.1⟩, fun j => ?_, rfl, rfl, rfl⟩
  by_cases hj : j = i
  · subst hj
    simp [(hg (s.inodes j)).2.2]
  · simp [modify_of_ne s hj]

omit [DecidableEq T] in
theorem inodeUpdate_keeps (s : IcacheState T) (i : Fin ninode) (null : Bool) :
    Keeps s (s.inodeUpdate i null) := by
  unfold inodeUpdate
  split
  · exact .refl s
  · exact ⟨fun _ => rfl, fun _ => rfl, rfl, rfl, rfl⟩

omit [DecidableEq T] in
theorem inodeLoad_keeps (s : IcacheState T) (i : Fin ninode) (null : Bool) :
    Keeps s (s.inodeLoad i null) := by
  unfold inodeLoad
  split
  · exact .refl s
  · exact s.modify_keeps i (g := fun x => { x with copy := s.disk x.dev x.inum, valid := true })
      fun _ => ⟨rfl, rfl, rfl⟩

theorem inodeUnlock_keeps (s : IcacheState T) (t : T) (i : Fin ninode) :
    Keeps s (s.inodeUnlock t i) := by
  unfold inodeUnlock
  split
  · exact .refl s
  · exact s.modify_keeps i (g := fun x => { x with lock := none }) fun _ => ⟨rfl, rfl, rfl⟩

omit [DecidableEq T] in
theorem acquire_keeps (hs : s.acquire t i = some s') : Keeps s s' := by
  obtain ⟨-, ⟨⟩⟩ := Option.ite_none_right_eq_some.mp hs
  exact s.modify_keeps i (g := fun x => { x with lock := some t }) fun _ => ⟨rfl, rfl, rfl⟩

/-- **`inode_get`** hits the entry in use with the key, or takes an entry not in use. -/
theorem inodeGet_effect {dev inum : BitVec 32} (hs : s.inodeGet dev inum = some (s', i)) (t : T) :
    Effect s (.inodeGet t dev inum) { s' with refs := (t, i) :: s.refs } := by
  unfold inodeGet at hs
  cases hhit : s.findEntry dev inum with
  | some k =>
    simp only [hhit, Option.some.injEq, Prod.mk.injEq] at hs
    obtain ⟨rfl, rfl⟩ := hs
    have hk := List.find?_some (p := fun i => decide (0 < (s.inodes i).ref) &&
      (s.inodes i).dev == dev && (s.inodes i).inum == inum) hhit
    simp only [Bool.and_eq_true, decide_eq_true_eq, beq_iff_eq] at hk
    obtain ⟨⟨hpos, hdev⟩, hinum⟩ := hk
    exact .counted t k hpos (.inr ⟨t, by rw [IcacheState.key, hdev, hinum]⟩)
  | none =>
    cases hfree : s.findEmpty with
    | none => simp [hhit, hfree] at hs
    | some k =>
      simp only [hhit, hfree, Option.some.injEq, Prod.mk.injEq] at hs
      obtain ⟨rfl, rfl⟩ := hs
      have hk := List.find?_some (p := fun i => (s.inodes i).ref == 0) hfree
      refine .taken t k dev inum (by simpa using hk) fun j hj he => ?_
      have hmiss := List.find?_eq_none.mp hhit j (List.mem_finRange j)
      obtain ⟨hdev, hinum⟩ := Prod.mk.inj he
      simp [hj, hdev, hinum] at hmiss

/-- **A step inside `inode_put`.** -/
theorem putStep_effect {op : InodeOp T} {st : PutStage} {null : Bool}
    (hact : s.act t = .putting i st) (hs : s.putStep t i null st = some s') : Effect s op s' := by
  have hputs : ∀ st', InodeAct.puts (.putting i st') = (s.act t).puts := fun st' => by
    rw [hact]
    rfl
  have hearly : st.beforeWrite = true → ∀ {a : InodeAct}, a.puts = some i →
      ∀ j, a.frees = some j → (s.act t).frees = some j := fun hst a ha j hj => by
    cases a with
    | putting k st' =>
      obtain rfl := Option.some.inj ha
      rw [hact, InodeAct.frees, if_pos hst]
      by_cases hst' : st'.beforeWrite = true
      · rwa [InodeAct.frees, if_pos hst'] at hj
      · rw [InodeAct.frees, if_neg hst'] at hj
        cases hj
    | _ => cases ha
  cases st with
  | enter =>
    obtain rfl := Option.some.inj hs
    exact (Keeps.refl s).goto (hputs _) (hearly rfl rfl)
  | lock =>
    obtain ⟨s₁, hlock, rfl⟩ := Option.map_eq_some_iff.mp hs
    exact (acquire_keeps hlock).goto (hputs _) (hearly rfl rfl)
  | load =>
    obtain rfl := Option.some.inj hs
    exact (s.inodeLoad_keeps i null).goto (hputs _) (hearly rfl rfl)
  | clear =>
    obtain rfl := Option.some.inj hs
    exact (s.modify_keeps i (g := fun x => { x with copy := { x.copy with type := 0 } })
      fun _ => ⟨rfl, rfl, rfl⟩).goto (hputs _) (hearly rfl rfl)
  | write =>
    obtain rfl := Option.some.inj hs
    exact (s.inodeUpdate_keeps i null).goto (hputs _) (hearly rfl rfl)
  | invalidate =>
    obtain rfl := Option.some.inj hs
    exact (s.modify_keeps i (g := fun x => { x with valid := false })
      fun _ => ⟨rfl, rfl, rfl⟩).goto (hputs _) fun j hj => by cases hj
  | unlock =>
    obtain rfl := Option.some.inj hs
    exact (s.inodeUnlock_keeps t i).goto (hputs _) fun j hj => by cases hj
  | drop =>
    obtain rfl := Option.some.inj hs
    exact .finished t i hact

/-- What holds of the cache at any time: one entry in use for a key at most, and `ref` counts the
references that are held and those that an `inode_put` is about to drop, one for each. -/
structure CacheOk (s : IcacheState T) : Prop where
  oneEntry : ∀ i j, 0 < (s.inodes i).ref → 0 < (s.inodes j).ref → s.key i = s.key j → i = j
  counted : ∀ i, (s.inodes i).ref = handlesOf s.refs i + handlesOf s.puts i
  putting : ∀ t i, (t, i) ∈ s.puts ↔ (s.act t).puts = some i
  putsOnce : s.puts.Nodup

omit [DecidableEq T] in
/-- `int` counts as well, as long as there are fewer than `2 ^ 31` references. -/
theorem CacheOk.ref_le (h : CacheOk s) (i : Fin ninode) :
    (s.inodes i).ref ≤ s.refs.length + s.puts.length := by
  rw [h.counted]
  exact Nat.add_le_add (handlesOf_le_length _ _) (handlesOf_le_length _ _)

omit [DecidableEq T] in
theorem CacheOk.ref_pos (h : CacheOk s) (hti : (t, i) ∈ s.refs) : 0 < (s.inodes i).ref := by
  rw [h.counted]
  exact Nat.add_pos_left (handlesOf_pos.mpr ⟨t, hti⟩) _

/-- **One step.** -/
theorem step_effect {op : InodeOp T} (h : CacheOk s) (hs : s.step op = some s') :
    Effect s op s' := by
  cases op with
  | inodeGet t dev inum =>
    obtain ⟨-, ⟨⟩⟩ := Option.ite_none_right_eq_some.mp hs
    cases hget : s.inodeGet dev inum with
    | none => exact (Keeps.refl s).quiet
    | some r => exact inodeGet_effect hget t
  | inodeDup t i u =>
    obtain ⟨⟨-, hti⟩, ⟨⟩⟩ := Option.ite_none_right_eq_some.mp hs
    exact .counted u i (h.ref_pos hti) (.inl ⟨t, hti⟩)
  | inodeLock t i =>
    obtain ⟨hidle, ⟨⟩⟩ := Option.ite_none_right_eq_some.mp hs
    split
    · exact (Keeps.refl s).quiet
    · exact (Keeps.refl s).goto (by rw [hidle]; rfl) fun j hj => by cases hj
  | inodeUnlock t i =>
    obtain ⟨-, ⟨⟩⟩ := Option.ite_none_right_eq_some.mp hs
    exact (s.inodeUnlock_keeps t i).quiet
  | edit t i copy =>
    obtain ⟨-, ⟨⟩⟩ := Option.ite_none_right_eq_some.mp hs
    exact (s.modify_keeps i (g := fun x => { x with copy := copy })
      fun _ => ⟨rfl, rfl, rfl⟩).quiet
  | inodeUpdate t i null =>
    obtain ⟨-, ⟨⟩⟩ := Option.ite_none_right_eq_some.mp hs
    exact (s.inodeUpdate_keeps i null).quiet
  | inodePut t i =>
    obtain ⟨⟨hidle, hti⟩, hs⟩ := Option.ite_none_right_eq_some.mp hs
    split at hs
    case isTrue hun =>
      obtain rfl := Option.some.inj hs
      exact .started t i hti hidle hun
    case isFalse =>
      obtain rfl := Option.some.inj hs
      exact .dropped t i hti
  | next t null =>
    cases hact : s.act t with
    | idle => simp [step, hact] at hs
    | locking i =>
      simp only [step, hact] at hs
      obtain ⟨s₁, hlock, rfl⟩ := Option.map_eq_some_iff.mp hs
      exact (acquire_keeps hlock).goto (by rw [hact]; rfl) fun j hj => by cases hj
    | loading i =>
      simp only [step, hact] at hs
      obtain rfl := Option.some.inj hs
      exact (s.inodeLoad_keeps i null).goto (by rw [hact]; rfl) fun j hj => by cases hj
    | putting i st =>
      simp only [step, hact] at hs
      exact putStep_effect hact hs

/-! ## 4. Any run -/

omit [DecidableEq T] in
theorem init_ok (disk : BitVec 32 → BitVec 32 → Dinode) : CacheOk (init disk : IcacheState T) where
  oneEntry _ _ h := absurd h (Nat.lt_irrefl 0)
  counted _ := rfl
  putting _ _ := by simp [init, InodeAct.puts]
  putsOnce := List.nodup_nil

/-- No entry in use gets another key. -/
theorem Effect.key {op : InodeOp T} (he : Effect s op s') (hi : 0 < (s.inodes i).ref) :
    s'.key i = s.key i := by
  cases he with
  | quiet hkey => exact hkey i
  | counted t k =>
    exact s.key_modify k (g := fun x => { x with ref := x.ref + 1 }) (fun _ => ⟨rfl, rfl⟩) i
  | taken t k dev inum hzero =>
    have hk : i ≠ k := by
      rintro rfl
      omega
    simp [IcacheState.key, modify_of_ne s hk]
  | dropped t k =>
    exact s.key_modify k (g := fun x => { x with ref := x.ref - 1 }) (fun _ => ⟨rfl, rfl⟩) i
  | started t k => rfl
  | finished t k =>
    exact s.key_modify k (g := fun x => { x with ref := x.ref - 1 }) (fun _ => ⟨rfl, rfl⟩) i

omit [DecidableEq T] in
theorem ref_pos_of_drop {k m : Fin ninode}
    (hm : 0 < ((s.modify k fun x => { x with ref := x.ref - 1 }).inodes m).ref) :
    0 < (s.inodes m).ref := by
  by_cases hmk : m = k
  · subst hmk
    rw [modify_self] at hm
    exact Nat.lt_of_lt_of_le hm (Nat.sub_le _ _)
  · rwa [modify_of_ne s hmk] at hm

/-- An entry that gets into use gets a key that no other has; the others were in use before. -/
theorem Effect.oneEntry {op : InodeOp T} (h : CacheOk s) (he : Effect s op s')
    (hi : 0 < (s'.inodes i).ref) (hj : 0 < (s'.inodes j).ref) (hij : s'.key i = s'.key j) :
    i = j := by
  -- Two entries that were in use before had the same keys then.
  have hold : 0 < (s.inodes i).ref → 0 < (s.inodes j).ref → i = j := fun hi hj => by
    rw [he.key hi, he.key hj] at hij
    exact h.oneEntry i j hi hj hij
  cases he with
  | quiet _ href => exact hold (by rwa [href] at hi) (by rwa [href] at hj)
  | counted t k hpos =>
    have hback : ∀ m, 0 < ((s.modify k fun x => { x with ref := x.ref + 1 }).inodes m).ref →
        0 < (s.inodes m).ref := fun m hm => by
      by_cases hmk : m = k
      · rwa [hmk]
      · rwa [modify_of_ne s hmk] at hm
    exact hold (hback i hi) (hback j hj)
  | taken t k dev inum hzero hnew =>
    by_cases hik : i = k <;> by_cases hjk : j = k
    · rw [hik, hjk]
    · subst hik
      simp only [modify_of_ne s hjk] at hj
      refine absurd ?_ (hnew j hj)
      simpa [IcacheState.key, modify_of_ne s hjk] using hij.symm
    · subst hjk
      simp only [modify_of_ne s hik] at hi
      refine absurd ?_ (hnew i hi)
      simpa [IcacheState.key, modify_of_ne s hik] using hij
    · simp only [modify_of_ne s hik] at hi
      simp only [modify_of_ne s hjk] at hj
      exact hold hi hj
  | dropped t k => exact hold (ref_pos_of_drop hi) (ref_pos_of_drop hj)
  | started t k => exact hold hi hj
  | finished t k => exact hold (ref_pos_of_drop hi) (ref_pos_of_drop hj)

/-- `ref` counts the references that a step leaves. -/
theorem Effect.refCounts {op : InodeOp T} (h : CacheOk s) (he : Effect s op s') (m : Fin ninode) :
    (s'.inodes m).ref = handlesOf s'.refs m + handlesOf s'.puts m := by
  cases he with
  | quiet _ href hrefs hputs => rw [href, hrefs, hputs, h.counted]
  | counted t k =>
    by_cases hm : m = k
    · subst hm
      simp only [modify_self, handlesOf_cons_self, h.counted m]
      exact Nat.add_right_comm _ _ _
    · simp only [modify_of_ne s hm, handlesOf_cons_of_ne _ _ hm, h.counted m]
      rfl
  | taken t k dev inum hzero =>
    have hcount := h.counted k
    by_cases hm : m = k
    · subst hm
      simp only [modify_self, handlesOf_cons_self]
      change 1 = _ + 1 + handlesOf s.puts m
      omega
    · simp only [modify_of_ne s hm, handlesOf_cons_of_ne _ _ hm, h.counted m]
      rfl
  | dropped t k hti =>
    have hcount := h.counted k
    rw [handlesOf_erase_self hti] at hcount
    by_cases hm : m = k
    · subst hm
      simp only [modify_self]
      change _ = _ + handlesOf s.puts m
      omega
    · simp only [modify_of_ne s hm, h.counted m, handlesOf_erase_of_ne hti hm]
      rfl
  | started t k hti =>
    have hcount := h.counted k
    rw [handlesOf_erase_self hti] at hcount
    by_cases hm : m = k
    · subst hm
      simp only [IcacheState.goto, handlesOf_cons_self]
      omega
    · simp only [IcacheState.goto, handlesOf_cons_of_ne _ _ hm, h.counted m,
        handlesOf_erase_of_ne hti hm]
  | finished t k hact =>
    have hput : (t, k) ∈ s.puts := (h.putting t k).mpr (by rw [hact]; rfl)
    have hcount := h.counted k
    rw [handlesOf_erase_self hput] at hcount
    by_cases hm : m = k
    · subst hm
      simp only [IcacheState.goto, modify_self]
      change _ = handlesOf s.refs m + _
      omega
    · simp only [IcacheState.goto, modify_of_ne s hm, h.counted m,
        handlesOf_erase_of_ne hput hm]
      rfl

/-- `puts` are the references that some `inode_put` is about to drop. -/
theorem Effect.putting_iff {op : InodeOp T} (h : CacheOk s) (he : Effect s op s') (u : T)
    (m : Fin ninode) : (u, m) ∈ s'.puts ↔ (s'.act u).puts = some m := by
  cases he with
  | quiet _ _ _ hputs hact _ => rw [hputs, hact, h.putting]
  | counted t k => exact h.putting u m
  | taken t k => exact h.putting u m
  | dropped t k => exact h.putting u m
  | started t k _ hidle =>
    have hnot : ∀ m, (t, m) ∉ s.puts := fun m hm => by
      have hput := (h.putting t m).mp hm
      rw [hidle] at hput
      cases hput
    by_cases hu : u = t
    · subst hu
      simp [IcacheState.goto, InodeAct.puts, hnot, eq_comm]
    · simp [IcacheState.goto, hu, h.putting]
  | finished t k hact =>
    have honly : ∀ m, (t, m) ∈ s.puts → m = k := fun m hm => by
      have hput := (h.putting t m).mp hm
      rw [hact] at hput
      exact (Option.some.inj hput).symm
    by_cases hu : u = t
    · subst hu
      simp only [IcacheState.goto, Function.update_self, h.putsOnce.mem_erase_iff]
      refine iff_of_false (fun hm => ?_) (by simp [InodeAct.puts])
      exact hm.1 (by rw [honly m hm.2])
    · have hne : (u, m) ≠ (t, k) := fun he => hu (congrArg Prod.fst he)
      simp [IcacheState.goto, hu, h.putting, h.putsOnce.mem_erase_iff, hne]

theorem Effect.putsOnce {op : InodeOp T} (h : CacheOk s) (he : Effect s op s') :
    s'.puts.Nodup := by
  cases he with
  | quiet _ _ _ hputs => rw [hputs]; exact h.putsOnce
  | counted t k => exact h.putsOnce
  | taken t k => exact h.putsOnce
  | dropped t k => exact h.putsOnce
  | started t k _ hidle =>
    refine List.nodup_cons.mpr ⟨fun hm => ?_, h.putsOnce⟩
    have hput := (h.putting t k).mp hm
    rw [hidle] at hput
    cases hput
  | finished t k => exact h.putsOnce.erase _

/-- **One step keeps the cache right.** -/
theorem CacheOk.of_effect {op : InodeOp T} (h : CacheOk s) (he : Effect s op s') : CacheOk s' :=
  ⟨fun _ _ hi hj hij => he.oneEntry h hi hj hij, he.refCounts h, he.putting_iff h, he.putsOnce h⟩

/-- The keys of entries in use stay. -/
def KeepsKeys (s : IcacheState T) (op : InodeOp T) : Prop :=
  ∀ s', s.step op = some s' → ∀ i, 0 < (s.inodes i).ref → s'.key i = s.key i

theorem CacheOk.step {op : InodeOp T} (h : CacheOk s) (hs : s.step op = some s') : CacheOk s' :=
  h.of_effect (step_effect h hs)

/-- **The inode cache.**  Whatever any number of processes do that put only references they hold:
there is one entry for a key, `ref` counts the references, and a key does not change while it is
referred to. -/
theorem icache_invariant (disk : BitVec 32 → BitVec 32 → Dinode) (ops : List (InodeOp T)) :
    Always step CacheOk (init disk) ops ∧ EachStep step KeepsKeys (init disk) ops := by
  refine ⟨always_of_inv (fun _ _ _ h hs => CacheOk.step h hs) ops _ (init_ok disk),
    eachStep_iff_reachable.mpr (fun s op s' hreach _ s'' hs'' i hi => ?_) ops⟩
  have h := reachable_inv (fun _ _ _ h hs => CacheOk.step h hs) (init_ok disk) hreach
  exact (step_effect h hs'').key hi

end IcacheState

end Lithium
