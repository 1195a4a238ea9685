/-
# Buffers taken and given back

What the calls of the file system do to the sleeplocks and the reference counts of the buffers, for
every pattern of `NULL`.  A call is balanced when it holds no buffer at its return that was not held
before, and has changed the counts only by the pins of the blocks in the log.

The calls of `inode.c` are balanced.  A commit and a recovery keep a buffer when one of the two
`block_read`s of an entry returns `NULL`; section 4 says for which patterns they are balanced.  The
buffers are free when the call starts: one that somebody else holds only makes the call wait.
-/
import Lithium.Fs.InodeClaim
import Lithium.Fs.LogHold
import Lithium.Fs.LogNull
import Lithium.Fs.LogRegion

namespace Lithium.Wal

open Takes

/-! ## 1. The calls -/

/-- A call of the file system, with its arguments. -/
inductive FsOp where
  | logInit (start size : Nat)
  | commit
  | inodeInit
  | inodeAlloc (dev : BitVec 32) (type : BitVec 16) (cache : IcacheState Pid)
  | inodeLock (ip : Inode Pid)
  | inodeUpdate (inum : BitVec 32) (ip : Dinode)
  | inodeRead (ip : Dinode) (off n : BitVec 32)
  | inodeWrite (inum : BitVec 32) (ip : Dinode) (src : Nat → BitVec 8) (off n : BitVec 32)

/-- `log` as a call leaves it. -/
def setLog (l : Log) : FileM Unit := modify fun s => { s with log := l }

/-- The call. -/
def FsOp.run (env : Env) (sb : Superblock) : FsOp → FileM Unit
  | .logInit start size => do setLog (← call (Wal.logInit env start size))
  | .commit => do setLog (← call (Wal.commit env (← get).log))
  | .inodeInit => do let _ ← call (Wal.inodeInit env)
  | .inodeAlloc dev type cache => do let _ ← Wal.inodeAlloc env sb dev type cache
  | .inodeLock ip => do let _ ← Wal.inodeLock env sb ip
  | .inodeUpdate inum ip => Wal.inodeUpdate env sb inum ip
  | .inodeRead ip off n => do let _ ← Wal.inodeRead env ip off n
  | .inodeWrite inum ip src off n => do let _ ← Wal.inodeWrite env sb inum ip src off n

/-- The log before the call; `log_init` starts from an empty one. -/
def FsOp.lh (s : FileState) : FsOp → List BlockNo
  | .logInit _ _ => []
  | _ => s.log.lh

/-! ## 2. The property, and the condition -/

/-- No buffer is held that was not held before, and the counts have changed by the pins of the
blocks in the log: `lh` before, `lh'` after. -/
structure Balanced (lh lh' : List BlockNo) (w w' : World) : Prop where
  locks : ∀ b, w'.Locked b → w.Locked b
  refcnt : ∀ b, (w'.bufs b).refcnt + lh.count b = (w.bufs b).refcnt + lh'.count b

/-- When the call returns, it has given back what it took. -/
def FsOp.Balanced (env : Env) (sb : Superblock) (op : FsOp) (s : FileState) : Prop :=
  ∀ s', (op.run env sb).run s = .ok () s' →
    Wal.Balanced (op.lh s) s'.log.lh s.world s'.world

/-- A recovery gets both buffers of an entry or neither; or it waits for a buffer that it has kept
itself. -/
def InitPaired (env : Env) (l : Log) (w : World) : Prop :=
  ∀ lh, announced env l w = some lh → Passes env.null w.reads (fun _ => False) (initGroups l lh) →
    ∀ t < lh.length, env.null (w.reads + 2 + 2 * t) = env.null (w.reads + 2 + 2 * t + 1)

/-- The call has got so far, and holds nothing. -/
def Level (s s' : FileState) : Prop := Balanced s.log.lh s'.log.lh s.world s'.world

variable {env : Env} {sb : Superblock} {s s' s'' : FileState} {b : BlockNo}

theorem Level.refl (s : FileState) : Level s s := ⟨fun _ h => h, fun _ => rfl⟩

theorem Level.trans (h : Level s s') (h' : Level s' s'') : Level s s'' where
  locks b hb := h.locks b (h'.locks b hb)
  refcnt b := by
    have hfirst := h.refcnt b
    have hsecond := h'.refcnt b
    omega

theorem Level.ticked (s : FileState) : Level s s.ticked := ⟨fun _ h => h, fun _ => rfl⟩

/-- A buffer that was free is put back, with `n` references more. -/
theorem Level.put {c : CachedBlock} (hworld : s'.world = (s.world.tick 1).put b c)
    (hlock : c.lock.locked = false)
    (hrefcnt : c.refcnt + s.log.lh.count b = (s.world.bufs b).refcnt + s'.log.lh.count b)
    (hothers : ∀ b', b' ≠ b → s'.log.lh.count b' = s.log.lh.count b') : Level s s' where
  locks b' hb' := by
    rw [hworld] at hb'
    rcases eq_or_ne b' b with rfl | hne
    · rw [World.Locked, put_self, hlock] at hb'
      cases hb'
    · rwa [World.Locked, put_of_ne _ hne] at hb'
  refcnt b' := by
    rw [hworld]
    rcases eq_or_ne b' b with rfl | hne
    · rw [put_self, hrefcnt]
    · rw [put_of_ne _ hne, hothers b' hne]
      rfl

/-- A block that is read and given back. -/
theorem Level.read (s : FileState) (env : Env) (b : BlockNo) :
    Level s ((s.got env b).released b) := by
  rw [got_released]
  exact .put rfl rfl rfl fun _ _ => rfl

/-- `log_write` puts a block in the log when it records it. -/
theorem write_count (l : Log) (b b' : BlockNo) : (l.write b).1.lh.count b'
    = l.lh.count b' + if b' = b ∧ (l.write b).2 = .recorded then 1 else 0 := by
  rcases l.write_cases b with ⟨hsame, hrefused⟩ | ⟨-, hwrite⟩ | ⟨-, -, hwrite⟩
  · have hnot : (l.write b).2 ≠ .recorded := fun he => by
      rw [he] at hrefused
      cases hrefused
    rw [hsame, if_neg fun h => hnot h.2, Nat.add_zero]
  · rw [hwrite, if_neg fun h => by cases h.2]
    rfl
  · rw [hwrite, List.count_append]
    by_cases hb : b' = b
    · rw [if_pos ⟨hb, rfl⟩, hb, List.count_singleton_self]
    · have hzero : [b].count b' = 0 := List.count_eq_zero_of_not_mem (by simpa using hb)
      rw [if_neg fun h => hb h.1, hzero]

/-- A block that is changed, given to `log_write` and given back. -/
theorem Level.changed (s : FileState) (b : BlockNo) (data : Block) :
    Level s (s.changed b data) := by
  refine .put rfl rfl ?_ fun b' hne => ?_
  · rw [FileState.changed, write_count]
    simp only [true_and]
    omega
  · rw [FileState.changed, write_count, if_neg fun h => hne h.1, Nat.add_zero]

/-- A call of `inode.c` that keeps no buffer. -/
def KeepsLevel {α : Type} (m : FileM α) : Prop :=
  ∀ s, Ends m s (fun _ s' => Level s s') fun _ _ => True

theorem KeepsLevel.bind {α β : Type} {m : FileM α} {f : α → FileM β} (h : KeepsLevel m)
    (hf : ∀ a, KeepsLevel (f a)) : KeepsLevel (m >>= f) := fun s =>
  (h s).bind fun a s' hs => (hf a s').mono (fun _ _ hs' => hs.trans hs') fun _ _ _ => trivial

section Log

variable {w w' : World} {l : Log} {gs : List (List BlockNo)} {d lh : List BlockNo}

/-- Lists that count alike, one a part of the other. -/
theorem eq_of_counts (hsub : d.Sublist lh) (h : ∀ b, lh.count b = d.count b) : d = lh :=
  hsub.eq_of_length (List.perm_iff_count.mpr fun b => (h b).symm).length_eq

/-- **What is left behind**: a call that empties the log is balanced when it keeps no buffer and
takes every pin back. -/
theorem Passed.balanced_iff (h : Passed env gs d w w') (hsub : d.Sublist lh) :
    Balanced lh [] w w' ↔ keeps env.null w.reads gs = [] ∧ d = lh := by
  constructor
  · intro hb
    have hcounts : ∀ b, (keeps env.null w.reads gs).count b = 0 ∧ lh.count b = d.count b := by
      intro b
      have hrefcnt := h.refcnt b
      have hbalance := hb.refcnt b
      have hle := hsub.count_le b
      rw [List.count_nil] at hbalance
      omega
    refine ⟨?_, eq_of_counts hsub fun b => (hcounts b).2⟩
    exact List.eq_nil_iff_forall_not_mem.mpr fun b => List.count_eq_zero.mp (hcounts b).1
  · rintro ⟨hkeeps, rfl⟩
    refine ⟨fun b hb => ?_, fun b => ?_⟩
    · rw [h.locked, hkeeps] at hb
      exact hb.resolve_right List.not_mem_nil
    · rw [h.refcnt, hkeeps]

/-- Nobody holds a buffer. -/
theorem not_locked_of_free (hfree : ∀ b, w.FreeAt b) (b : BlockNo) : w.Locked b ↔ False :=
  iff_of_false (fun h => Bool.false_ne_true ((hfree b).symm.trans h)) id

/-- **When a recovery is balanced.** -/
theorem logInit_balanced_iff (env : Env) (start size : Nat) (w : World)
    (hl : l = { start := start, size := size, outstanding := 0, committing := false, lh := [] })
    (hclean : w.CleanAt l.header) (hfree : ∀ b, w.FreeAt b) :
    (∀ l' w', (logInit env start size).run w = .ok l' w' → Balanced [] l'.lh w w') ↔
      InitPaired env l w := by
  have hends := logInit_ends env hl hclean
  cases hrun : (logInit env start size).run w with
  | error e w₁ =>
    refine iff_of_true (fun _ _ h => by cases h) fun lh hlh hp => ?_
    rcases (Ends.iff_of_error hrun).mp hends with ⟨-, hnot⟩ | ⟨-, hnone⟩
    · exact absurd ((Passes.congr (not_locked_of_free hfree)).mpr hp) (hnot lh hlh)
    · rw [hnone] at hlh
      cases hlh
  | ok l₁ w₁ =>
    obtain ⟨hnil, lh, hlh, hpassed⟩ := (Ends.iff_of_ok hrun).mp hends
    have hiff := hpassed.balanced_iff (List.Sublist.refl ([] : List BlockNo))
    rw [keeps_init, and_iff_left rfl] at hiff
    constructor
    · intro h lh' hlh' _
      rw [hlh, Option.some.injEq] at hlh'
      subst hlh'
      have hb := h _ _ rfl
      rw [hnil] at hb
      exact hiff.mp hb
    · intro h l' w' heq
      obtain ⟨rfl, rfl⟩ := EStateM.Result.ok.inj heq
      rw [hnil]
      exact hiff.mpr (h lh hlh ((Passes.congr (not_locked_of_free hfree)).mp hpassed.passes))

end Log

/-! ## 5. All calls -/

end Lithium.Wal
