/-
# Locking inodes

`inode_lock` and `inode_unlock` of `inode.c` over the block layer.  An inode that is not valid is
loaded from its block; when `block_read` returns `NULL`, `inode_lock` returns all the same, with the
sleeplock taken and the fields that the entry of the cache had before.
-/
import Lithium.Fs.FileLoop
import Lithium.Fs.Icache

namespace Lithium.Wal

/-! ## 1. The code -/

/-- `inode_lock`, of an inode there is; the result is the inode as it leaves it. -/
def inodeLock (env : Env) (sb : Superblock) (ip : Inode Pid) : FileM (Inode Pid) := do
  if ip.ref < 1 then pure ip
  else if ip.lock = none then
    let ip := { ip with lock := some env.pid }
    if ip.valid then pure ip
    else
      match ← call (blockRead env (iblock ip.inum sb)) with
      | none => pure ip
      | some bp =>
        let data ← call (getData bp)
        call (blockRelease env bp)
        pure { ip with copy := data.dinode (inodeSlot ip.inum), valid := true }
  else throw .asleep

/-- `inode_unlock`. -/
def inodeUnlock (env : Env) (ip : Inode Pid) : Inode Pid :=
  if ip.lock ≠ some env.pid ∨ ip.ref < 1 then ip else { ip with lock := none }

/-! ## 2. What `inode_lock` leaves -/

section Lock

variable (env : Env) (sb : Superblock) (ip : Inode Pid) (w : World)

/-- `inode_lock` sleeps: on the sleeplock of the inode, or on the buffer of its block. -/
def LockSleeps : Prop :=
  1 ≤ ip.ref ∧ (ip.lock ≠ none ∨ (ip.valid = false ∧ env.null w.reads = false ∧
    (w.bufs (iblock ip.inum sb)).lock.locked = true))

/-- `inode_lock` calls `block_read`. -/
def lockLoads : Bool := decide (1 ≤ ip.ref) && !ip.valid

/-- The fields in memory after `inode_lock`: those of the block, if it could be read. -/
def lockedCopy : Dinode :=
  if lockLoads ip && !env.null w.reads then
    (w.fetched env (iblock ip.inum sb)).data.dinode (inodeSlot ip.inum)
  else ip.copy

/-- The inode after `inode_lock`. -/
def lockedInode : Inode Pid :=
  { ip with
    lock := if 1 ≤ ip.ref then some env.pid else ip.lock
    valid := ip.valid || (lockLoads ip && !env.null w.reads)
    copy := lockedCopy env sb ip w }

end Lock

variable {env : Env} {sb : Superblock} {ip : Inode Pid} {s : FileState}
  {E : Halt → FileState → Prop} {Q : Inode Pid → FileState → Prop}

/-- The state after `inode_lock`. -/
def FileState.locked (s : FileState) (env : Env) (sb : Superblock) (ip : Inode Pid) : FileState :=
  if lockLoads ip then
    if env.null s.world.reads then s.ticked
    else (s.got env (iblock ip.inum sb)).released (iblock ip.inum sb)
  else s

theorem lockLoads_eq_true : lockLoads ip = true ↔ 1 ≤ ip.ref ∧ ip.valid = false := by
  simp [lockLoads]

/-- An inode that is not loaded keeps its fields. -/
theorem lockedInode_of_not_loads {w : World} (h : lockLoads ip = false) (href : 1 ≤ ip.ref) :
    lockedInode env sb ip w = { ip with lock := some env.pid } := by
  simp [lockedInode, lockedCopy, h, href]

theorem lockedInode_of_null {w : World} (hnull : env.null w.reads = true) (href : 1 ≤ ip.ref) :
    lockedInode env sb ip w = { ip with lock := some env.pid } := by
  simp [lockedInode, lockedCopy, hnull, href]

/-- `inode_lock` calls `block_read` once or not at all. -/
theorem locked_reads (s : FileState) (env : Env) (sb : Superblock) (ip : Inode Pid) :
    (s.locked env sb ip).world.reads = s.world.reads + if lockLoads ip then 1 else 0 := by
  unfold FileState.locked
  split
  · split <;> rfl
  · rfl

/-- It gives back the buffer it has taken. -/
theorem locked_free (hawake : ¬ LockSleeps env sb ip s.world) (b : BlockNo) :
    ((s.locked env sb ip).world.bufs b).lock.locked = (s.world.bufs b).lock.locked := by
  unfold FileState.locked
  split
  case isFalse => rfl
  case isTrue hloads =>
    split
    case isTrue => rfl
    case isFalse hnull =>
      obtain ⟨href, hinvalid⟩ := lockLoads_eq_true.mp hloads
      have hfree : (s.world.bufs (iblock ip.inum sb)).lock.locked = false := by
        by_contra hlocked
        exact hawake ⟨href, .inr ⟨hinvalid, Bool.eq_false_iff.mpr hnull,
          Bool.not_eq_false _ ▸ hlocked⟩⟩
      rw [got_released]
      rcases eq_or_ne b (iblock ip.inum sb) with rfl | hne
      · rw [put_self, hfree]
        rfl
      · rw [put_of_ne _ hne, tick_bufs]

/-- **`inode_lock`** sleeps, or returns. -/
theorem inodeLock_ends
    (hsleeps : LockSleeps env sb ip s.world →
      ∀ s', s' = s ∨ s' = s.waiting (iblock ip.inum sb) → E .asleep s')
    (hreturns : ¬ LockSleeps env sb ip s.world →
      Q (lockedInode env sb ip s.world) (s.locked env sb ip)) :
    Ends (inodeLock env sb ip) s Q E := by
  rw [inodeLock]
  split
  case isTrue hzero =>
    have hawake : ¬ LockSleeps env sb ip s.world := fun h => by
      have := h.1
      omega
    have hnot : ¬ 1 ≤ ip.ref := by omega
    have hQ := hreturns hawake
    simp only [lockedInode, lockedCopy, FileState.locked, lockLoads, hnot, decide_false,
      Bool.false_and, Bool.or_false, Bool.false_eq_true, if_false] at hQ
    exact hQ
  case isFalse hpos =>
    have href : 1 ≤ ip.ref := by omega
    split
    case isFalse hlock => exact hsleeps ⟨href, .inl hlock⟩ s (.inl rfl)
    case isTrue hlock =>
      dsimp only
      split
      case isTrue hvalid =>
        have hnot : lockLoads ip = false := by simp [lockLoads, hvalid]
        have hawake : ¬ LockSleeps env sb ip s.world := by
          rintro ⟨-, hheld | ⟨hinvalid, -⟩⟩
          · exact hheld hlock
          · rw [hvalid] at hinvalid
            cases hinvalid
        have hQ := hreturns hawake
        rw [lockedInode_of_not_loads hnot href, FileState.locked, hnot] at hQ
        exact hQ
      case isFalse hinvalid =>
        have hinvalid' : ip.valid = false := Bool.eq_false_iff.mpr hinvalid
        have hloads : lockLoads ip = true := lockLoads_eq_true.mpr ⟨href, hinvalid'⟩
        have hawake : (env.null s.world.reads = false →
            s.world.FreeAt (iblock ip.inum sb)) → ¬ LockSleeps env sb ip s.world := by
          rintro hfree ⟨-, hheld | ⟨-, hread, hlocked⟩⟩
          · exact hheld hlock
          · rw [hfree hread] at hlocked
            cases hlocked
        refine (read_ends (Q := fun r s' => r = none ∧ env.null s.world.reads = true ∧
            s' = s.ticked ∨ r = some (iblock ip.inum sb) ∧ env.null s.world.reads = false ∧
            s.world.FreeAt (iblock ip.inum sb) ∧ s' = s.got env (iblock ip.inum sb))
          (iblock ip.inum sb) ?none ?held ?some).bind ?rest
        case none => exact fun hnull => .inl ⟨rfl, hnull, rfl⟩
        case held =>
          exact fun hread hlocked => hsleeps ⟨href, .inr ⟨hinvalid', hread, hlocked⟩⟩ _ (.inr rfl)
        case some => exact fun hread hfree => .inr ⟨rfl, hread, hfree, rfl⟩
        case rest =>
          rintro r s' (⟨rfl, hnull, rfl⟩ | ⟨rfl, hread, hfree, rfl⟩)
          · have hQ := hreturns (hawake fun hread => by rw [hnull] at hread; cases hread)
            rw [lockedInode_of_null hnull href, FileState.locked, if_pos hloads, if_pos hnull] at hQ
            exact hQ
          · have hQ := hreturns (hawake fun _ => hfree)
            simp only [lockedInode, lockedCopy, FileState.locked, hloads, href, hread, if_true,
              Bool.not_false, Bool.and_true, Bool.or_true, Bool.false_eq_true, if_false] at hQ
            have hdata : (call (getData (iblock ip.inum sb))).run (s.got env (iblock ip.inum sb))
                = .ok (s.world.fetched env (iblock ip.inum sb)).data
                  (s.got env (iblock ip.inum sb)) := by
              rw [call_ok (getData_run _ _), got_buf]
            have hheld : ((s.got env (iblock ip.inum sb)).world.bufs (iblock ip.inum sb)).lock
                = env.lock := by
              rw [got_buf]
              rfl
            refine .of_ok ?_ hQ
            dsimp only
            rw [bind_ok hdata, bind_ok (call_ok (blockRelease_held hheld))]
            rfl

end Lithium.Wal
