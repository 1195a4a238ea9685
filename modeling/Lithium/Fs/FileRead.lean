/-
# Reading from an open file

`file_read` of `file.c`, for a file of any type.  The length `n` is an `int`: `pipe_read` compares
it as one, but `inode_read` gets it as a `uint32`, and a negative `n` asks for at least 2 GB.  The
test `off + n < off` stops only those that are less than `-off`; any other reads up to the end of
the file, whatever room there is at `addr`.

`inode_read` does not compare `off / BSIZE` with the length of `ip->addrs`.  Here the call goes on
with the numbers that lie behind the array, whatever they are; as long as it stays in the array it
does what `inodeRead` does (`inodeReadOn_of_ok`).
-/
import Lithium.Fs.File
import Lithium.Fs.InodeLock

namespace Lithium.Wal

/-! ## 1. The code -/

/-- `struct file`, as `file_read` and `file_write` use it, with the pipe or the inode it refers
to. -/
structure OpenFile where
  type : FileType
  readable : Bool
  writable : Bool
  pipe : Pipe
  ip : Inode Pid
  off : BitVec 32

/-- A section of `pipe_read`, with the bytes it copies; the error is its `sleep`. -/
def pipeRead (pi : Pipe) (n : BitVec 32) : FileM (BitVec 32 × Pipe) :=
  if pi.readWaits then throw .asleep
  else
    let r := pi.readLoop n.toInt.toNat
    fun s => .ok (BitVec.ofNat 32 r.2.length, r.1) { s with dst := s.dst ++ r.2 }

/-- `ip->addrs[i]`, for any index; `behind` is the memory behind the array. -/
def addrOn (ip : Dinode) (behind : Nat → BlockNo) (i : Nat) : BlockNo :=
  if i ≤ ndirect then blockOf ip i else behind i

/-- The loop of `inode_read`; the result is `tot`. -/
def readLoopOn (env : Env) (ip : Dinode) (behind : Nat → BlockNo) (n : BitVec 32) :
    Nat → BitVec 32 → BitVec 32 → FileM (BitVec 32)
  | 0, tot, _ => pure tot
  | fuel + 1, tot, off =>
    if tot < n then do
      let addr := addrOn ip behind (off.toNat / bsize)
      if addr = 0 then pure tot
      else
        match ← call (blockRead env addr) with
        | none => pure tot
        | some bp =>
          let m := passLen n tot off
          notePass ⟨off, m, bp⟩
          copyOut bp tot off m
          call (blockRelease env bp)
          readLoopOn env ip behind n fuel (tot + m) (off + m)
    else pure tot

/-- `inode_read`. -/
def inodeReadOn (env : Env) (ip : Dinode) (behind : Nat → BlockNo) (off n : BitVec 32) :
    FileM (BitVec 32) := do
  startCall
  if rangeOk ip off n then
    let n := clip ip off n
    readLoopOn env ip behind n n.toNat 0 off
  else pure (-1)

/-- `file_read`; what it stores at `addr` is `dst` of the state. -/
def fileRead (env : Env) (sb : Superblock) (f : OpenFile) (behind : Nat → BlockNo)
    (n : BitVec 32) : FileM (BitVec 32 × OpenFile) := do
  startCall
  if f.readable then
    match f.type with
    | .pipe =>
      let r ← pipeRead f.pipe n
      pure (r.1, { f with pipe := r.2 })
    | .inode | .device =>
      let ip ← inodeLock env sb f.ip
      let r ← inodeReadOn env ip.copy behind f.off n
      let off := if 0 < r.toInt then f.off + r else f.off
      pure (r, { f with off := off, ip := inodeUnlock env ip })
    | .none => pure (-1, f)
  else pure (-1, f)

/-! ## 2. The property -/

/-- A call of `file_read` writes only to the `n` bytes at `addr`, or to none when `n` is negative,
and returns at most `n`, or 0. -/
structure WithinBuffer (addr : BitVec 64) (n : BitVec 32)
    (r : EStateM.Result Halt FileState (BitVec 32 × OpenFile)) : Prop where
  writes : ∀ i < (finalState r).dst.length, ∃ j < n.toInt.toNat,
    addr + BitVec.ofNat 64 i = addr + BitVec.ofNat 64 j
  result : ∀ k f s, r = .ok (k, f) s → k.toInt ≤ max n.toInt 0

/-- Nobody has the inode of the file, or a buffer. -/
def Unheld (f : OpenFile) (w : World) : Prop :=
  f.type = .inode ∨ f.type = .device → f.ip.lock = none ∧ ∀ b, w.FreeAt b

/-- The condition that goes wrong: `n` is negative, and `inode_read` gets past its tests and to its
first block.  `off` lies in the file and `off + (uint32)n` does not wrap around; there is a number
for the block of `off`, in `ip->addrs` or behind it, and `block_read` returns that block. -/
structure Overruns (env : Env) (sb : Superblock) (f : OpenFile) (behind : Nat → BlockNo)
    (n : BitVec 32) (w : World) : Prop where
  readable : f.readable = true
  type : f.type = .inode ∨ f.type = .device
  negative : n.toInt < 0
  inFile : f.off < (lockedCopy env sb f.ip w).size
  noWrap : f.off.toNat + n.toNat < 2 ^ 32
  block : addrOn (lockedCopy env sb f.ip w) behind (f.off.toNat / bsize) ≠ 0
  read : env.null (w.reads + if lockLoads f.ip then 1 else 0) = false

/-! ## 3. The loop -/

variable {env : Env} {sb : Superblock} {ip : Dinode} {behind : Nat → BlockNo} {s s' : FileState}
  {n tot off : BitVec 32} {fuel : Nat} {E : Halt → FileState → Prop}

theorem readLoopOn_done (h : ¬ tot < n) :
    (readLoopOn env ip behind n fuel tot off).run s = .ok tot s := by
  cases fuel with
  | zero => rfl
  | succ fuel =>
    rw [readLoopOn, if_neg h]
    rfl

/-- **A pass of the loop**, in the three ways it can end. -/
theorem readLoopOn_step {R : BitVec 32 → FileState → Prop} (h : tot < n)
    (hfree : ∀ b, s.world.FreeAt b)
    (hzero : addrOn ip behind (off.toNat / bsize) = 0 → R tot s)
    (hnull : env.null s.world.reads = true → R tot s.ticked)
    (hpass : addrOn ip behind (off.toNat / bsize) ≠ 0 → env.null s.world.reads = false →
      ∀ s', s'.dst.length = s.dst.length + (passLen n tot off).toNat →
        (∀ b, s'.world.FreeAt b) →
        Ends (readLoopOn env ip behind n fuel (tot + passLen n tot off) (off + passLen n tot off))
          s' R E) :
    Ends (readLoopOn env ip behind n (fuel + 1) tot off) s R E := by
  rw [readLoopOn, if_pos h]
  generalize addrOn ip behind (off.toNat / bsize) = b at hzero hpass ⊢
  dsimp only
  split
  case isTrue hb => exact hzero hb
  case isFalse hb =>
    refine (read_ends (Q := fun r s' => r = none ∧ R tot s' ∨ r = some b ∧
      env.null s.world.reads = false ∧ s' = s.got env b) b ?none ?held ?some).bind ?rest
    case none => exact fun hread => .inl ⟨rfl, hnull hread⟩
    case held =>
      intro _ hlocked
      have hunlocked := hfree b
      rw [World.FreeAt, hlocked] at hunlocked
      cases hunlocked
    case some => exact fun hread _ => .inr ⟨rfl, hread, rfl⟩
    case rest =>
      rintro r s' (⟨rfl, hR⟩ | ⟨rfl, hread, rfl⟩)
      · exact hR
      · refine Ends.bind (m := notePass _) (Q := fun _ s' =>
          s' = (s.got env b).noted ⟨off, passLen n tot off, b⟩) rfl ?_
        rintro _ s' rfl
        refine (copyOut_ends (Q := fun _ s' => (s'.world.bufs b).lock = env.lock ∧
          s'.dst.length = s.dst.length + (passLen n tot off).toNat ∧
          ∀ b', (s'.released b).world.FreeAt b') ⟨?lock, ?bytes, ?free⟩).bind ?release
        case lock => exact congrArg CachedBlock.lock (got_buf s env b)
        case bytes =>
          refine List.length_append.trans ?_
          rw [List.length_map, List.length_range]
          rfl
        case free =>
          intro b'
          change ((((s.got env b).released b).world).bufs b').lock.locked = false
          rw [got_released]
          rcases eq_or_ne b' b with rfl | hne
          · rw [put_self]
            rfl
          · rw [put_of_ne _ hne]
            exact hfree b'
        case release =>
          rintro _ s' ⟨hlock, hbytes, hfree'⟩
          refine (release_ends (Q := fun _ s'' => s''.dst.length = s.dst.length +
            (passLen n tot off).toNat ∧ ∀ b', s''.world.FreeAt b') hlock ⟨hbytes, hfree'⟩).bind ?_
          exact fun _ s'' hs => hpass hb hread s'' hs.1 hs.2

/-- What the loop has copied when it ends: `k` bytes, no fewer than before and no more than `n`. -/
structure LoopCopied (n tot k : BitVec 32) (s : FileState) : Prop where
  dst : s.dst.length = k.toNat
  from_le : tot.toNat ≤ k.toNat
  le : k.toNat ≤ n.toNat

/-- **The loop of `inode_read`** comes to its end, and copies no more than `n` bytes. -/
theorem readLoopOn_copied (env : Env) (ip : Dinode) (behind : Nat → BlockNo) :
    ∀ (fuel : Nat) (tot off : BitVec 32) (s : FileState), s.dst.length = tot.toNat →
      tot.toNat ≤ n.toNat → (∀ b, s.world.FreeAt b) →
      Ends (readLoopOn env ip behind n fuel tot off) s (LoopCopied n tot) fun _ _ => False := by
  intro fuel
  induction fuel with
  | zero => exact fun tot _ s hdst hle _ => ⟨hdst, Nat.le_refl _, hle⟩
  | succ fuel ih =>
    intro tot off s hdst hle hfree
    by_cases h : tot < n
    case neg => exact .of_ok (readLoopOn_done h) ⟨hdst, Nat.le_refl _, hle⟩
    refine readLoopOn_step h hfree (fun _ => ⟨hdst, Nat.le_refl _, hle⟩)
      (fun _ => ⟨hdst, Nat.le_refl _, hle⟩) fun _ _ s' hdst' hfree' => ?_
    have hn := n.isLt
    have hlen := passLen_toNat off h
    have htot : (tot + passLen n tot off).toNat = tot.toNat + (passLen n tot off).toNat := by
      rw [BitVec.toNat_add]
      omega
    refine (ih _ _ s' (by rw [hdst', hdst, htot]) (by omega) hfree').mono (fun k s'' hk => ?_)
      fun _ _ h => h
    have hmore := hk.from_le
    exact ⟨hk.dst, by omega, hk.le⟩

/-- What holds of the state at the end, whether the call returns or not. -/
theorem ends_finalState {α : Type} {m : FileM α} {P : FileState → Prop} :
    Ends m s (fun _ => P) (fun _ => P) ↔ P (finalState (m.run s)) := by
  cases hm : m.run s with
  | ok a s' => exact Ends.iff_of_ok hm
  | error e s' => exact Ends.iff_of_error hm

/-- What a call has returned. -/
def returned {α : Type} : EStateM.Result Halt FileState α → Option α
  | .ok a _ => some a
  | .error _ _ => none

theorem run_of_returned {α : Type} {m : FileM α} {a : α} (h : returned (m.run s) = some a) :
    m.run s = .ok a (finalState (m.run s)) := by
  cases hm : m.run s with
  | ok a' s' =>
    rw [hm] at h
    exact congrArg (fun x => EStateM.Result.ok x s') (Option.some.inj h)
  | error e s' =>
    rw [hm] at h
    cases h

/-- `inode_read` of a range that it accepts, -/
theorem inodeReadOn_accepted (h : rangeOk ip off n = true) :
    (inodeReadOn env ip behind off n).run s =
      (readLoopOn env ip behind (clip ip off n) (clip ip off n).toNat 0 off).run s.fresh := by
  rw [inodeReadOn, if_pos h]
  exact bind_ok rfl

/-- and of one that it does not. -/
theorem inodeReadOn_refused (h : ¬ rangeOk ip off n = true) :
    (inodeReadOn env ip behind off n).run s = .ok (-1) s.fresh := by
  rw [inodeReadOn, if_neg h]
  rfl

/-- It copies no more than is left of the file, or than `n`. -/
theorem inodeReadOn_copied (h : rangeOk ip off n = true) (hfree : ∀ b, s.world.FreeAt b) :
    Ends (inodeReadOn env ip behind off n) s (LoopCopied (clip ip off n) 0) fun _ _ => False :=
  (Ends.congr (inodeReadOn_accepted h)).mpr
    (readLoopOn_copied env ip behind _ 0 off s.fresh rfl (Nat.zero_le _) hfree)

/-- It copies nothing if the range starts at the end of the file, or the loop stops at once. -/
theorem inodeReadOn_nothing (h : rangeOk ip off n = true) (hfree : ∀ b, s.world.FreeAt b)
    (hstop : ip.size ≤ off ∨ addrOn ip behind (off.toNat / bsize) = 0 ∨
      env.null s.world.reads = true) :
    Ends (inodeReadOn env ip behind off n) s (fun k s' => k = 0 ∧ s'.dst = [])
      fun _ _ => False := by
  have hclip := clip_toNat h
  refine (Ends.congr (inodeReadOn_accepted h)).mpr ?_
  generalize clip ip off n = m at hclip ⊢
  by_cases hpos : 0 < m
  case neg => exact .of_ok (readLoopOn_done hpos) ⟨rfl, rfl⟩
  have hpos' : 0 < m.toNat := hpos
  obtain ⟨fuel, hfuel⟩ : ∃ fuel, m.toNat = fuel + 1 := ⟨_, (Nat.succ_pred_eq_of_pos hpos').symm⟩
  rw [hfuel]
  refine readLoopOn_step hpos hfree (fun _ => ⟨rfl, rfl⟩) (fun _ => ⟨rfl, rfl⟩)
    fun hblock hread => ?_
  rcases hstop with hsize | hzero | hnull
  · have hsize' : ip.size.toNat ≤ off.toNat := hsize
    omega
  · exact absurd hzero hblock
  · have hread' : env.null s.world.reads = false := hread
    rw [hnull] at hread'
    cases hread'

/-- It copies something if the loop does not. -/
theorem inodeReadOn_something (h : rangeOk ip off n = true) (hfree : ∀ b, s.world.FreeAt b)
    (hn : 0 < n.toNat) (hin : off < ip.size) (hblock : addrOn ip behind (off.toNat / bsize) ≠ 0)
    (hread : env.null s.world.reads = false) :
    Ends (inodeReadOn env ip behind off n) s (fun _ s' => 0 < s'.dst.length)
      fun _ _ => False := by
  have hclip := clip_toNat h
  refine (Ends.congr (inodeReadOn_accepted h)).mpr ?_
  generalize clip ip off n = m at hclip ⊢
  have hin' : off.toNat < ip.size.toNat := hin
  have hpos' : 0 < m.toNat := by omega
  have hpos : 0 < m := hpos'
  obtain ⟨fuel, hfuel⟩ : ∃ fuel, m.toNat = fuel + 1 := ⟨_, (Nat.succ_pred_eq_of_pos hpos').symm⟩
  rw [hfuel]
  refine readLoopOn_step hpos hfree (fun hzero => absurd hzero hblock) (fun hnull => ?_)
    fun _ _ s' hdst hfree' => ?_
  · have hnull' : env.null s.world.reads = true := hnull
    rw [hread] at hnull'
    cases hnull'
  · -- the bytes of the first pass
    have hlen := passLen_toNat off hpos
    have hmod : off.toNat % bsize < bsize := Nat.mod_lt _ (by decide)
    have hzero : (0 : BitVec 32).toNat = 0 := rfl
    have hdst' : s'.dst.length = (passLen m 0 off).toNat := hdst.trans (Nat.zero_add _)
    have htot : (0 + passLen m 0 off).toNat = (passLen m 0 off).toNat :=
      congrArg BitVec.toNat (BitVec.zero_add _)
    refine (readLoopOn_copied env ip behind fuel _ _ s' (by rw [htot, hdst']) (by omega)
      hfree').mono (fun k s'' hk => ?_) fun _ _ h => h
    have hle := hk.from_le
    rw [hk.dst]
    omega

/-! ## 4. As long as it stays in the array -/

/-- A loop that does not leave the array. -/
theorem readLoopOn_of_ok : ∀ (fuel : Nat) (tot off : BitVec 32) (s : FileState)
    {r : BitVec 32 × BitVec 32}, (fileLoop env ip n copyOut fuel tot off).run s = .ok r s' →
      (readLoopOn env ip behind n fuel tot off).run s = .ok r.1 s' := by
  intro fuel
  induction fuel with
  | zero =>
    intro tot off s r hrun
    obtain ⟨rfl, rfl⟩ := EStateM.Result.ok.inj hrun
    rfl
  | succ fuel ih =>
    intro tot off s r hrun
    by_cases h : tot < n
    case neg =>
      obtain ⟨rfl, rfl⟩ := EStateM.Result.ok.inj ((fileLoop_done h).symm.trans hrun)
      exact readLoopOn_done h
    rcases Nat.lt_or_ge ndirect (off.toNat / bsize) with hi | hi
    · cases (fileLoop_out h hi).symm.trans hrun
    rw [fileLoop, if_pos h, addrAt_eq ip hi, pure_bind] at hrun
    rw [readLoopOn, if_pos h, addrOn, if_pos hi]
    dsimp only
    split at hrun
    case isTrue hzero =>
      obtain ⟨rfl, rfl⟩ := EStateM.Result.ok.inj hrun
      rw [if_pos hzero]
      rfl
    case isFalse hne =>
      rw [if_neg hne]
      obtain ⟨a, s₁, hread, hrest⟩ := bind_eq_ok hrun
      rw [bind_ok hread]
      cases a with
      | none =>
        obtain ⟨rfl, rfl⟩ := EStateM.Result.ok.inj hrest
        rfl
      | some bp =>
        obtain ⟨_, s₂, hnote, hrest⟩ := bind_eq_ok hrest
        obtain ⟨_, s₃, hcopy, hrest⟩ := bind_eq_ok hrest
        obtain ⟨_, s₄, hrelease, hrest⟩ := bind_eq_ok hrest
        dsimp only
        rw [bind_ok hnote, bind_ok hcopy, bind_ok hrelease]
        exact ih _ _ s₄ hrest

/-- **An `inode_read` that stays in the array** does the same, whatever lies behind. -/
theorem inodeReadOn_of_ok {k : BitVec 32} (h : (inodeRead env ip off n).run s = .ok k s') :
    (inodeReadOn env ip behind off n).run s = .ok k s' := by
  by_cases hok : rangeOk ip off n = true
  case neg =>
    rw [inodeRead_refused hok] at h
    exact (inodeReadOn_refused hok).trans h
  rw [inodeRead_accepted hok] at h
  obtain ⟨r, s₁, hloop, hresult⟩ := bind_eq_ok h
  obtain ⟨rfl, rfl⟩ := EStateM.Result.ok.inj hresult
  exact (inodeReadOn_accepted hok).trans (readLoopOn_of_ok _ _ _ _ hloop)

/-! ## 5. Which calls stay in the buffer -/

/-- The loop of `pipe_read` copies no more than it is asked for. -/
theorem readLoop_length : ∀ (n : Nat) (pi : Pipe), (pi.readLoop n).2.length ≤ n
  | 0, _ => Nat.le_refl _
  | n + 1, pi => by
    rw [Pipe.readLoop]
    split
    case isTrue => exact Nat.succ_le_succ (readLoop_length n pi.fetch.1)
    case isFalse => exact Nat.zero_le _

/-- What a call that stays in the buffer is like when it is over. -/
theorem within_of_ends {m : FileM (BitVec 32 × OpenFile)} {addr : BitVec 64}
    (h : Ends m s (fun r s' => s'.dst.length ≤ n.toInt.toNat ∧ r.1.toInt ≤ max n.toInt 0)
      fun _ s' => s'.dst.length ≤ n.toInt.toNat) : WithinBuffer addr n (m.run s) where
  writes i hi := by
    have hends : Ends m s (fun _ s' => s'.dst.length ≤ n.toInt.toNat)
        fun _ s' => s'.dst.length ≤ n.toInt.toNat :=
      h.mono (fun _ _ hr => hr.1) fun _ _ he => he
    exact ⟨i, Nat.lt_of_lt_of_le hi (ends_finalState.mp hends), rfl⟩
  result k f s' hrun := ((Ends.iff_of_ok hrun).mp h).2

/-- A call with a negative `n` that copies something does not. -/
theorem not_within {r : EStateM.Result Halt FileState (BitVec 32 × OpenFile)} {addr : BitVec 64}
    (hn : n.toInt < 0) (h : 0 < (finalState r).dst.length) : ¬ WithinBuffer addr n r := by
  intro hwithin
  obtain ⟨j, hj, -⟩ := hwithin.writes 0 h
  omega

/-- `inode_read` with a length that is not negative. -/
theorem inodeReadOn_within (hn : 0 ≤ n.toInt) (hfree : ∀ b, s.world.FreeAt b) :
    Ends (inodeReadOn env ip behind off n) s
      (fun k s' => s'.dst.length ≤ n.toInt.toNat ∧ k.toInt ≤ max n.toInt 0)
      fun _ _ => False := by
  have hint : n.toInt = n.toNat := BitVec.toInt_eq_toNat_of_msb (by
    rw [BitVec.msb_eq_toInt, decide_eq_false_iff_not]
    omega)
  by_cases h : rangeOk ip off n = true
  case neg =>
    refine .of_ok (inodeReadOn_refused h) ⟨Nat.zero_le _, ?_⟩
    exact Int.le_trans (by decide) (Int.le_max_right _ _)
  have hclip := clip_toNat h
  refine (inodeReadOn_copied h hfree).mono (fun k s' hk => ?_) fun _ _ he => he
  have hdst := hk.dst
  have hle := hk.le
  have htoInt := BitVec.toInt_eq_toNat_cond k
  refine ⟨by omega, ?_⟩
  split at htoInt
  all_goals omega

variable {f : OpenFile}

/-- What `file_read` does with an inode, after `inode_lock`. -/
def readLocked (env : Env) (f : OpenFile) (behind : Nat → BlockNo) (n : BitVec 32)
    (ip : Inode Pid) : FileM (BitVec 32 × OpenFile) := do
  let r ← inodeReadOn env ip.copy behind f.off n
  let off := if 0 < r.toInt then f.off + r else f.off
  pure (r, { f with off := off, ip := inodeUnlock env ip })

theorem fileRead_inode (hr : f.readable = true) (ht : f.type = .inode ∨ f.type = .device) :
    (fileRead env sb f behind n).run s =
      (inodeLock env sb f.ip >>= readLocked env f behind n).run s.fresh := by
  obtain ⟨type, readable, writable, pipe, ip, off⟩ := f
  cases hr
  rcases ht with ht | ht
  all_goals
    cases ht
    rfl

/-- `inode_lock` does not wait. -/
theorem Unheld.awake (h : Unheld f s.world) (ht : f.type = .inode ∨ f.type = .device) :
    ¬ LockSleeps env sb f.ip s.world := by
  obtain ⟨hlock, hfree⟩ := h ht
  rintro ⟨-, hheld | ⟨-, -, hlocked⟩⟩
  · exact hheld hlock
  · have hunlocked := hfree (iblock f.ip.inum sb)
    rw [World.FreeAt, hlocked] at hunlocked
    cases hunlocked

/-- **`file_read` of an inode**: `inode_lock`, and then what it does with the inode. -/
theorem fileRead_locked {Q : BitVec 32 × OpenFile → FileState → Prop}
    (hr : f.readable = true) (ht : f.type = .inode ∨ f.type = .device)
    (hunheld : Unheld f s.world)
    (h : ∀ s', s'.world.reads = s.world.reads + (if lockLoads f.ip then 1 else 0) →
      (∀ b, s'.world.FreeAt b) →
      Ends (readLocked env f behind n (lockedInode env sb f.ip s.world)) s' Q E) :
    Ends (fileRead env sb f behind n) s Q E := by
  have hawake : ¬ LockSleeps env sb f.ip s.fresh.world := hunheld.awake ht
  refine (Ends.congr (fileRead_inode hr ht)).mpr (Ends.bind (Q := fun ip s' =>
    ip = lockedInode env sb f.ip s.world ∧ s' = s.fresh.locked env sb f.ip)
    (inodeLock_ends (fun hsleeps => absurd hsleeps hawake) fun _ => ⟨rfl, rfl⟩) ?_)
  rintro ip s' ⟨rfl, rfl⟩
  exact h _ (locked_reads _ _ _ _) fun b => (locked_free hawake b).trans ((hunheld ht).2 b)

theorem refused_le (n : BitVec 32) : (-1 : BitVec 32).toInt ≤ max n.toInt 0 :=
  Int.le_trans (by decide) (Int.le_max_right _ _)

/-- `inode_read` after `inode_lock`, where the call does not overrun the buffer. -/
theorem readLocked_within {w : World} (hr : f.readable = true)
    (ht : f.type = .inode ∨ f.type = .device) (h : ¬ Overruns env sb f behind n w)
    (hreads : s.world.reads = w.reads + if lockLoads f.ip then 1 else 0)
    (hfree : ∀ b, s.world.FreeAt b) :
    Ends (readLocked env f behind n (lockedInode env sb f.ip w)) s
      (fun r s' => s'.dst.length ≤ n.toInt.toNat ∧ r.1.toInt ≤ max n.toInt 0)
      fun _ _ => False := by
  refine Ends.bind (Q := fun k s' => s'.dst.length ≤ n.toInt.toNat ∧ k.toInt ≤ max n.toInt 0)
    ?read ?result
  case result => exact fun _ _ hk => hk
  case read =>
    obtain ⟨copy, hcopy⟩ : ∃ copy, lockedCopy env sb f.ip w = copy := ⟨_, rfl⟩
    change Ends (inodeReadOn env (lockedCopy env sb f.ip w) behind f.off n) _ _ _
    rw [hcopy]
    by_cases hn : 0 ≤ n.toInt
    case pos => exact inodeReadOn_within hn hfree
    by_cases hok : rangeOk copy f.off n = true
    case neg => exact .of_ok (inodeReadOn_refused hok) ⟨Nat.zero_le _, refused_le n⟩
    obtain ⟨hsize, hwrap⟩ := (rangeOk_iff copy f.off n).mp hok
    have hstop : copy.size ≤ f.off ∨ addrOn copy behind (f.off.toNat / bsize) = 0 ∨
        env.null s.world.reads = true := by
      by_contra hgo
      simp only [not_or, Bool.not_eq_true] at hgo
      obtain ⟨hin, hblock, hread⟩ := hgo
      exact h ⟨hr, ht, Int.lt_of_not_ge hn, by rw [hcopy]; exact BitVec.not_le.mp hin, hwrap,
        by rw [hcopy]; exact hblock, by rw [← hreads]; exact hread⟩
    refine (inodeReadOn_nothing hok hfree hstop).mono (fun k s' hk => ?_) fun _ _ he => he
    rw [hk.1, hk.2]
    exact ⟨Nat.zero_le _, Int.le_max_right _ _⟩

/-- A section of `pipe_read` copies no more than it is asked for. -/
theorem pipeRead_within (pi : Pipe) (hs : s.dst = []) :
    Ends (pipeRead pi n) s
      (fun r s' => s'.dst.length ≤ n.toInt.toNat ∧ r.1.toInt ≤ max n.toInt 0)
      fun _ s' => s'.dst.length ≤ n.toInt.toNat := by
  cases hwaits : pi.readWaits with
  | true =>
    have hrun : (pipeRead pi n).run s = .error .asleep s := by
      rw [pipeRead, hwaits]
      rfl
    exact .of_error hrun (by rw [hs]; exact Nat.zero_le _)
  | false =>
    rw [pipeRead, hwaits]
    have hlen := readLoop_length n.toInt.toNat pi
    have hmax := n.toInt_lt
    refine .of_ok rfl ⟨?_, ?_⟩
    · rw [hs]
      exact hlen
    · generalize (pi.readLoop n.toInt.toNat).2.length = k at hlen ⊢
      have hk : k < 2 ^ 31 := by omega
      have hnat : (BitVec.ofNat 32 k).toNat = k := by
        rw [BitVec.toNat_ofNat, Nat.mod_eq_of_lt (by omega)]
      have hint : (BitVec.ofNat 32 k).toInt = k := by
        rw [BitVec.toInt_eq_toNat_of_lt (by omega), hnat]
      change (BitVec.ofNat 32 k).toInt ≤ _
      omega

/-- A call that does not overrun the buffer. -/
theorem within_of_not_overruns (addr : BitVec 64) (hunheld : Unheld f s.world)
    (h : ¬ Overruns env sb f behind n s.world) :
    WithinBuffer addr n ((fileRead env sb f behind n).run s) := by
  have hstart : startCall.run s = .ok () s.fresh := rfl
  refine within_of_ends ?_
  by_cases hr : f.readable = true
  case neg =>
    have hrun : (fileRead env sb f behind n).run s = .ok (-1, f) s.fresh := by
      rw [fileRead, bind_ok hstart, if_neg hr]
      rfl
    exact .of_ok hrun ⟨Nat.zero_le _, refused_le n⟩
  by_cases ht : f.type = .inode ∨ f.type = .device
  case pos =>
    exact (fileRead_locked hr ht hunheld fun s' => readLocked_within hr ht h).mono
      (fun _ _ hk => hk) fun _ _ he => he.elim
  case neg =>
    obtain ⟨type, readable, writable, pipe, ip, off⟩ := f
    cases hr
    cases type with
    | none => exact .of_ok (a := (-1, _)) rfl ⟨Nat.zero_le _, refused_le n⟩
    | pipe => exact (pipeRead_within (s := s.fresh) pipe rfl).bind fun _ _ hk => hk
    | inode => exact absurd (.inl rfl) ht
    | device => exact absurd (.inr rfl) ht

/-- **`file_read` stays in its buffer, exactly when it is not given a negative `n` with which
`inode_read` gets to a block**: for every file of any type, every offset, size and address, whatever
`block_read` returns, and whatever lies behind `ip->addrs`. -/
theorem fileRead_within_iff (env : Env) (sb : Superblock) (f : OpenFile)
    (behind : Nat → BlockNo) (s : FileState) (addr : BitVec 64) (n : BitVec 32)
    (hunheld : Unheld f s.world) :
    WithinBuffer addr n ((fileRead env sb f behind n).run s) ↔
      ¬ Overruns env sb f behind n s.world := by
  constructor
  case mpr => exact within_of_not_overruns addr hunheld
  case mp =>
    intro hwithin hover
    refine not_within hover.negative ?_ hwithin
    have hpos : 0 < n.toNat := by
      have hint := BitVec.toInt_eq_toNat_cond n
      have hneg := hover.negative
      split at hint
      all_goals omega
    have hok : rangeOk (lockedCopy env sb f.ip s.world) f.off n = true :=
      (rangeOk_iff _ _ _).mpr ⟨Nat.le_of_lt hover.inFile, hover.noWrap⟩
    have hends : Ends (fileRead env sb f behind n) s (fun _ s' => 0 < s'.dst.length)
        fun _ s' => 0 < s'.dst.length := by
      refine fileRead_locked hover.readable hover.type hunheld fun s' hreads hfree => ?_
      have hread := inodeReadOn_something hok hfree hpos hover.inFile hover.block
        (by rw [hreads]; exact hover.read)
      exact Ends.bind (hread.mono (fun _ _ hk => hk) fun _ _ he => he.elim) fun _ _ hk => hk
    exact ends_finalState.mp hends

/-- A file of 1000 bytes, open at its beginning. -/
def openShort : OpenFile :=
  { type := .inode
    readable := true
    writable := true
    pipe := .alloc fun _ => 0
    ip := ⟨1, 1, 1, none, true, shortFile⟩
    off := 0 }

/-- 600 bytes of it. -/
theorem fileRead_within_iff_short : WithinBuffer 0x80000000 600
    ((fileRead ⟨1, fun _ => false, fun _ => false⟩ smallFs openShort (fun _ => 0) 600).run
      bootFiles) :=
  (fileRead_within_iff ⟨1, fun _ => false, fun _ => false⟩ smallFs openShort (fun _ => 0) bootFiles
    0x80000000 600 fun _ => ⟨rfl, fun _ => rfl⟩).mpr fun h => absurd h.negative (by decide)

/-- `file_read` with `n = -1` copies the whole file of 1000 bytes. -/
theorem negative_read_overruns : ¬ ∀ (env : Env) (sb : Superblock) (f : OpenFile)
    (behind : Nat → BlockNo) (s : FileState) (addr : BitVec 64) (n : BitVec 32),
    Unheld f s.world → f.readable = true →
    WithinBuffer addr n ((fileRead env sb f behind n).run s) := by
  intro h
  have hwithin := h ⟨1, fun _ => false, fun _ => false⟩ smallFs openShort (fun _ => 0) bootFiles
    0x80000000 (-1) (fun _ => ⟨rfl, fun _ => rfl⟩) rfl
  refine not_within (by decide) ?_ hwithin
  decide +kernel

end Lithium.Wal
