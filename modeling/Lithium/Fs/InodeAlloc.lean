/-
# Allocating inodes

`inode_alloc`, and `inode_update` as its callers and `inode_put` call it, for any number of
processes.  Each goes through the calls of the block layer one at a time: `block_read` in two
halves, since it may sleep on the buffer, the accesses to one of the eight inodes of the block,
`log_write`, and `block_release`.  Other processes read the blocks meanwhile, and a commit writes
those home that are in the log, and takes their pins back.

`block_read` never returns `NULL` and `log_write` accepts every call.  An inode on the disk is what
`block_read` shows: as long as its block is in the log, the disk itself has an older one.
-/
import Lithium.Fs.Inode
import Lithium.Fs.BlockHold
import Lithium.Lib.Grants

namespace Lithium.Wal

open Transition Grants

/-! ## 1. Data -/

/-- What a process does with a block. -/
inductive InodeJob where
  /-- An iteration of `inode_alloc`; `call` tells the calls apart. -/
  | alloc (call : Nat) (type : BitVec 16) (inum : BitVec 32)
  /-- `inode_update`, with the fields of the inode in memory. -/
  | update (inum : BitVec 32) (copy : Dinode)
  /-- It reads the block. -/
  | look (b : BlockNo)
  /-- The part of `install_trans` for the block. -/
  | install (b : BlockNo)

/-- Where it is between `block_read` and `block_release`. -/
inductive JobStage where
  /-- Before `block_read`. -/
  | read
  /-- In `block_read`, before it has the sleeplock. -/
  | lock
  /-- After `block_read`. -/
  | holding
  /-- In `inode_alloc`, after it has found the inode free. -/
  | claim
  /-- Before `log_write`. -/
  | log
  /-- Before `block_release`; `found` when `inode_alloc` has written the inode. -/
  | release (found : Bool)

/-- Where a process is. -/
inductive AllocPoint where
  | idle
  /-- Before the test of the loop of `inode_alloc`. -/
  | scan (call : Nat) (type : BitVec 16) (inum : BitVec 32)
  | busy (j : InodeJob) (st : JobStage)
  /-- Before `inode_get`, at the end of `inode_alloc`. -/
  | get (call : Nat) (inum : BitVec 32)

/-- An inode that `inode_alloc` has taken, and the type it had: as `block_read` shows it, and on the
disk; `logged` when its block is in the log. -/
structure Taken where
  call : Nat
  inum : BitVec 32
  shown : BitVec 16
  stored : BitVec 16
  logged : Bool

/-- The block layer, the blocks in the log, the references `block_read` has taken, and where each
process is.  The rest is history: the calls of `inode_alloc`, the inodes taken and freed, and what
`inode_alloc` has returned. -/
structure AllocState where
  world : World
  pins : List BlockNo
  refs : List (Pid × BlockNo)
  point : Pid → AllocPoint
  calls : Nat
  history : List (Event Nat (BitVec 32))
  taken : List Taken
  returned : List (Nat × BitVec 32)

/-- What happens next. -/
inductive AllocOp where
  | inodeAlloc (i : Pid) (type : BitVec 16)
  /-- `inode_update` of an allocated inode. -/
  | inodeUpdate (i : Pid) (inum : BitVec 32) (copy : Dinode)
  /-- `inode_put` frees an inode: it clears the type, and calls `inode_update`. -/
  | inodePut (i : Pid) (inum : BitVec 32) (copy : Dinode)
  | look (i : Pid) (b : BlockNo)
  | install (i : Pid) (b : BlockNo)
  /-- Process `i` goes on; `recycled` is for `buf_get`, and `full` when `inode_get` finds the inode
  cache full. -/
  | next (i : Pid) (recycled full : Bool)

/-- The block of a job. -/
def InodeJob.block (sb : Superblock) : InodeJob → BlockNo
  | .alloc _ _ inum | .update inum _ => iblock inum sb
  | .look b | .install b => b

/-- After `block_release`. -/
def InodeJob.after (found : Bool) : InodeJob → AllocPoint
  | .alloc call type inum => if found then .get call inum else .scan call type (inum + 1)
  | _ => .idle

/-- What a process has of the buffer of its block. -/
def JobStage.hold : JobStage → Option Hold
  | .read => none
  | .lock => some .waiting
  | .log => some .dirty
  | .holding | .claim | .release _ => some .holding

/-- The block a process holds, and how far it is with it. -/
def AllocPoint.hold (sb : Superblock) : AllocPoint → Option (BlockNo × Hold)
  | .busy j st => st.hold.map fun x => (j.block sb, x)
  | _ => none

namespace AllocState

/-! ## 2. `inode.c` -/

/-- Move a process. -/
def goto (s : AllocState) (i : Pid) (p : AllocPoint) : AllocState :=
  { s with point := Function.update s.point i p }

/-- The inode, as `block_read` shows it. -/
def dinode (sb : Superblock) (s : AllocState) (inum : BitVec 32) : Dinode :=
  (s.world.view (iblock inum sb)).dinode (inodeSlot inum)

/-- Assign the fields of the `struct dinode` in the buffer. -/
def setDinode (sb : Superblock) (s : AllocState) (inum : BitVec 32) (d : Dinode) : AllocState :=
  let b := iblock inum sb
  { s with world :=
    finalWorld ((setData b ((s.world.bufs b).data.setDinode (inodeSlot inum) d)).run s.world) }

/-- The memory of `struct dinode` cleared, and the type assigned. -/
def blank (type : BitVec 16) : Dinode := ⟨type, 0, 0, 0, 0, fun _ => 0⟩

/-- `log_write`, which accepts the block. -/
def logWrite (s : AllocState) (b : BlockNo) : AllocState :=
  if s.pins.contains b then s
  else { s with world := finalWorld ((bufPin b).run s.world), pins := b :: s.pins }

/-- `block_write` and `buf_unpin` of `install_trans`. -/
def installBlock (s : AllocState) (i : Pid) (b : BlockNo) : AllocState :=
  if s.pins.contains b then
    let w := finalWorld ((blockWrite (asPid i false) b).run s.world)
    { s with world := finalWorld ((bufUnpin b).run w), pins := s.pins.erase b }
  else s

/-- What a process does once it has the buffer. -/
def holdStep (sb : Superblock) (s : AllocState) (i : Pid) (j : InodeJob) : AllocState :=
  match j with
  | .alloc _ _ inum =>
    let dip := (s.world.bufs (iblock inum sb)).data.dinode (inodeSlot inum)
    s.goto i (.busy j (if dip.type = 0 then .claim else .release false))
  | .update inum copy =>
    { s.setDinode sb inum copy with
      history := if copy.type = 0 then .revoke inum :: s.history else s.history }.goto i
        (.busy j .log)
  | .look _ => s.goto i (.busy j (.release false))
  | .install b => (s.installBlock i b).goto i (.busy j (.release false))

/-- `inode_alloc` has found the inode free. -/
def claimStep (sb : Superblock) (s : AllocState) (i : Pid) (j : InodeJob) : Option AllocState :=
  match j with
  | .alloc call type inum =>
    let b := iblock inum sb
    some ({ s.setDinode sb inum (blank type) with
      history := .grant call inum :: s.history
      taken := ⟨call, inum, (s.dinode sb inum).type,
        ((s.world.disk b).dinode (inodeSlot inum)).type, s.pins.contains b⟩ :: s.taken }.goto i
        (.busy j .log))
  | _ => none

/-- The next step of a process with a block. -/
def jobStep (sb : Superblock) (s : AllocState) (i : Pid) (recycled : Bool) (j : InodeJob) :
    JobStage → Option AllocState
  | .read =>
    let b := j.block sb
    some ({ s with world := s.world.getBuf b recycled, refs := (i, b) :: s.refs }.goto i
      (.busy j .lock))
  | .lock => (s.world.lockBuf i (j.block sb)).map fun w =>
    { s with world := w }.goto i (.busy j .holding)
  | .holding => some (s.holdStep sb i j)
  | .claim => s.claimStep sb i j
  | .log => some ((s.logWrite (j.block sb)).goto i (.busy j (.release true)))
  | .release found =>
    let b := j.block sb
    some ({ s with
      world := finalWorld ((blockRelease (asPid i false) b).run s.world)
      refs := s.refs.erase (i, b) }.goto i (j.after found))

/-- Start a job. -/
def start (s : AllocState) (i : Pid) (p : AllocPoint) : Option AllocState :=
  match s.point i with
  | .idle => some (s.goto i p)
  | _ => none

/-- One step. -/
def step (sb : Superblock) (s : AllocState) : AllocOp → Option AllocState
  | .inodeAlloc i type =>
    if type = 0 then none
    else { s with calls := s.calls + 1 }.start i (.scan s.calls type 1)
  | .inodeUpdate i inum copy =>
    if copy.type = 0 then none else s.start i (.busy (.update inum copy) .read)
  | .inodePut i inum copy => s.start i (.busy (.update inum { copy with type := 0 }) .read)
  | .look i b => s.start i (.busy (.look b) .read)
  | .install i b => s.start i (.busy (.install b) .read)
  | .next i recycled full =>
    match s.point i with
    | .idle => none
    | .scan call type inum =>
      some (s.goto i (if inum < sb.ninodes then .busy (.alloc call type inum) .read else .idle))
    | .busy j st => s.jobStep sb i recycled j st
    | .get call inum =>
      some ({ s with returned := if full then s.returned else (call, inum) :: s.returned }.goto i
        .idle)

/-- The machine just booted over a disk. -/
def init (disk : Disk) : AllocState where
  world := .boot disk
  pins := []
  refs := []
  point := fun _ => .idle
  calls := 0
  history := []
  taken := []
  returned := []

/-! ## 3. The property -/

/-- What `inode_alloc` has returned: inodes within range, which were free when they were taken, and
no inode twice unless it was freed in between. -/
structure AllocOk (sb : Superblock) (s : AllocState) : Prop where
  range : ∀ c n, (c, n) ∈ s.returned → 1 ≤ n.toNat ∧ n.toNat < sb.ninodes.toNat
  free : ∀ c n, (c, n) ∈ s.returned → ∃ t ∈ s.taken, t.call = c ∧ t.inum = n ∧ t.shown = 0 ∧
    (t.logged = false → t.stored = 0)
  once : ∀ c c' n, (c, n) ∈ s.returned → (c', n) ∈ s.returned → c ≠ c' →
    RevokedBetween s.history c c' n ∨ RevokedBetween s.history c' c n

/-! ## 4. The invariant -/

/-- What holds of a process, wherever it is. -/
def PointOk (sb : Superblock) (s : AllocState) : AllocPoint → Prop
  | .idle => True
  | .scan _ type inum => type ≠ 0 ∧ 1 ≤ inum.toNat
  | .busy (.alloc call type inum) st =>
    type ≠ 0 ∧ 1 ≤ inum.toNat ∧ inum.toNat < sb.ninodes.toNat ∧
      match st with
      | .claim => (s.dinode sb inum).type = 0
      | .log | .release true => .grant call inum ∈ s.history
      | _ => True
  | .busy _ st => st ≠ .claim
  | .get call inum =>
    1 ≤ inum.toNat ∧ inum.toNat < sb.ninodes.toNat ∧ .grant call inum ∈ s.history

/-- A granted inode has a type, whatever the buffers go through. -/
structure Inv (sb : Superblock) (s : AllocState) : Prop where
  blocks : BlockOk (fun i => (s.point i).hold sb) s.world s.pins s.refs
  point : ∀ i, s.PointOk sb (s.point i)
  exclusive : Exclusive s.history
  granted : ∀ n, Granted s.history n → (s.dinode sb n).type ≠ 0
  taken : ∀ c n, .grant c n ∈ s.history → ∃ t ∈ s.taken, t.call = c ∧ t.inum = n ∧ t.shown = 0 ∧
    (t.logged = false → t.stored = 0)
  returned : ∀ c n, (c, n) ∈ s.returned →
    1 ≤ n.toNat ∧ n.toNat < sb.ninodes.toNat ∧ .grant c n ∈ s.history

/-! ## 5. One step -/

variable {sb : Superblock} {s s' : AllocState} {i : Pid} {j : InodeJob} {st : JobStage}
  {p : AllocPoint} {inum n : BitVec 32}

/-- What the processes hold, after one of them has moved. -/
theorem hold_update (s : AllocState) (i : Pid) (p : AllocPoint) :
    (fun k => (Function.update s.point i p k).hold sb)
      = Function.update (fun k => (s.point k).hold sb) i (p.hold sb) := by
  funext k
  by_cases hk : k = i
  · subst hk
    simp only [Function.update_self]
  · simp only [Function.update_of_ne hk]

theorem PointOk.congr (h : s.PointOk sb p)
    (hclaim : ∀ c ty n, p = .busy (.alloc c ty n) .claim → s'.dinode sb n = s.dinode sb n)
    (hmem : ∀ e ∈ s.history, e ∈ s'.history) : s'.PointOk sb p := by
  cases p with
  | idle => trivial
  | scan call type inum => exact h
  | get call inum => exact ⟨h.1, h.2.1, hmem _ h.2.2⟩
  | busy j st =>
    cases j with
    | alloc call type inum =>
      obtain ⟨htype, hpos, hlt, hst⟩ := h
      refine ⟨htype, hpos, hlt, ?_⟩
      cases st with
      | claim =>
        rw [← hclaim call type inum rfl] at hst
        exact hst
      | log => exact hmem _ hst
      | release found =>
        cases found with
        | true => exact hmem _ hst
        | false => trivial
      | read => trivial
      | lock => trivial
      | holding => trivial
    | update inum copy => exact h
    | look b => exact h
    | install b => exact h

/-- **A step that assigns to no buffer.** -/
theorem Inv.quiet (h : Inv sb s) (hpoint : s'.point = Function.update s.point i p)
    (hblocks : BlockOk (Function.update (fun k => (s.point k).hold sb) i (p.hold sb)) s'.world
      s'.pins s'.refs)
    (hview : ∀ b, s'.world.view b = s.world.view b) (hhistory : s'.history = s.history)
    (htaken : s'.taken = s.taken)
    (hreturned : ∀ c n, (c, n) ∈ s'.returned → (c, n) ∈ s.returned ∨
      1 ≤ n.toNat ∧ n.toNat < sb.ninodes.toNat ∧ .grant c n ∈ s.history)
    (hp : s.PointOk sb p) : Inv sb s' := by
  have hdinode : ∀ n, s'.dinode sb n = s.dinode sb n := fun n => by
    rw [AllocState.dinode, AllocState.dinode, hview]
  have hmem : ∀ e ∈ s.history, e ∈ s'.history := by
    rw [hhistory]
    exact fun _ he => he
  constructor
  case blocks =>
    rw [hpoint, hold_update]
    exact hblocks
  case point =>
    rw [hpoint]
    exact (Function.forall_update_iff s.point fun _ => s'.PointOk sb).mpr
      ⟨hp.congr (fun _ _ n _ => hdinode n) hmem,
        fun k _ => (h.point k).congr (fun _ _ n _ => hdinode n) hmem⟩
  case exclusive =>
    rw [hhistory]
    exact h.exclusive
  case granted =>
    intro n hn
    rw [hdinode]
    rw [hhistory] at hn
    exact h.granted n hn
  case taken =>
    rw [hhistory, htaken]
    exact h.taken
  case returned =>
    intro c n hcn
    rw [hhistory]
    exact (hreturned c n hcn).elim (h.returned c n) id

/-- A step that only moves the process, and what it returns. -/
theorem Inv.move (h : Inv sb s) (hp : s.PointOk sb p) (hhold : p.hold sb = (s.point i).hold sb) :
    Inv sb (s.goto i p) := by
  refine h.quiet rfl ?_ (fun _ => rfl) rfl rfl (fun _ _ => Or.inl) hp
  rw [hhold, Function.update_eq_self]
  exact h.blocks

/-- **An assignment to the inode of the block that the process holds.** -/
theorem Inv.assign (h : Inv sb s) (hi : (s.point i).hold sb = some (iblock inum sb, .holding))
    (d : Dinode) :
    BlockOk (Function.update (fun k => (s.point k).hold sb) i (some (iblock inum sb, .dirty)))
        (s.setDinode sb inum d).world s.pins s.refs ∧
      ∀ n, (s.setDinode sb inum d).dinode sb n = if n = inum then d else s.dinode sb n := by
  obtain ⟨hblocks, hview⟩ := h.blocks.assign hi
    ((s.world.bufs (iblock inum sb)).data.setDinode (inodeSlot inum) d)
  refine ⟨hblocks, fun n => ?_⟩
  have hvalid := (h.blocks.locked i _ _ hi (by simp)).2
  by_cases hb : iblock n sb = iblock inum sb
  · -- the same block: the slots tell the inodes apart
    have hslot : inodeSlot n = inodeSlot inum ↔ n = inum :=
      ⟨inode_place hb, fun he => by rw [he]⟩
    have hold : s.dinode sb n = (s.world.bufs (iblock inum sb)).data.dinode (inodeSlot n) := by
      rw [AllocState.dinode, hb, World.view, if_pos hvalid]
    rw [hold, AllocState.dinode, hb]
    refine (congrArg (fun x => Block.dinode x (inodeSlot n)) hview).trans ?_
    rw [Block.dinode_setDinode _ d (inodeSlot_lt n)]
    simp only [hslot]
  · have hne : n ≠ inum := fun he => hb (by rw [he])
    rw [if_neg hne, AllocState.dinode, AllocState.dinode]
    exact congrArg (fun x => Block.dinode x (inodeSlot n)) (view_put_of_ne s.world hb _)

/-- After an assignment, the process has moved, and the others are where they were. -/
theorem Inv.points (h : Inv sb s) (hi : (s.point i).hold sb = some (iblock inum sb, .holding))
    (hpoint : s'.point = Function.update s.point i p)
    (hother : ∀ n, n ≠ inum → s'.dinode sb n = s.dinode sb n)
    (hmem : ∀ e ∈ s.history, e ∈ s'.history) (hp : s'.PointOk sb p) (k : Pid) :
    s'.PointOk sb (s'.point k) := by
  rw [hpoint]
  refine (Function.forall_update_iff s.point fun _ => s'.PointOk sb).mpr ⟨hp, fun k hk => ?_⟩ k
  refine (h.point k).congr (fun c ty n hclaim => hother n ?_) hmem
  rintro rfl
  -- it would hold the same block
  have hhold : (s.point k).hold sb = some (iblock n sb, .holding) := by rw [hclaim]; rfl
  exact hk (h.blocks.alone hi (by simp) hhold (by simp))

/-- **`inode_update`** writes the inode. -/
theorem Inv.updateStep (h : Inv sb s) {copy : Dinode}
    (hpi : s.point i = .busy (.update inum copy) .holding) :
    Inv sb (s.holdStep sb i (.update inum copy)) := by
  have hi : (s.point i).hold sb = some (iblock inum sb, .holding) := by rw [hpi]; rfl
  obtain ⟨hblocks, hdinode⟩ := h.assign hi copy
  set s' := s.holdStep sb i (.update inum copy) with hs'
  have hd : ∀ n, s'.dinode sb n = if n = inum then copy else s.dinode sb n := hdinode
  have hpoint : s'.point = Function.update s.point i (.busy (.update inum copy) .log) := rfl
  have hhistory : s'.history = if copy.type = 0 then .revoke inum :: s.history else s.history := rfl
  have hmem : ∀ e ∈ s.history, e ∈ s'.history := by
    rw [hhistory]
    intro e he
    split
    · exact List.mem_cons_of_mem _ he
    · exact he
  have hgrant : ∀ c n, Event.grant c n ∈ s'.history → .grant c n ∈ s.history := by
    rw [hhistory]
    intro c n hcn
    split at hcn
    · exact (List.mem_cons.mp hcn).resolve_left (by simp)
    · exact hcn
  constructor
  case blocks =>
    rw [hpoint, hold_update]
    exact hblocks
  case point =>
    exact h.points hi hpoint (fun n hn => by rw [hd n, if_neg hn]) hmem
      (by simp : JobStage.log ≠ .claim)
  case exclusive =>
    rw [hhistory]
    split
    · exact h.exclusive
    · exact h.exclusive
  case granted =>
    intro n hn
    rw [hhistory] at hn
    rw [hd n]
    by_cases hfree : copy.type = 0
    · rw [if_pos hfree] at hn
      rw [if_neg hn.1]
      exact h.granted n hn.2
    · rw [if_neg hfree] at hn
      split
      · exact hfree
      · exact h.granted n hn
  case taken => exact fun c n hcn => h.taken c n (hgrant c n hcn)
  case returned =>
    intro c n hcn
    obtain ⟨hpos, hlt, hcn⟩ := h.returned c n hcn
    exact ⟨hpos, hlt, hmem _ hcn⟩

/-- **`inode_alloc`** takes the inode. -/
theorem Inv.claimStep (h : Inv sb s) {call : Nat} {type : BitVec 16}
    (hpi : s.point i = .busy (.alloc call type inum) .claim)
    (hs : s.claimStep sb i (.alloc call type inum) = some s') : Inv sb s' := by
  have hi : (s.point i).hold sb = some (iblock inum sb, .holding) := by rw [hpi]; rfl
  obtain ⟨hblocks, hdinode⟩ := h.assign hi (blank type)
  have hok := h.point i
  rw [hpi] at hok
  obtain ⟨htype, hpos, hlt, hzero⟩ : type ≠ 0 ∧ 1 ≤ inum.toNat ∧
    inum.toNat < sb.ninodes.toNat ∧ (s.dinode sb inum).type = 0 := hok
  have hd : ∀ n, s'.dinode sb n = if n = inum then blank type else s.dinode sb n := by
    obtain rfl := Option.some.inj hs
    exact hdinode
  have hhistory : s'.history = .grant call inum :: s.history := by
    obtain rfl := Option.some.inj hs
    rfl
  have hmem : ∀ e ∈ s.history, e ∈ s'.history := by
    rw [hhistory]
    exact fun e he => List.mem_cons_of_mem _ he
  have hpoint : s'.point = Function.update s.point i (.busy (.alloc call type inum) .log) := by
    obtain rfl := Option.some.inj hs
    rfl
  -- unless its block is in the log, the disk has the type that `block_read` shows
  have hstored : s.pins.contains (iblock inum sb) = false →
      ((s.world.disk (iblock inum sb)).dinode (inodeSlot inum)).type = 0 := by
    intro hpin
    have hclean := h.blocks.clean (iblock inum sb)
      (fun hb => by simp [hb] at hpin) fun k hk => ?_
    · rw [← hclean]
      exact hzero
    · have hki := h.blocks.alone hi (by simp) hk (by simp)
      rw [hki, hi] at hk
      cases hk
  constructor
  case blocks =>
    rw [hpoint, hold_update]
    obtain rfl := Option.some.inj hs
    exact hblocks
  case point =>
    refine h.points hi hpoint (fun n hn => by rw [hd n, if_neg hn]) hmem ⟨htype, hpos, hlt, ?_⟩
    rw [hhistory]
    exact List.mem_cons_self
  case exclusive =>
    rw [hhistory]
    exact ⟨fun hg => h.granted inum hg hzero, h.exclusive⟩
  case granted =>
    intro n hn
    rw [hd n]
    rw [hhistory] at hn
    split
    · exact htype
    · rename_i hne
      exact h.granted n (hn.resolve_left hne)
  case taken =>
    intro c n hcn
    rw [hhistory] at hcn
    obtain rfl := Option.some.inj hs
    rcases List.mem_cons.mp hcn with he | hcn
    · obtain ⟨rfl, rfl⟩ := Event.grant.inj he
      exact ⟨_, List.mem_cons_self, rfl, rfl, hzero, hstored⟩
    · obtain ⟨t, ht, hrest⟩ := h.taken c n hcn
      exact ⟨t, List.mem_cons_of_mem _ ht, hrest⟩
  case returned =>
    intro c n hcn
    obtain rfl := Option.some.inj hs
    obtain ⟨hpos, hlt, hcn⟩ := h.returned c n hcn
    exact ⟨hpos, hlt, List.mem_cons_of_mem _ hcn⟩

/-- What a process does once it has the buffer. -/
theorem Inv.holdStep (h : Inv sb s) (hpi : s.point i = .busy j .holding) :
    Inv sb (s.holdStep sb i j) := by
  have hi : (s.point i).hold sb = some (j.block sb, .holding) := by rw [hpi]; rfl
  have hok := h.point i
  rw [hpi] at hok
  cases j with
  | alloc call type inum =>
    obtain ⟨htype, hpos, hlt, -⟩ := hok
    have hvalid := (h.blocks.locked i _ _ hi (by simp)).2
    have hdip : (s.world.bufs (iblock inum sb)).data.dinode (inodeSlot inum)
        = s.dinode sb inum := by
      rw [AllocState.dinode, World.view]
      exact congrArg (fun x => Block.dinode x _) (if_pos hvalid).symm
    rw [AllocState.holdStep]
    simp only [hdip]
    by_cases hzero : (s.dinode sb inum).type = 0
    · rw [if_pos hzero]
      exact h.move ⟨htype, hpos, hlt, hzero⟩ (by rw [hi]; rfl)
    · rw [if_neg hzero]
      exact h.move ⟨htype, hpos, hlt, trivial⟩ (by rw [hi]; rfl)
  | update inum copy => exact h.updateStep hpi
  | look b => exact h.move (by simp [PointOk]) (by rw [hi]; rfl)
  | install b =>
    have hp : s.PointOk sb (.busy (.install b) (.release false)) := by simp [PointOk]
    rw [AllocState.holdStep, installBlock]
    cases hpin : s.pins.contains b with
    | false => exact h.move hp (by rw [hi]; rfl)
    | true =>
      have hHolds := (h.blocks.locked i b _ hi (by simp)).1
      have hwrite : finalWorld ((bufUnpin b).run
          (finalWorld ((blockWrite (asPid i false) b).run s.world)))
          = (s.world.stored b (s.world.bufs b).data).put b (s.world.bufs b).unpin := by
        have hrun : (blockWrite (asPid i false) b).run s.world
            = .ok () (s.world.stored b (s.world.bufs b).data) := blockWrite_held hHolds
        rw [hrun]
        rfl
      simp only [if_true, hwrite]
      obtain ⟨hblocks, hview⟩ := h.blocks.install hi (List.contains_iff_mem.mp hpin)
      refine h.quiet (p := .busy (.install b) (.release false)) rfl ?_ hview rfl rfl
        (fun _ _ => Or.inl) hp
      rwa [show AllocPoint.hold sb (.busy (.install b) (.release false)) = (s.point i).hold sb by
        rw [hi]; rfl, Function.update_eq_self]

/-- **A step of a process with a block.** -/
theorem Inv.jobStep (h : Inv sb s) {recycled : Bool} (hpi : s.point i = .busy j st)
    (hs : s.jobStep sb i recycled j st = some s') : Inv sb s' := by
  have hok := h.point i
  have hhold : (s.point i).hold sb = st.hold.map fun x => (j.block sb, x) := by rw [hpi]; rfl
  rw [hpi] at hok
  cases st with
  | read =>
    obtain rfl := Option.some.inj hs
    obtain ⟨hblocks, hview⟩ := h.blocks.get hhold (j.block sb) recycled
    refine h.quiet (p := .busy j .lock) rfl hblocks hview rfl rfl (fun _ _ => Or.inl) ?_
    cases j with
    | alloc call type inum => exact ⟨hok.1, hok.2.1, hok.2.2.1, trivial⟩
    | _ => simp [PointOk]
  | lock =>
    obtain ⟨w, hw, rfl⟩ := Option.map_eq_some_iff.mp hs
    obtain ⟨hblocks, hview⟩ := h.blocks.lock hhold hw
    refine h.quiet (p := .busy j .holding) rfl hblocks hview rfl rfl (fun _ _ => Or.inl) ?_
    cases j with
    | alloc call type inum => exact ⟨hok.1, hok.2.1, hok.2.2.1, trivial⟩
    | _ => simp [PointOk]
  | holding =>
    obtain rfl := Option.some.inj hs
    exact h.holdStep hpi
  | claim =>
    cases j with
    | alloc call type inum => exact h.claimStep hpi hs
    | _ => cases hs
  | log =>
    obtain rfl := Option.some.inj hs
    have hp : s.PointOk sb (.busy j (.release true)) := by
      cases j with
      | alloc call type inum => exact hok
      | _ => simp [PointOk]
    rw [logWrite]
    cases hpin : s.pins.contains (j.block sb) with
    | true =>
      simp only [if_true]
      exact h.quiet rfl (h.blocks.absorb hhold (List.contains_iff_mem.mp hpin)) (fun _ => rfl) rfl
        rfl (fun _ _ => Or.inl) hp
    | false =>
      have hnot : j.block sb ∉ s.pins := fun hmem => by simp [hmem] at hpin
      simp only [Bool.false_eq_true, if_false]
      exact h.quiet rfl (h.blocks.pin hhold hnot) (fun b => view_put_keep s.world _ b rfl rfl) rfl
        rfl (fun _ _ => Or.inl) hp
  | release found =>
    obtain rfl := Option.some.inj hs
    have hHolds := (h.blocks.locked i _ _ hhold (by simp)).1
    have hworld := LogRun.blockRelease_eq i (j.block sb) s.world
    rw [if_pos hHolds] at hworld
    have hp : s.PointOk sb (j.after found) := by
      cases j with
      | alloc call type inum =>
        obtain ⟨htype, hpos, hlt, hst⟩ := hok
        cases found with
        | true => exact ⟨hpos, hlt, hst⟩
        | false =>
          refine ⟨htype, ?_⟩
          have hn := sb.ninodes.isLt
          have hone : (1 : BitVec 32).toNat = 1 := rfl
          rw [BitVec.toNat_add, hone]
          omega
      | _ => trivial
    have hidle : (j.after found).hold sb = none := by
      cases j with
      | alloc call type inum => cases found <;> rfl
      | _ => rfl
    refine h.quiet (p := j.after found) rfl ?_ (fun b => ?_) rfl rfl (fun _ _ => Or.inl) hp
    · rw [hidle]
      simp only [goto, hworld]
      exact h.blocks.release hhold
    · simp only [goto, hworld]
      exact view_put_keep s.world _ b rfl rfl

/-- Where a process may start. -/
theorem Inv.start (h : Inv sb s) (hp : s.PointOk sb p) (hhold : p.hold sb = none)
    (hs : s.start i p = some s') : Inv sb s' := by
  rw [AllocState.start] at hs
  cases hpi : s.point i with
  | idle =>
    rw [hpi] at hs
    obtain rfl := Option.some.inj hs
    exact h.move hp (by rw [hpi, hhold]; rfl)
  | _ => simp [hpi] at hs

/-- **Every step of every process keeps the invariant.** -/
theorem Inv.step (s : AllocState) (op : AllocOp) (s' : AllocState) (h : Inv sb s)
    (hs : s.step sb op = some s') : Inv sb s' := by
  cases op with
  | inodeAlloc i type =>
    obtain ⟨htype, hs⟩ := Option.ite_none_left_eq_some.mp hs
    have hcalls : Inv sb { s with calls := s.calls + 1 } := { h with }
    exact hcalls.start (p := .scan s.calls type 1) ⟨htype, Nat.le_refl 1⟩ rfl hs
  | inodeUpdate i inum copy =>
    obtain ⟨-, hs⟩ := Option.ite_none_left_eq_some.mp hs
    exact h.start (by simp [PointOk]) rfl hs
  | inodePut i inum copy => exact h.start (by simp [PointOk]) rfl hs
  | look i b => exact h.start (by simp [PointOk]) rfl hs
  | install i b => exact h.start (by simp [PointOk]) rfl hs
  | next i recycled full =>
    have hok := h.point i
    rw [AllocState.step] at hs
    cases hpi : s.point i with
    | idle => simp [hpi] at hs
    | busy j st =>
      simp only [hpi] at hs
      exact h.jobStep hpi hs
    | scan call type inum =>
      simp only [hpi, Option.some.injEq] at hs
      subst hs
      rw [hpi] at hok
      by_cases hlt : inum < sb.ninodes
      · rw [if_pos hlt]
        exact h.move ⟨hok.1, hok.2, hlt, trivial⟩ (by rw [hpi]; rfl)
      · rw [if_neg hlt]
        exact h.move trivial (by rw [hpi]; rfl)
    | get call inum =>
      simp only [hpi, Option.some.injEq] at hs
      subst hs
      rw [hpi] at hok
      refine h.quiet (p := .idle) rfl ?_ (fun _ => rfl) rfl rfl (fun c n hcn => ?_) trivial
      · have hsame : AllocPoint.hold sb .idle = (s.point i).hold sb := by rw [hpi]; rfl
        rw [hsame, Function.update_eq_self]
        exact h.blocks
      · cases full with
        | true => exact .inl hcn
        | false =>
          rcases List.mem_cons.mp hcn with he | hcn
          · obtain ⟨rfl, rfl⟩ := Prod.mk.inj he
            exact .inr hok
          · exact .inl hcn

/-! ## 6. Inodes are allocated once -/

theorem Inv.allocOk (h : Inv sb s) : AllocOk sb s where
  range c n hcn := ⟨(h.returned c n hcn).1, (h.returned c n hcn).2.1⟩
  free c n hcn := h.taken c n (h.returned c n hcn).2.2
  once c c' n hcn hcn' hne :=
    h.exclusive.revokedBetween hne (h.returned c n hcn).2.2 (h.returned c' n hcn').2.2

theorem init_inv (sb : Superblock) (disk : Disk) : Inv sb (init disk) where
  blocks := BlockOk.start fun _ => ⟨rfl, rfl⟩
  point _ := trivial
  exclusive := trivial
  granted _ h := absurd h id
  taken _ _ h := absurd h List.not_mem_nil
  returned _ _ h := absurd h List.not_mem_nil

/-- **`inode_alloc` never hands out an inode twice**: over any disk and however the processes, the
commits and the recycling of buffers interleave, what it returns lies within range, was free when it
was taken, and is not returned again unless `inode_put` has freed it in between. -/
theorem inode_alloc_once (sb : Superblock) (disk : Disk) (ops : List AllocOp) :
    Always (step sb) (AllocOk sb) (init disk) ops :=
  (always_of_inv Inv.step ops _ (init_inv sb disk)).mono fun _ h => h.allocOk

/-- Two processes allocate at once; the second waits for the buffer and finds the first inode
taken. -/
def twoAllocs : List AllocOp :=
  [.inodeAlloc 1 1, .inodeAlloc 2 2] ++ List.replicate 3 (.next 1 false false) ++
    List.replicate 2 (.next 2 false false) ++ List.replicate 5 (.next 1 false false) ++
    List.replicate 11 (.next 2 false false)

example : (run (step ⟨fsMagic, 100, 50, 8, 30, 2, 32, 40⟩) (init fun _ _ => 0) twoAllocs).map
    (fun s => s.returned) = some [(1, 2), (0, 1)] := by decide +kernel

end AllocState

end Lithium.Wal
