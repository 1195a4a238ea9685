/-
# The block loops, whatever `block_read` returns

Rules for the calls of `inode.c` on one block, for every pattern of `NULL` and whoever holds the
buffers: what holds when a call is over follows from what holds in each way that its `block_read`
can end.  The rule for the loops of `inode_read` and `inode_write` asks for what one pass keeps.
-/
import Lithium.Fs.ReadWrite

namespace Lithium.Wal

/-! ## 1. Reading one block -/

/-- A call of `block_read` that returned `NULL`. -/
def FileState.ticked (s : FileState) : FileState := { s with world := s.world.tick 1 }

/-- A call of `block_read` that sleeps. -/
def FileState.waiting (s : FileState) (b : BlockNo) : FileState :=
  { s with world := (s.world.tick 1).put b (s.world.bufs b).pin }

/-- The buffer that `block_read` returned. -/
def FileState.got (s : FileState) (env : Env) (b : BlockNo) : FileState :=
  { s with world := (s.world.tick 1).put b (s.world.fetched env b) }

/-- The buffer of a block given back. -/
def FileState.released (s : FileState) (b : BlockNo) : FileState :=
  { s with world := s.world.put b (s.world.bufs b).release }

variable {env : Env} {ip : Dinode} {s : FileState} {b : BlockNo} {α : Type}
  {E : Halt → FileState → Prop}

theorem got_buf (s : FileState) (env : Env) (b : BlockNo) :
    (s.got env b).world.bufs b = s.world.fetched env b := put_self _ _ _

/-- A call of the block layer. -/
theorem call_ends {m : BlockM α} {Q : α → FileState → Prop}
    (h : Ends m s.world (fun a w => Q a { s with world := w })
      fun e w => E e { s with world := w }) : Ends (call m) s Q E := by
  cases hm : m.run s.world with
  | ok a w => exact .of_ok (call_ok hm) ((Ends.iff_of_ok hm).mp h)
  | error e w => exact .of_error (call_error hm) ((Ends.iff_of_error hm).mp h)

/-- **`block_read`**, in its three ways to end. -/
theorem read_ends (b : BlockNo) {Q : Option BlockNo → FileState → Prop}
    (hnone : env.null s.world.reads = true → Q none s.ticked)
    (hheld : env.null s.world.reads = false → (s.world.bufs b).lock.locked = true →
      E .asleep (s.waiting b))
    (hsome : env.null s.world.reads = false → s.world.FreeAt b → Q (some b) (s.got env b)) :
    Ends (call (blockRead env b)) s Q E := call_ends (blockRead_ends b hnone hheld hsome)

/-- `block_release` of a buffer the process holds. -/
theorem release_ends {Q : Unit → FileState → Prop} (hheld : (s.world.bufs b).lock = env.lock)
    (hQ : Q () (s.released b)) : Ends (call (blockRelease env b)) s Q E :=
  .of_ok (call_ok (blockRelease_held hheld)) hQ

/-- The assignment and `log_write`, for the buffer that `block_read` returned. -/
theorem got_log_run (s : FileState) (env : Env) (b : BlockNo) (data : Block) :
    (call (setData b data) >>= fun _ => logWrite b).run (s.got env b)
      = .ok () (s.logged env b data) := log_run_of rfl

/-- A buffer that `block_read` returned is changed, given to `log_write` and given back. -/
theorem change_ends (env : Env) {data : Block} {f : Unit → FileM α} {Q : α → FileState → Prop}
    (h : Ends (f ()) (s.changed b data) Q E) :
    Ends (do
        call (setData b data)
        logWrite b
        let a ← call (blockRelease env b)
        f a) (s.got env b) Q E := by
  refine (Ends.congr ?_).mpr h
  have hlog := bind_ok (f := fun _ => call (blockRelease env b) >>= f) (got_log_run s env b data)
  rw [bind_ok (close_run s env b data), bind_assoc] at hlog
  exact hlog

/-- A buffer read and given back, with its bytes as they were fetched. -/
theorem got_released (s : FileState) (env : Env) (b : BlockNo) : (s.got env b).released b =
    { s with
      world := (s.world.tick 1).put b
        { valid := true
          data := (s.world.fetched env b).data
          refcnt := (s.world.bufs b).refcnt
          lock := sleeplockInit } } := by
  rw [FileState.released, got_buf, FileState.got]
  simp only [put_put]
  rfl

/-! ## 2. The loop -/

variable {n : BitVec 32} {copy : BlockNo → BitVec 32 → BitVec 32 → BitVec 32 → FileM Unit}
  {I : BitVec 32 → BitVec 32 → FileState → Prop}

/-- What the loop asks of the state before a pass over the block `b`. -/
structure Entered (env : Env) (ip : Dinode) (n tot off : BitVec 32) (b : BlockNo)
    (s : FileState) : Prop where
  left : tot < n
  index : off.toNat / bsize ≤ ndirect
  block : blockOf ip (off.toNat / bsize) = b
  exists_ : b ≠ 0
  null : env.null s.world.reads = false
  free : s.world.FreeAt b

/-- **The loops of `inode_read` and `inode_write`**: what holds before each pass, and `R` wherever
the loop ends. -/
theorem fileLoop_rule {I : Nat → BitVec 32 → BitVec 32 → FileState → Prop}
    {R : BitVec 32 → BitVec 32 → FileState → Prop}
    (hdone : ∀ fuel tot off s, I fuel tot off s → fuel = 0 ∨ ¬ tot < n → R tot off s)
    (hout : ∀ fuel tot off s, I (fuel + 1) tot off s → tot < n → ndirect < off.toNat / bsize →
      E .outOfBounds s)
    (hmissing : ∀ fuel tot off s, I (fuel + 1) tot off s → tot < n →
      blockOf ip (off.toNat / bsize) = 0 → R tot off s)
    (hnull : ∀ fuel tot off s, I (fuel + 1) tot off s → tot < n →
      blockOf ip (off.toNat / bsize) ≠ 0 → env.null s.world.reads = true → R tot off s.ticked)
    (hheld : ∀ fuel tot off s b, I (fuel + 1) tot off s → (s.world.bufs b).lock.locked = true →
      E .asleep (s.waiting b))
    (hpass : ∀ fuel tot off s b, I (fuel + 1) tot off s → Entered env ip n tot off b s →
      Ends (copy b tot off (passLen n tot off))
        ((s.got env b).noted ⟨off, passLen n tot off, b⟩)
        (fun _ s' => (s'.world.bufs b).lock = env.lock ∧
          I fuel (tot + passLen n tot off) (off + passLen n tot off) (s'.released b)) E) :
    ∀ (fuel : Nat) (tot off : BitVec 32) (s : FileState), I fuel tot off s →
      Ends (fileLoop env ip n copy fuel tot off) s (fun r s' => R r.1 r.2 s') E := by
  intro fuel
  induction fuel with
  | zero => exact fun tot off s h => hdone 0 tot off s h (.inl rfl)
  | succ fuel ih =>
    intro tot off s h
    by_cases hlt : tot < n
    case neg => exact .of_ok (fileLoop_done hlt) (hdone _ tot off s h (.inr hlt))
    rcases Nat.lt_or_ge ndirect (off.toNat / bsize) with hi | hi
    case inl => exact .of_error (fileLoop_out hlt hi) (hout fuel tot off s h hlt hi)
    rw [fileLoop, if_pos hlt, addrAt_eq ip hi, pure_bind]
    have hmissing' := hmissing fuel tot off s h hlt
    have hnull' := hnull fuel tot off s h hlt
    obtain ⟨b, hb⟩ : ∃ b, blockOf ip (off.toNat / bsize) = b := ⟨_, rfl⟩
    rw [hb] at hmissing' hnull' ⊢
    split
    case isTrue hzero => exact hmissing' hzero
    case isFalse hne =>
      refine (read_ends (Q := fun r s' => r = none ∧ R tot off s' ∨ r = some b ∧
        Entered env ip n tot off b s ∧ s' = s.got env b) b ?none ?held ?some).bind ?rest
      case none => exact fun hnone => .inl ⟨rfl, hnull' hne hnone⟩
      case held => exact fun _ hlock => hheld fuel tot off s b h hlock
      case some => exact fun hread hfree => .inr ⟨rfl, ⟨hlt, hi, hb, hne, hread, hfree⟩, rfl⟩
      case rest =>
        rintro r s' (⟨rfl, hR⟩ | ⟨rfl, henter, rfl⟩)
        · exact hR
        · refine Ends.bind (m := notePass _) (Q := fun _ s' =>
            s' = (s.got env b).noted ⟨off, passLen n tot off, b⟩) rfl ?_
          rintro _ s' rfl
          refine (hpass fuel tot off s b h henter).bind ?_
          rintro _ s' ⟨hlock, hI⟩
          exact (release_ends
            (Q := fun _ => I fuel (tot + passLen n tot off) (off + passLen n tot off))
            hlock hI).bind fun _ s'' => ih _ _ s''

/-- What every pass keeps holds at the end. -/
theorem fileLoop_ends
    (hout : ∀ tot off s, I tot off s → tot < n → ndirect < off.toNat / bsize → E .outOfBounds s)
    (hnull : ∀ tot off s, I tot off s → env.null s.world.reads = true → I tot off s.ticked)
    (hheld : ∀ tot off s b, I tot off s → (s.world.bufs b).lock.locked = true →
      E .asleep (s.waiting b))
    (hpass : ∀ tot off s b, I tot off s → Entered env ip n tot off b s →
      Ends (copy b tot off (passLen n tot off))
        ((s.got env b).noted ⟨off, passLen n tot off, b⟩)
        (fun _ s' => (s'.world.bufs b).lock = env.lock ∧
          I (tot + passLen n tot off) (off + passLen n tot off) (s'.released b)) E) :
    ∀ (fuel : Nat) (tot off : BitVec 32) (s : FileState), I tot off s →
      Ends (fileLoop env ip n copy fuel tot off) s (fun r s' => I r.1 r.2 s') E :=
  fileLoop_rule (I := fun _ => I) (fun _ _ _ _ h _ => h) (fun _ => hout)
    (fun _ _ _ _ h _ _ => h) (fun _ tot off s h _ _ => hnull tot off s h) (fun _ => hheld)
    fun _ => hpass

/-- The copy of `inode_read`. -/
theorem copyOut_ends {tot off m : BitVec 32} {Q : Unit → FileState → Prop}
    (hQ : Q () (s.copied ((List.range m.toNat).map fun i =>
      (s.world.bufs b).data.byte (off.toNat % bsize + i)))) :
    Ends (copyOut b tot off m) s Q E := by
  refine .of_ok (a := ()) ?_ hQ
  rw [copyOut, getData_bind]
  rfl

/-- The copy of `inode_write`, to the buffer that `block_read` returned. -/
theorem copyIn_ends {src : Nat → BitVec 8} {tot off m : BitVec 32} {a : Pass}
    {Q : Unit → FileState → Prop}
    (hQ : Q () ((s.noted a).logged env b (Block.splice (s.world.fetched env b).data
      (off.toNat % bsize) m.toNat fun i => src (tot.toNat + i)))) :
    Ends (copyIn src b tot off m) ((s.got env b).noted a) Q E := by
  refine .of_ok (a := ()) ?_ hQ
  have hlog := got_log_run (s.noted a) env b (Block.splice (s.world.fetched env b).data
    (off.toNat % bsize) m.toNat fun i => src (tot.toNat + i))
  rw [copyIn, getData_bind, ← hlog]
  change (call (setData b (Block.splice ((s.got env b).world.bufs b).data _ _ _)) >>= fun _ =>
    logWrite b).run _ = _
  rw [got_buf]
  rfl

/-- A changed block given back. -/
theorem logged_released (s : FileState) (env : Env) (b : BlockNo) (data : Block) :
    (s.logged env b data).released b = s.changed b data := by
  have hheld : ((s.logged env b data).world.bufs b).lock = env.lock := by
    rw [FileState.logged, put_self]
  have hclose := close_run s env b data
  rw [call_ok (blockRelease_held hheld)] at hclose
  exact (EStateM.Result.ok.inj hclose).2

/-! ## 3. `inode_update` -/

/-- **`inode_update`**, in the three ways its `block_read` can end. -/
theorem inodeUpdate_ends (sb : Superblock) (inum : BitVec 32) (ip : Dinode)
    {Q : Unit → FileState → Prop}
    (hnone : env.null s.world.reads = true → Q () s.ticked)
    (hheld : env.null s.world.reads = false →
      (s.world.bufs (iblock inum sb)).lock.locked = true →
      E .asleep (s.waiting (iblock inum sb)))
    (hsome : env.null s.world.reads = false → s.world.FreeAt (iblock inum sb) →
      Q () (s.changed (iblock inum sb)
        (Block.setDinode (s.world.fetched env (iblock inum sb)).data (inodeSlot inum) ip))) :
    Ends (inodeUpdate env sb inum ip) s Q E := by
  rw [inodeUpdate]
  generalize iblock inum sb = b at hheld hsome ⊢
  refine (read_ends (Q := fun r s' => r = none ∧ s' = s.ticked ∧ Q () s' ∨
    r = some b ∧ s' = s.got env b ∧ env.null s.world.reads = false ∧ s.world.FreeAt b) b
    ?none hheld ?some).bind ?rest
  case none => exact fun hnull => .inl ⟨rfl, rfl, hnone hnull⟩
  case some => exact fun hnull hfree => .inr ⟨rfl, rfl, hnull, hfree⟩
  case rest =>
    rintro r s' (⟨rfl, rfl, hQ⟩ | ⟨rfl, rfl, hnull, hfree⟩)
    · exact hQ
    · dsimp only
      rw [Ends.congr (getData_bind _ _ _), got_buf]
      have hstore := change_ends env (E := E) (f := pure) (hsome hnull hfree)
      simpa only [bind_pure] using hstore

end Lithium.Wal
