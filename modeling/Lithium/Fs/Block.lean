/-
# The block layer, as one process uses it

`block_read`, `block_write`, `block_release`, `buf_pin` and `buf_unpin` for the process that runs
the log code, together with the disk below them.  A buffer is named by its block: a referenced
buffer is never recycled, so the pointer and the block number say the same thing.

Which unreferenced buffers the cache has recycled since they were last used, and which calls of
`block_read` find it exhausted, is up to the `Env`: what is proved for every `Env` holds whatever
the size and the history of the cache.  Every write to the disk is recorded in `writes`, in
program order, so that a crash can be placed between any two of them.
-/
import Lithium.Fs.Sleeplock
import Lithium.Lib.Calls
import Lithium.Lib.RedoLog

namespace Lithium.Wal

open RedoLog

/-! ## 1. Data -/

/-- What the code cannot choose: the process it runs in, and for the `r`-th call of `block_read`
whether it returns `NULL` and whether an unreferenced buffer of the block has been recycled.  There
is a process, also at the start, and the disk completes every request. -/
structure Env where
  pid : Pid
  null : Nat → Bool
  recycled : Nat → Bool

/-- The buffer of a block; `valid` is false as long as the block was never cached. -/
structure CachedBlock where
  valid : Bool
  data : Block
  refcnt : Nat
  lock : Sleeplock

/-- Assign `data`. -/
def CachedBlock.assign (c : CachedBlock) (data : Block) : CachedBlock := { c with data := data }

/-- One reference more. -/
def CachedBlock.pin (c : CachedBlock) : CachedBlock := { c with refcnt := c.refcnt + 1 }

/-- One reference less. -/
def CachedBlock.unpin (c : CachedBlock) : CachedBlock := { c with refcnt := c.refcnt - 1 }

/-- The sleeplock given back, and the reference that came with it. -/
def CachedBlock.release (c : CachedBlock) : CachedBlock :=
  { c with lock := sleeplockRelease c.lock, refcnt := c.refcnt - 1 }

/-- The disk, the cache, the calls of `block_read` made and the disk writes performed. -/
structure World where
  disk : Disk
  bufs : BlockNo → CachedBlock
  reads : Nat
  writes : List (BlockNo × Block)

/-- Why the process does not go on. -/
inductive Halt where
  /-- It sleeps on a sleeplock, or in `log_begin_op`. -/
  | asleep
  /-- It indexed `log.lh.block` past its end. -/
  | outOfBounds

/-- A call: it changes the world, and may not return. -/
abbrev BlockM := EStateM Halt World

/-- The machine just booted over a disk: nothing is cached. -/
def World.boot (disk : Disk) : World :=
  { disk := disk
    bufs := fun _ => { valid := false, data := fun _ => 0, refcnt := 0, lock := sleeplockInit }
    reads := 0
    writes := [] }

/-- Replace the buffer of a block. -/
def World.put (w : World) (b : BlockNo) (c : CachedBlock) : World :=
  { w with bufs := Function.update w.bufs b c }

/-- Count `n` more calls of `block_read`. -/
def World.tick (w : World) (n : Nat) : World := { w with reads := w.reads + n }

/-- Write a block of the disk, and record the write. -/
def World.stored (w : World) (b : BlockNo) (data : Block) : World :=
  { w with disk := Function.update w.disk b data, writes := w.writes ++ [(b, data)] }

/-- The contents of a block as a reader of the cache sees them. -/
def World.view (w : World) (b : BlockNo) : Block :=
  if (w.bufs b).valid then (w.bufs b).data else w.disk b

/-! ## 2. The functions of `block.c` and `buffer.c` -/

/-- `block_read`: `buf_get`, with the sleeplock, then a load when the buffer is not valid. -/
def blockRead (env : Env) (b : BlockNo) : BlockM (Option BlockNo) := fun w =>
  let r := w.reads
  let w := w.tick 1
  if env.null r then .ok none w
  else
    let c := w.bufs b
    match sleeplockAcquire c.lock (some env.pid) with
    | none => .error .asleep (w.put b c.pin)
    | some lk =>
      let found := c.valid && (c.refcnt != 0 || !env.recycled r)
      .ok (some b) (w.put b
        { valid := true
          data := if found then c.data else w.disk b
          refcnt := c.refcnt + 1
          lock := lk })

/-- `b->data`. -/
def getData (b : BlockNo) : BlockM Block := fun w => .ok (w.bufs b).data w

/-- Assign the whole of `b->data`. -/
def setData (b : BlockNo) (data : Block) : BlockM Unit := fun w =>
  .ok () (w.put b ((w.bufs b).assign data))

/-- `block_write`. -/
def blockWrite (env : Env) (b : BlockNo) : BlockM Unit := fun w =>
  if sleeplockHeld (w.bufs b).lock (some env.pid) then
    .ok () (w.stored b (w.bufs b).data)
  else .ok () w

/-- `block_release`. -/
def blockRelease (env : Env) (b : BlockNo) : BlockM Unit := fun w =>
  let c := w.bufs b
  if sleeplockHeld c.lock (some env.pid) then
    .ok () (w.put b c.release)
  else .ok () w

/-- `buf_pin`. -/
def bufPin (b : BlockNo) : BlockM Unit := fun w =>
  .ok () (w.put b (w.bufs b).pin)

/-- `buf_unpin`. -/
def bufUnpin (b : BlockNo) : BlockM Unit := fun w =>
  .ok () (w.put b (w.bufs b).unpin)

/-! ## 3. Running calls -/

/-- The world a call leaves behind, whether it returned or not. -/
def finalWorld {α : Type} : EStateM.Result Halt World α → World
  | .ok _ w => w
  | .error _ w => w

@[simp] theorem put_self (w : World) (b : BlockNo) (c : CachedBlock) : (w.put b c).bufs b = c :=
  Function.update_self _ _ _

theorem put_of_ne (w : World) {b b' : BlockNo} (h : b' ≠ b) (c : CachedBlock) :
    (w.put b c).bufs b' = w.bufs b' := Function.update_of_ne h _ _

@[simp] theorem put_disk (w : World) (b : BlockNo) (c : CachedBlock) :
    (w.put b c).disk = w.disk := rfl

@[simp] theorem put_reads (w : World) (b : BlockNo) (c : CachedBlock) :
    (w.put b c).reads = w.reads := rfl

@[simp] theorem put_writes (w : World) (b : BlockNo) (c : CachedBlock) :
    (w.put b c).writes = w.writes := rfl

@[simp] theorem put_put (w : World) (b : BlockNo) (c c' : CachedBlock) :
    (w.put b c).put b c' = w.put b c' := by
  rw [World.put, World.put, World.put, Function.update_idem]

@[simp] theorem tick_bufs (w : World) (n : Nat) : (w.tick n).bufs = w.bufs := rfl

@[simp] theorem tick_disk (w : World) (n : Nat) : (w.tick n).disk = w.disk := rfl

@[simp] theorem tick_reads (w : World) (n : Nat) : (w.tick n).reads = w.reads + n := rfl

@[simp] theorem tick_writes (w : World) (n : Nat) : (w.tick n).writes = w.writes := rfl

@[simp] theorem tick_view (w : World) (n : Nat) (b : BlockNo) : (w.tick n).view b = w.view b := rfl

@[simp] theorem stored_bufs (w : World) (b : BlockNo) (data : Block) :
    (w.stored b data).bufs = w.bufs := rfl

@[simp] theorem stored_put (w : World) (b b' : BlockNo) (data : Block) (c : CachedBlock) :
    (w.put b' c).stored b data = (w.stored b data).put b' c := rfl

@[simp] theorem put_tick (w : World) (n : Nat) (b : BlockNo) (c : CachedBlock) :
    (w.put b c).tick n = (w.tick n).put b c := rfl

@[simp] theorem tick_tick (w : World) (m n : Nat) : (w.tick m).tick n = w.tick (m + n) := by
  rw [World.tick, World.tick, World.tick, Nat.add_assoc]

theorem view_put_of_ne (w : World) {b b' : BlockNo} (h : b' ≠ b) (c : CachedBlock) :
    (w.put b c).view b' = w.view b' := by
  rw [World.view, World.view, put_of_ne w h, put_disk]

@[simp] theorem view_put_self (w : World) (b : BlockNo) (c : CachedBlock) (h : c.valid = true) :
    (w.put b c).view b = c.data := by
  rw [World.view, put_self, if_pos h]

theorem put_comm (w : World) {b b' : BlockNo} (h : b ≠ b') (c c' : CachedBlock) :
    (w.put b c).put b' c' = (w.put b' c').put b c := by
  rw [World.put, World.put, World.put, World.put]
  exact congrArg (fun f => { w with bufs := f }) (Function.update_comm h c c' w.bufs)

@[simp] theorem getData_run (b : BlockNo) (w : World) :
    (getData b).run w = .ok (w.bufs b).data w := rfl

@[simp] theorem setData_run (b : BlockNo) (data : Block) (w : World) :
    (setData b data).run w = .ok () (w.put b ((w.bufs b).assign data)) := rfl

@[simp] theorem bufPin_run (b : BlockNo) (w : World) :
    (bufPin b).run w = .ok () (w.put b (w.bufs b).pin) := rfl

@[simp] theorem bufUnpin_run (b : BlockNo) (w : World) :
    (bufUnpin b).run w = .ok () (w.put b (w.bufs b).unpin) := rfl

/-- The lock `env`'s process takes. -/
def Env.lock (env : Env) : Sleeplock := ⟨true, env.pid⟩

@[simp] theorem sleeplockHeld_lock (env : Env) : sleeplockHeld env.lock (some env.pid) = true := by
  simp [sleeplockHeld, Env.lock]

/-- An unreferenced buffer shows what is on the disk. -/
def World.CleanAt (w : World) (b : BlockNo) : Prop :=
  (w.bufs b).refcnt = 0 → w.view b = w.disk b

/-- Nobody holds the buffer of a block. -/
def World.FreeAt (w : World) (b : BlockNo) : Prop := (w.bufs b).lock.locked = false

/-- The buffer of a block in the hands of the process, as `block_read` returns it. -/
def World.loaded (w : World) (env : Env) (b : BlockNo) : CachedBlock :=
  { valid := true, data := w.view b, refcnt := (w.bufs b).refcnt + 1, lock := env.lock }

@[simp] theorem tick_loaded (w : World) (env : Env) (n : Nat) (b : BlockNo) :
    (w.tick n).loaded env b = w.loaded env b := rfl

theorem loaded_put_of_ne (w : World) (env : Env) {b b' : BlockNo} (h : b' ≠ b) (c : CachedBlock) :
    (w.put b c).loaded env b' = w.loaded env b' := by
  rw [World.loaded, World.loaded, view_put_of_ne w h, put_of_ne w h]

theorem blockRead_null {env : Env} {w : World} (b : BlockNo) (h : env.null w.reads = true) :
    (blockRead env b).run w = .ok none (w.tick 1) := by
  rw [EStateM.run, blockRead, if_pos h]

/-- **`block_read`** of a buffer nobody holds: whether it was found, recycled or never cached, the
caller gets the contents the cache shows. -/
theorem blockRead_free {env : Env} {w : World} {b : BlockNo} (h : env.null w.reads = false)
    (hc : w.CleanAt b) (hf : w.FreeAt b) :
    (blockRead env b).run w
      = .ok (some b) ((w.tick 1).put b (w.loaded env b)) := by
  have hlk : sleeplockAcquire (w.bufs b).lock (some env.pid) = some env.lock := by
    rw [sleeplockAcquire, if_neg (by rw [hf]; exact Bool.false_ne_true)]
    rfl
  have hdata : (if (w.bufs b).valid && ((w.bufs b).refcnt != 0 || !env.recycled w.reads)
      then (w.bufs b).data else w.disk b) = w.view b := by
    cases hv : (w.bufs b).valid with
    | false => simp [World.view, hv]
    | true =>
      have hview : w.view b = (w.bufs b).data := by simp [World.view, hv]
      by_cases hr : (w.bufs b).refcnt = 0
      · rw [← hview, hc hr]
        exact ite_self _
      · simp [hr, hview]
  simp only [EStateM.run, blockRead, h, Bool.false_eq_true, if_false, tick_bufs, tick_disk, hlk]
  rw [World.loaded, ← hdata]
  congr 3

theorem blockRead_held {env : Env} {w : World} {b : BlockNo} (h : env.null w.reads = false)
    (hl : (w.bufs b).lock.locked = true) :
    (blockRead env b).run w = .error .asleep ((w.tick 1).put b (w.bufs b).pin) := by
  have hlk : sleeplockAcquire (w.bufs b).lock (some env.pid) = none := by
    rw [sleeplockAcquire, if_pos hl]
  simp only [EStateM.run, blockRead, h, Bool.false_eq_true, if_false, tick_bufs, hlk]

/-- `block_write` of a buffer the process holds. -/
theorem blockWrite_held {env : Env} {w : World} {b : BlockNo} (h : (w.bufs b).lock = env.lock) :
    (blockWrite env b).run w = .ok () (w.stored b (w.bufs b).data) := by
  rw [EStateM.run, blockWrite, if_pos]
  rw [h]
  exact sleeplockHeld_lock env

/-- `block_release` of a buffer the process holds. -/
theorem blockRelease_held {env : Env} {w : World} {b : BlockNo} (h : (w.bufs b).lock = env.lock) :
    (blockRelease env b).run w = .ok () (w.put b (w.bufs b).release) := by
  rw [EStateM.run, blockRelease, if_pos]
  rw [h]
  exact sleeplockHeld_lock env

/-! ## 4. Whoever has the buffer -/

/-- The buffer of a block that nobody holds, as `block_read` leaves it. -/
def World.fetched (w : World) (env : Env) (b : BlockNo) : CachedBlock :=
  let c := w.bufs b
  { valid := true
    data := if c.valid && (c.refcnt != 0 || !env.recycled w.reads) then c.data else w.disk b
    refcnt := c.refcnt + 1
    lock := env.lock }

/-- `block_read` of a buffer nobody holds, in step with the disk or not. -/
theorem blockRead_fetched {env : Env} {w : World} {b : BlockNo} (h : env.null w.reads = false)
    (hf : w.FreeAt b) :
    (blockRead env b).run w = .ok (some b) ((w.tick 1).put b (w.fetched env b)) := by
  have hlk : sleeplockAcquire (w.bufs b).lock (some env.pid) = some env.lock := by
    rw [sleeplockAcquire, if_neg (by rw [hf]; exact Bool.false_ne_true)]
    rfl
  simp only [EStateM.run, blockRead, h, Bool.false_eq_true, if_false, tick_bufs, tick_disk, hlk]
  rw [World.fetched]
  congr 3

/-- What `block_read` finds in a buffer nobody holds is what the cache shows. -/
theorem fetched_data {w : World} {b : BlockNo} (env : Env) (hclean : w.CleanAt b)
    (hfree : w.FreeAt b) (hnull : env.null w.reads = false) :
    (w.fetched env b).data = w.view b := by
  have hfetched := blockRead_fetched hnull hfree
  rw [blockRead_free hnull hclean hfree] at hfetched
  have hworld := (EStateM.Result.ok.inj hfetched).2
  have hbuf := congrArg (fun w' => (w'.bufs b).data) hworld
  rw [put_self, put_self] at hbuf
  exact hbuf.symm

/-- **`block_read`**: it returns `NULL`, sleeps on a buffer that somebody holds, or returns the
buffer. -/
theorem blockRead_ends {env : Env} {w : World} (b : BlockNo) {Q : Option BlockNo → World → Prop}
    {E : Halt → World → Prop} (hnone : env.null w.reads = true → Q none (w.tick 1))
    (hheld : env.null w.reads = false → (w.bufs b).lock.locked = true →
      E .asleep ((w.tick 1).put b (w.bufs b).pin))
    (hsome : env.null w.reads = false → w.FreeAt b →
      Q (some b) ((w.tick 1).put b (w.fetched env b))) : Ends (blockRead env b) w Q E := by
  cases hnull : env.null w.reads with
  | true => exact .of_ok (blockRead_null b hnull) (hnone hnull)
  | false =>
    cases hlock : (w.bufs b).lock.locked with
    | true => exact .of_error (blockRead_held hnull hlock) (hheld hnull hlock)
    | false => exact .of_ok (blockRead_fetched hnull hlock) (hsome hnull hlock)

end Lithium.Wal
