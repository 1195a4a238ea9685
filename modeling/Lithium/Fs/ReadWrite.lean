/-
# Reading what was written

`inode_write` and then `inode_read`, for a file in its direct blocks, by a process that has the
inode locked; nobody else is in the buffers of the file and of the inode.  Each loop splits its
range at the block boundaries; what the whole loop does is said for the bytes of the file, whatever
block they are in.

A buffer that `log_write` has refused is not pinned, and may be recycled before the bytes in it are
read again.
-/
import Lithium.Fs.InodeData

namespace Lithium.Wal

open Extents

/-! ## 1. What is said of the bytes of a file -/

/-- The byte `o` of the file, as `block_read` shows its block. -/
def byteAt (w : World) (ip : Dinode) (o : Nat) : BitVec 8 :=
  (w.view (blockOf ip (o / bsize))).byte o

/-- The blocks `inode_write` uses: the direct blocks of the file, and the block `home` of the
inode. -/
def Uses (ip : Dinode) (home b : BlockNo) : Prop := (∃ i < ndirect, b = blockOf ip i) ∨ b = home

/-- Some buffers, with nobody in them, as the log keeps them: what is not referenced shows the disk,
and what is in the log is pinned. -/
structure Cached (own : BlockNo → Prop) (s : FileState) : Prop where
  free : ∀ b, own b → s.world.FreeAt b
  clean : ∀ b, own b → s.world.CleanAt b
  pinned : ∀ b, own b → b ∈ s.log.lh → 0 < (s.world.bufs b).refcnt

/-- What the caller of `inode_write` sees to: the direct blocks exist, no two of them are the same,
and none is the block `home` of the inode; the file and the range lie in them. -/
structure DirectFile (ip : Dinode) (home : BlockNo) (off n : BitVec 32) : Prop where
  exist : ∀ i < ndirect, blockOf ip i ≠ 0
  distinct : ∀ i < ndirect, ∀ j < ndirect, blockOf ip i = blockOf ip j → i = j
  apart : ∀ i < ndirect, blockOf ip i ≠ home
  size : ip.size.toNat ≤ ndirect * bsize
  start : off.toNat ≤ ip.size.toNat
  fits : off.toNat + n.toNat ≤ ndirect * bsize

/-- After `inode_write`: every `inode_read` returns the new bytes, and the other blocks are as they
were. -/
structure ReadsBack (s s' : FileState) (ip ip' : Dinode) (home : BlockNo) (src : Nat → BitVec 8)
    (off n : BitVec 32) : Prop where
  others : ∀ b, ¬ Uses ip home b →
    s'.world.view b = s.world.view b ∧ s'.world.disk b = s.world.disk b
  reads : ∀ env : Env, (∀ r, env.null r = false) → ∀ off₂ n₂ : BitVec 32,
    off₂.toNat ≤ ip'.size.toNat → off₂.toNat + n₂.toNat < 2 ^ 32 →
    ∃ k s'', (inodeRead env ip' off₂ n₂).run s' = .ok k s'' ∧
      k.toNat = min n₂.toNat (ip'.size.toNat - off₂.toNat) ∧
      s''.dst = (List.range k.toNat).map fun i =>
        overlay (byteAt s.world ip) src off.toNat n.toNat (off₂.toNat + i)

/-! ## 2. One block -/

/-- The buffer of a block nobody holds, as `block_read` leaves it. -/
def FileState.opened (s : FileState) (env : Env) (b : BlockNo) : FileState :=
  { s with world := (s.world.tick 1).put b (s.world.loaded env b) }

/-- The buffer of a block nobody holds, used and given back, with its bytes as they are. -/
def FileState.looked (s : FileState) (b : BlockNo) : FileState :=
  { s with
    world := (s.world.tick 1).put b
      { valid := true
        data := s.world.view b
        refcnt := (s.world.bufs b).refcnt
        lock := sleeplockInit } }

/-- The buffer of a block nobody holds, given to `log_write` and given back, with other bytes. -/
def FileState.changed (s : FileState) (b : BlockNo) (data : Block) : FileState :=
  let r := s.log.write b
  { s with
    world := (s.world.tick 1).put b
      { valid := true
        data := data
        refcnt := (s.world.bufs b).refcnt + if r.2 = .recorded then 1 else 0
        lock := sleeplockInit }
    log := r.1
    refused := s.refused || !r.2.accepted }

variable {env : Env} {own : BlockNo → Prop} {ip : Dinode} {s s' : FileState} {b : BlockNo}
  {data : Block}

theorem open_run (hnull : ∀ r, env.null r = false) (h : Cached own s) (hb : own b) :
    (call (blockRead env b)).run s = .ok (some b) (s.opened env b) :=
  call_ok (blockRead_free (hnull _) (h.clean b hb) (h.free b hb))

theorem opened_buf (s : FileState) (env : Env) (b : BlockNo) :
    (s.opened env b).world.bufs b = s.world.loaded env b := put_self _ _ _

theorem look_run (s : FileState) (env : Env) (b : BlockNo) :
    (call (blockRelease env b)).run (s.opened env b) = .ok () (s.looked b) := by
  have hheld : ((s.opened env b).world.bufs b).lock = env.lock := by
    rw [opened_buf]
    rfl
  rw [call_ok (blockRelease_held hheld), opened_buf, FileState.opened]
  simp only [put_put]
  rfl

/-- The buffer after the assignment and `log_write`. -/
def FileState.logged (s : FileState) (env : Env) (b : BlockNo) (data : Block) : FileState :=
  let r := s.log.write b
  { s with
    world := (s.world.tick 1).put b
      { valid := true
        data := data
        refcnt := (s.world.bufs b).refcnt + 1 + if r.2 = .recorded then 1 else 0
        lock := env.lock }
    log := r.1
    refused := s.refused || !r.2.accepted }

/-- The assignment and `log_write`, for a buffer `c` the process holds. -/
theorem log_run_of {c : CachedBlock} (hc : c.assign data =
    { valid := true, data := data, refcnt := (s.world.bufs b).refcnt + 1, lock := env.lock }) :
    (call (setData b data) >>= fun _ => logWrite b).run
      { s with world := (s.world.tick 1).put b c } = .ok () (s.logged env b data) := by
  have hset := call_ok (s := { s with world := (s.world.tick 1).put b c })
    (setData_run b data ((s.world.tick 1).put b c))
  rw [bind_ok hset]
  simp only [put_put, put_self, hc]
  rw [EStateM.run, logWrite, FileState.logged]
  by_cases h : (s.log.write b).2 = .recorded
  · simp only [if_pos h, put_self, put_put]
    rfl
  · simp only [if_neg h]

theorem log_run (s : FileState) (env : Env) (b : BlockNo) (data : Block) :
    (call (setData b data) >>= fun _ => logWrite b).run (s.opened env b)
      = .ok () (s.logged env b data) := log_run_of rfl

theorem close_run (s : FileState) (env : Env) (b : BlockNo) (data : Block) :
    (call (blockRelease env b)).run (s.logged env b data) = .ok () (s.changed b data) := by
  have hheld : ((s.logged env b data).world.bufs b).lock = env.lock := by
    rw [FileState.logged, put_self]
  rw [call_ok (blockRelease_held hheld), FileState.logged, FileState.changed]
  simp only [put_self, put_put, CachedBlock.release, sleeplockRelease, sleeplockInit,
    Nat.add_right_comm _ 1, Nat.add_sub_cancel]

theorem looked_view (s : FileState) (b b' : BlockNo) :
    (s.looked b).world.view b' = s.world.view b' := by
  by_cases hb : b' = b
  · rw [hb]
    exact view_put_self _ _ _ rfl
  · exact view_put_of_ne _ hb _

theorem changed_view (s : FileState) (b b' : BlockNo) (data : Block) :
    (s.changed b data).world.view b' = if b' = b then data else s.world.view b' := by
  by_cases hb : b' = b
  · rw [if_pos hb, hb]
    exact view_put_self _ _ _ rfl
  · rw [if_neg hb]
    exact view_put_of_ne _ hb _

theorem looked_free (b : BlockNo) {b' : BlockNo} (h : s.world.FreeAt b') :
    (s.looked b).world.FreeAt b' := by
  by_cases hb : b' = b
  · rw [hb, World.FreeAt, FileState.looked, put_self]
    rfl
  · rwa [World.FreeAt, FileState.looked, put_of_ne _ hb]

theorem changed_free (b : BlockNo) (data : Block) {b' : BlockNo} (h : s.world.FreeAt b') :
    (s.changed b data).world.FreeAt b' := by
  by_cases hb : b' = b
  · rw [hb, World.FreeAt, FileState.changed, put_self]
    rfl
  · rwa [World.FreeAt, FileState.changed, put_of_ne _ hb]

theorem Cached.looked (h : Cached own s) (b : BlockNo) : Cached own (s.looked b) where
  free b' hb' := looked_free b (h.free b' hb')
  clean b' hb' hzero := by
    rw [looked_view]
    refine h.clean b' hb' ?_
    by_cases hb : b' = b
    · subst hb
      rwa [FileState.looked, put_self] at hzero
    · rwa [FileState.looked, put_of_ne _ hb] at hzero
  pinned b' hb' hmem := by
    by_cases hb : b' = b
    · subst hb
      rw [FileState.looked, put_self]
      exact h.pinned b' hb' hmem
    · rw [FileState.looked, put_of_ne _ hb]
      exact h.pinned b' hb' hmem

/-- **A changed block that `log_write` has accepted is pinned.** -/
theorem Cached.changed (h : Cached own s) (hb : own b)
    (hok : (s.changed b data).refused = false) : Cached own (s.changed b data) := by
  have haccepted : (s.log.write b).2.accepted = true := by
    have hor := (Bool.or_eq_false_iff.mp hok).2
    rwa [Bool.not_eq_false'] at hor
  have hpin : 0 < (s.world.bufs b).refcnt + if (s.log.write b).2 = .recorded then 1 else 0 := by
    rcases s.log.write_cases b with ⟨-, hno⟩ | ⟨hmem, -⟩ | ⟨-, -, hans⟩
    · rw [haccepted] at hno
      cases hno
    · exact Nat.add_pos_left (h.pinned b hb hmem) _
    · rw [hans, if_pos rfl]
      omega
  have hlh : ∀ b' ∈ (s.log.write b).1.lh, b' = b ∨ b' ∈ s.log.lh := by
    intro b' hb'
    rcases s.log.write_cases b with ⟨hsame, -⟩ | ⟨-, hans⟩ | ⟨-, -, hans⟩
    · rw [hsame] at hb'
      exact .inr hb'
    · rw [hans] at hb'
      exact .inr hb'
    · rw [hans] at hb'
      exact (List.mem_append.mp hb').symm.imp (fun he => List.mem_singleton.mp he) id
  constructor
  case free => exact fun b' hb' => changed_free b data (h.free b' hb')
  case clean =>
    intro b' hb' hzero
    by_cases hne : b' = b
    · subst hne
      rw [FileState.changed, put_self] at hzero
      dsimp only at hzero
      omega
    · rw [changed_view, if_neg hne]
      rw [FileState.changed, put_of_ne _ hne] at hzero
      exact h.clean b' hb' hzero
  case pinned =>
    intro b' hb' hmem
    by_cases hne : b' = b
    · rw [hne, FileState.changed, put_self]
      exact hpin
    · rw [FileState.changed, put_of_ne _ hne]
      exact h.pinned b' hb' ((hlh b' hmem).resolve_left hne)

/-! ## 3. The loops, in the direct blocks -/

variable {n tot off : BitVec 32} {src : Nat → BitVec 8}
  {copy : BlockNo → BitVec 32 → BitVec 32 → BitVec 32 → FileM Unit}

/-- What is left of the range lies in the direct blocks, and `fuel` passes are enough for it. -/
structure InDirect (n : BitVec 32) (fuel : Nat) (tot off : BitVec 32) : Prop where
  le : tot.toNat ≤ n.toNat
  fuel : n.toNat - tot.toNat ≤ fuel
  fits : off.toNat + (n.toNat - tot.toNat) ≤ ndirect * bsize

/-- A pass over a piece of a direct block. -/
structure DirectPass (n tot off : BitVec 32) : Prop where
  index : off.toNat / bsize < ndirect
  pos : 0 < (passLen n tot off).toNat
  piece : off.toNat % bsize + (passLen n tot off).toNat ≤ bsize
  rest : (passLen n tot off).toNat ≤ n.toNat - tot.toNat
  totNext : (tot + passLen n tot off).toNat = tot.toNat + (passLen n tot off).toNat
  offNext : (off + passLen n tot off).toNat = off.toNat + (passLen n tot off).toNat

theorem InDirect.pass {fuel : Nat} (h : InDirect n fuel tot off) (hlt : tot < n) :
    DirectPass n tot off := by
  have hlt' : tot.toNat < n.toNat := hlt
  have hfits := h.fits
  have hmod : off.toNat % bsize < bsize := Nat.mod_lt _ (by decide)
  have hbound : ndirect * bsize < 2 ^ 32 := by decide
  have hlen := passLen_toNat off hlt
  obtain ⟨hpos, htot, hoff⟩ := pass_advance off hlt (by omega)
  exact ⟨Nat.div_lt_of_lt_mul (by rw [Nat.mul_comm]; omega), hpos, by omega, by omega, htot, hoff⟩

theorem InDirect.next {fuel : Nat} (h : InDirect n (fuel + 1) tot off)
    (hpass : DirectPass n tot off) :
    InDirect n fuel (tot + passLen n tot off) (off + passLen n tot off) := by
  have hle := h.le
  have hfuel := h.fuel
  have hfits := h.fits
  have hpos := hpass.pos
  have hrest := hpass.rest
  have htot := hpass.totNext
  have hoff := hpass.offNext
  exact ⟨by omega, by omega, by omega⟩

/-- The rest of the range is this piece and what is left after it. -/
theorem DirectPass.split (h : DirectPass n tot off) : n.toNat - tot.toNat
    = (passLen n tot off).toNat + (n.toNat - (tot + passLen n tot off).toNat) := by
  have htot := h.totNext
  have hrest := h.rest
  omega

/-- What holds at the end of the loop, and before a pass if it holds after it, holds at the
start. -/
theorem fileLoop_induction {P : Nat → BitVec 32 → BitVec 32 → Prop}
    (done : ∀ fuel off, P fuel n off)
    (pass : ∀ fuel tot off, tot < n → DirectPass n tot off →
      InDirect n fuel (tot + passLen n tot off) (off + passLen n tot off) →
      P fuel (tot + passLen n tot off) (off + passLen n tot off) → P (fuel + 1) tot off) :
    ∀ (fuel : Nat) (tot off : BitVec 32), InDirect n fuel tot off → P fuel tot off := by
  intro fuel
  induction fuel with
  | zero =>
    intro tot off h
    have hle := h.le
    have hfuel := h.fuel
    obtain rfl : tot = n := BitVec.eq_of_toNat_eq (by omega)
    exact done 0 off
  | succ fuel ih =>
    intro tot off h
    by_cases hlt : tot < n
    · have hpass := h.pass hlt
      exact pass fuel tot off hlt hpass (h.next hpass) (ih _ _ (h.next hpass))
    · have hle := h.le
      have hge : ¬ tot.toNat < n.toNat := hlt
      obtain rfl : tot = n := BitVec.eq_of_toNat_eq (by omega)
      exact done _ off

/-- **Both loops come to their end**, whatever `log_write` answers. -/
theorem fileLoop_returns (hnull : ∀ r, env.null r = false)
    (hexist : ∀ i < ndirect, blockOf ip i ≠ 0)
    (hcopy : ∀ bp tot off m, Steady (copy bp tot off m)) :
    ∀ (fuel : Nat) (tot off : BitVec 32), InDirect n fuel tot off →
      ∀ s : FileState, (∀ i < ndirect, s.world.FreeAt (blockOf ip i)) →
      ∃ off' s', (fileLoop env ip n copy fuel tot off).run s = .ok (n, off') s' ∧
        off'.toNat = off.toNat + (n.toNat - tot.toNat) ∧
        (∀ b, s.world.FreeAt b → s'.world.FreeAt b) ∧
        (s.refused = true → s'.refused = true) := by
  refine fileLoop_induction ?done ?pass
  case done =>
    intro fuel off s _
    exact ⟨off, s, fileLoop_done (by simp), by omega, fun _ => id, id⟩
  case pass =>
    intro fuel tot off h hpass _ ih s hfree
    have hgo : ¬ Stops env ip s.world 0 (off.toNat / bsize) := by
      rintro (hzero | hnone)
      · exact hexist _ hpass.index hzero
      · rw [hnull] at hnone
        cases hnone
    obtain ⟨s₁, hrun, -, hlock, -, hrefused⟩ :=
      fileLoop_pass fuel hcopy h (Nat.le_of_lt hpass.index) hgo (hfree _ hpass.index)
    obtain ⟨off', s', hrest, hend, hkeep, hmono⟩ := ih s₁ fun i hi => (hlock _).trans (hfree i hi)
    refine ⟨off', s', hrun.trans hrest, ?_, fun b hb => hkeep b ((hlock b).trans hb),
      fun hs => hmono (hrefused hs)⟩
    have htot := hpass.totNext
    have hoff := hpass.offNext
    have hle := hpass.rest
    omega

/-- A pass has been noted. -/
def FileState.noted (s : FileState) (a : Pass) : FileState := { s with passes := a :: s.passes }

/-- Bytes have gone to `dst`. -/
def FileState.copied (s : FileState) (bytes : List (BitVec 8)) : FileState :=
  { s with dst := s.dst ++ bytes }

theorem Cached.fresh (h : Cached own s) : Cached own s.fresh := ⟨h.free, h.clean, h.pinned⟩

theorem Cached.noted (h : Cached own s) (a : Pass) : Cached own (s.noted a) :=
  ⟨h.free, h.clean, h.pinned⟩

theorem Cached.copied (h : Cached own s) (bytes : List (BitVec 8)) : Cached own (s.copied bytes) :=
  ⟨h.free, h.clean, h.pinned⟩

/-- A pass of the loop, with the states after the copy and after `block_release`. -/
theorem pass_run {copy : BlockNo → BitVec 32 → BitVec 32 → BitVec 32 → FileM Unit}
    {s₁ s₂ : FileState} (fuel : Nat) (hnull : ∀ r, env.null r = false) (h : Cached own s)
    (hlt : tot < n) (hi : off.toNat / bsize < ndirect) (hb : blockOf ip (off.toNat / bsize) = b)
    (hown : own b) (hne : b ≠ 0)
    (hcopy : (copy b tot off (passLen n tot off)).run
      ((s.noted ⟨off, passLen n tot off, b⟩).opened env b) = .ok () s₁)
    (hrelease : (call (blockRelease env b)).run s₁ = .ok () s₂) :
    (fileLoop env ip n copy (fuel + 1) tot off).run s
      = (fileLoop env ip n copy fuel (tot + passLen n tot off)
          (off + passLen n tot off)).run s₂ := by
  rw [fileLoop, if_pos hlt, addrAt_eq ip (Nat.le_of_lt hi), pure_bind, hb, if_neg hne,
    bind_ok (open_run hnull h hown)]
  dsimp only
  rw [bind_ok (m := notePass _) rfl]
  exact (bind_ok hcopy).trans (bind_ok hrelease)

/-- A pass of the loop of `inode_read`. -/
theorem read_pass (fuel : Nat) (hnull : ∀ r, env.null r = false) (h : Cached own s)
    (hlt : tot < n) (hi : off.toNat / bsize < ndirect) (hb : blockOf ip (off.toNat / bsize) = b)
    (hown : own b) (hne : b ≠ 0) :
    (fileLoop env ip n copyOut (fuel + 1) tot off).run s
      = (fileLoop env ip n copyOut fuel (tot + passLen n tot off) (off + passLen n tot off)).run
        (((s.noted ⟨off, passLen n tot off, b⟩).copied
          ((List.range (passLen n tot off).toNat).map fun i =>
            (s.world.view b).byte (off.toNat % bsize + i))).looked b) := by
  have hcopy : (copyOut b tot off (passLen n tot off)).run
      ((s.noted ⟨off, passLen n tot off, b⟩).opened env b)
      = .ok () (((s.noted ⟨off, passLen n tot off, b⟩).copied
          ((List.range (passLen n tot off).toNat).map fun i =>
            (s.world.view b).byte (off.toNat % bsize + i))).opened env b) := by
    rw [copyOut, getData_bind, opened_buf]
    rfl
  exact pass_run fuel hnull h hlt hi hb hown hne hcopy (look_run _ env b)

/-- A pass of the loop of `inode_write`. -/
theorem write_pass (fuel : Nat) (hnull : ∀ r, env.null r = false) (h : Cached own s)
    (hlt : tot < n) (hi : off.toNat / bsize < ndirect) (hb : blockOf ip (off.toNat / bsize) = b)
    (hown : own b) (hne : b ≠ 0) :
    (fileLoop env ip n (copyIn src) (fuel + 1) tot off).run s
      = (fileLoop env ip n (copyIn src) fuel (tot + passLen n tot off)
          (off + passLen n tot off)).run
        ((s.noted ⟨off, passLen n tot off, b⟩).changed b
          (Block.splice (s.world.view b) (off.toNat % bsize) (passLen n tot off).toNat
            fun i => src (tot.toNat + i))) := by
  have hcopy : (copyIn src b tot off (passLen n tot off)).run
      ((s.noted ⟨off, passLen n tot off, b⟩).opened env b)
      = .ok () ((s.noted ⟨off, passLen n tot off, b⟩).logged env b
          (Block.splice (s.world.view b) (off.toNat % bsize) (passLen n tot off).toNat
            fun i => src (tot.toNat + i))) := by
    rw [copyIn, getData_bind, opened_buf]
    exact log_run _ env b _
  exact pass_run fuel hnull h hlt hi hb hown hne hcopy (close_run _ env b _)

/-- **The loop of `inode_read`** stores the bytes of the range. -/
theorem read_loop (hnull : ∀ r, env.null r = false) (hexist : ∀ i < ndirect, blockOf ip i ≠ 0)
    (hown : ∀ i < ndirect, own (blockOf ip i)) :
    ∀ (fuel : Nat) (tot off : BitVec 32), InDirect n fuel tot off →
      ∀ s : FileState, Cached own s →
      ∃ off' s', (fileLoop env ip n copyOut fuel tot off).run s = .ok (n, off') s' ∧
        s'.dst = s.dst ++ (List.range (n.toNat - tot.toNat)).map fun i =>
          byteAt s.world ip (off.toNat + i) := by
  refine fileLoop_induction ?done ?pass
  case done =>
    intro fuel off s _
    refine ⟨off, s, fileLoop_done (by simp), ?_⟩
    rw [Nat.sub_self, List.range_zero, List.map_nil, List.append_nil]
  case pass =>
    intro fuel tot off h hpass _ ih s hcached
    obtain ⟨off', s', hrest, hdst⟩ := ih _
      (((hcached.noted ⟨off, passLen n tot off, blockOf ip (off.toNat / bsize)⟩).copied
        ((List.range (passLen n tot off).toNat).map fun i =>
          (s.world.view (blockOf ip (off.toNat / bsize))).byte (off.toNat % bsize + i))).looked
        (blockOf ip (off.toNat / bsize)))
    refine ⟨off', s', (read_pass fuel hnull hcached h hpass.index rfl (hown _ hpass.index)
      (hexist _ hpass.index)).trans hrest, ?_⟩
    rw [hdst, hpass.split, List.range_add, List.map_append, ← List.append_assoc]
    refine congrArg₂ (· ++ ·) (congrArg (s.dst ++ ·) ?_) ?_
    · -- the piece of this pass
      refine List.map_congr_left fun i hi => ?_
      exact entry_piece s.world.view (blockOf ip) hpass.piece (List.mem_range.mp hi)
    · rw [List.map_map]
      refine List.map_congr_left fun i _ => ?_
      rw [hpass.offNext, Nat.add_assoc]
      exact congrFun (looked_view _ _ _) _

/-- **The loop of `inode_write`**, when `log_write` accepts every block, puts `src` in place of the
range, and changes nothing else. -/
theorem write_loop (hnull : ∀ r, env.null r = false) (hexist : ∀ i < ndirect, blockOf ip i ≠ 0)
    (hdistinct : ∀ i < ndirect, ∀ j < ndirect, blockOf ip i = blockOf ip j → i = j)
    (hown : ∀ i < ndirect, own (blockOf ip i)) :
    ∀ (fuel : Nat) (tot off : BitVec 32), InDirect n fuel tot off →
      ∀ s : FileState, Cached own s →
      ∀ r s', (fileLoop env ip n (copyIn src) fuel tot off).run s = .ok r s' →
        s'.refused = false → Cached own s' ∧
        (∀ o < ndirect * bsize, byteAt s'.world ip o = overlay (byteAt s.world ip)
          (fun i => src (tot.toNat + i)) off.toNat (n.toNat - tot.toNat) o) ∧
        ∀ b, (∀ i < ndirect, b ≠ blockOf ip i) →
          s'.world.view b = s.world.view b ∧ s'.world.disk b = s.world.disk b := by
  refine fileLoop_induction ?done ?pass
  case done =>
    intro fuel off s hcached r s' hrun hok
    rw [fileLoop_done (by simp)] at hrun
    cases hrun
    refine ⟨hcached, fun o _ => ?_, fun b _ => ⟨rfl, rfl⟩⟩
    rw [Nat.sub_self, overlay_zero]
  case pass =>
    intro fuel tot off h hpass hnext ih s hcached r s' hrun hok
    obtain ⟨b, hb⟩ : ∃ b, blockOf ip (off.toNat / bsize) = b := ⟨_, rfl⟩
    have hownb : own b := hb ▸ hown _ hpass.index
    rw [write_pass fuel hnull hcached h hpass.index hb hownb (hb ▸ hexist _ hpass.index)] at hrun
    generalize hs₁ : FileState.changed _ b _ = s₁ at hrun
    have hview : ∀ b', s₁.world.view b' = if b' = b then
        Block.splice (s.world.view b) (off.toNat % bsize) (passLen n tot off).toNat
          (fun i => src (tot.toNat + i)) else s.world.view b' := by
      intro b'
      rw [← hs₁]
      exact changed_view _ b b' _
    have hok₁ : s₁.refused = false := by
      -- what has been refused stays refused to the end
      refine Bool.eq_false_iff.mpr fun hrefused => ?_
      obtain ⟨off', s'', hrun', -, -, hmono⟩ := fileLoop_returns hnull hexist (copyIn_steady src)
        fuel _ _ hnext s₁ fun i hi => by
          rw [← hs₁]
          exact changed_free b _ (hcached.free _ (hown i hi))
      rw [hrun] at hrun'
      cases hrun'
      rw [hmono hrefused] at hok
      cases hok
    have hcached₁ : Cached own s₁ := by
      rw [← hs₁] at hok₁ ⊢
      exact (hcached.noted _).changed hownb hok₁
    obtain ⟨hcached', hbytes, hothers⟩ := ih s₁ hcached₁ r s' hrun hok
    refine ⟨hcached', fun o ho => ?_, fun b' hb' => ?_⟩
    · have hpiece : byteAt s₁.world ip o = overlay (byteAt s.world ip)
          (fun i => src (tot.toNat + i)) off.toNat (passLen n tot off).toNat o := by
        refine entry_splice hpass.piece ?_ ?_ fun he => ?_
        · rw [hb, hview, if_pos rfl]
          rfl
        · intro b' hb'
          rw [hview, if_neg (hb ▸ hb')]
        · have ho' : o / bsize < ndirect := Nat.div_lt_of_lt_mul (by rw [Nat.mul_comm]; exact ho)
          exact hdistinct _ ho' _ hpass.index he
      rw [hbytes o ho, overlay_congr _ _ _ hpiece, hpass.offNext, hpass.split, ← overlay_append]
      simp only [hpass.totNext, Nat.add_assoc]
    · obtain ⟨hview', hdisk'⟩ := hothers b' hb'
      have hne : b' ≠ b := hb ▸ hb' _ hpass.index
      rw [hview', hdisk', hview, if_neg hne, ← hs₁]
      exact ⟨rfl, rfl⟩

/-! ## 4. The two calls -/

/-- `inode_update`. -/
theorem inodeUpdate_run (sb : Superblock) (inum : BitVec 32) (ip : Dinode)
    (hnull : ∀ r, env.null r = false) (h : Cached own s) (hown : own (iblock inum sb)) :
    (inodeUpdate env sb inum ip).run s = .ok () (s.changed (iblock inum sb)
      (Block.setDinode (s.world.view (iblock inum sb)) (inodeSlot inum) ip)) := by
  rw [inodeUpdate, bind_ok (open_run hnull h hown)]
  dsimp only
  rw [getData_bind, opened_buf]
  have hlog := log_run s env (iblock inum sb)
    (Block.setDinode (s.world.view (iblock inum sb)) (inodeSlot inum) ip)
  have hclose := bind_ok (f := fun _ => call (blockRelease env (iblock inum sb))) hlog
  rw [close_run] at hclose
  rw [← hclose, bind_assoc]
  rfl

/-- `inode_write` accepts the range. -/
theorem DirectFile.accepted {home : BlockNo} (h : DirectFile ip home off n) :
    (rangeOk ip off n && Wal.fits off n) = true := by
  have hbound : ndirect * bsize < 2 ^ 32 := by decide
  have hmax : ndirect * bsize ≤ maxfile * bsize := by decide
  have hfits := h.fits
  rw [Bool.and_eq_true]
  refine ⟨(rangeOk_iff ip off n).mpr ⟨h.start, by omega⟩, ?_⟩
  rw [Wal.fits, decide_eq_true_eq, BitVec.toNat_add]
  omega

/-- Only the size grows. -/
theorem grown_eq (ip : Dinode) (off : BitVec 32) :
    grown ip off = { ip with size := (grown ip off).size } ∧
      (grown ip off).size.toNat = max ip.size.toNat off.toNat := by
  rw [grown]
  by_cases h : ip.size < off
  · have hlt : ip.size.toNat < off.toNat := h
    rw [if_pos h]
    exact ⟨rfl, (Nat.max_eq_right (Nat.le_of_lt hlt)).symm⟩
  · have hle : ¬ ip.size.toNat < off.toNat := h
    rw [if_neg h]
    exact ⟨rfl, (Nat.max_eq_left (Nat.le_of_not_lt hle)).symm⟩

/-- **`inode_read`** of a file in its direct blocks. -/
theorem inodeRead_run (hnull : ∀ r, env.null r = false) (hexist : ∀ i < ndirect, blockOf ip i ≠ 0)
    (hown : ∀ i < ndirect, own (blockOf ip i)) (hsize : ip.size.toNat ≤ ndirect * bsize)
    (h : Cached own s) (hoff : off.toNat ≤ ip.size.toNat) (hwrap : off.toNat + n.toNat < 2 ^ 32) :
    ∃ k s', (inodeRead env ip off n).run s = .ok k s' ∧
      k.toNat = min n.toNat (ip.size.toNat - off.toNat) ∧
      s'.dst = (List.range k.toNat).map fun i => byteAt s.world ip (off.toNat + i) := by
  have hok : rangeOk ip off n = true := (rangeOk_iff ip off n).mpr ⟨hoff, hwrap⟩
  have hclip := clip_toNat hok
  have hzero : (0 : BitVec 32).toNat = 0 := rfl
  have hrange : InDirect (clip ip off n) (clip ip off n).toNat 0 off :=
    ⟨by omega, by omega, by omega⟩
  obtain ⟨off', s', hrun, hdst⟩ := read_loop hnull hexist hown _ _ _ hrange s.fresh h.fresh
  refine ⟨clip ip off n, s', ?_, hclip, hdst⟩
  rw [inodeRead_accepted hok, bind_ok hrun]
  rfl

/-- What `inode_write` has put in the buffers is what every `inode_read` returns. -/
theorem readsBack_of_written {ip' : Dinode} {home : BlockNo} {s₁ : FileState}
    (hfile : DirectFile ip home off n) (hip : ip' = { ip with size := ip'.size })
    (hsize : ip'.size.toNat = max ip.size.toNat (off.toNat + n.toNat))
    (hcached : Cached (Uses ip home) s₁)
    (hbytes : ∀ o < ndirect * bsize, byteAt s₁.world ip o
      = overlay (byteAt s.world ip) src off.toNat n.toNat o)
    (hothers : ∀ b, (∀ i < ndirect, b ≠ blockOf ip i) →
      s₁.world.view b = s.world.view b ∧ s₁.world.disk b = s.world.disk b)
    (hok : (s₁.changed home data).refused = false) :
    ReadsBack s (s₁.changed home data) ip ip' home src off n := by
  have hblocks : blockOf ip' = blockOf ip := by
    rw [hip]
    rfl
  have hexist : ∀ i < ndirect, blockOf ip' i ≠ 0 := hblocks ▸ hfile.exist
  have hown : ∀ i < ndirect, Uses ip home (blockOf ip' i) :=
    fun i hi => .inl ⟨i, hi, by rw [hblocks]⟩
  have hfits := hfile.fits
  have hold := hfile.size
  constructor
  case others =>
    intro b hb
    have hne : b ≠ home := fun he => hb (.inr he)
    rw [changed_view, if_neg hne]
    exact hothers b fun i hi he => hb (.inl ⟨i, hi, he⟩)
  case reads =>
    intro env hnull off₂ n₂ hoff₂ hwrap₂
    obtain ⟨k, s₂, hread, hk, hdst⟩ := inodeRead_run hnull hexist hown (by omega)
      (hcached.changed (.inr rfl) hok) hoff₂ hwrap₂
    refine ⟨k, s₂, hread, hk, hdst.trans (List.map_congr_left fun i hi => ?_)⟩
    have hlt : off₂.toNat + i < ndirect * bsize := by
      have hik := List.mem_range.mp hi
      omega
    have hblock : (off₂.toNat + i) / bsize < ndirect :=
      Nat.div_lt_of_lt_mul (by rw [Nat.mul_comm]; exact hlt)
    rw [byteAt, hblocks, changed_view, if_neg (hfile.apart _ hblock)]
    exact hbytes _ hlt

/-- **Reading after writing**: for every inode whose direct blocks exist and are apart, every range
in them and every `src`, when `block_read` never returns `NULL`, `inode_write` returns `n`, and the
size grows to the end of the range; if `log_write` has accepted every block, every `inode_read`
then returns the old bytes with the new ones over them, and no other block has changed. -/
theorem read_after_write (env : Env) (sb : Superblock) (inum : BitVec 32) (ip : Dinode)
    (src : Nat → BitVec 8) (s : FileState) (off n : BitVec 32) (hnull : ∀ r, env.null r = false)
    (hcached : Cached (Uses ip (iblock inum sb)) s)
    (hfile : DirectFile ip (iblock inum sb) off n) :
    ∃ ip' s', (inodeWrite env sb inum ip src off n).run s = .ok (n, ip') s' ∧
      ip' = { ip with size := ip'.size } ∧
      ip'.size.toNat = max ip.size.toNat (off.toNat + n.toNat) ∧
      (s'.refused = false → ReadsBack s s' ip ip' (iblock inum sb) src off n) := by
  have hown : ∀ i < ndirect, Uses ip (iblock inum sb) (blockOf ip i) :=
    fun i hi => .inl ⟨i, hi, rfl⟩
  have hhome : Uses ip (iblock inum sb) (iblock inum sb) := .inr rfl
  have hcached₀ := hcached.fresh
  have hfits := hfile.fits
  have hzero : (0 : BitVec 32).toNat = 0 := rfl
  have hrange : InDirect n n.toNat 0 off := ⟨by omega, by omega, by omega⟩
  -- the loop
  obtain ⟨off', s₁, hloop, hend, hfree, -⟩ := fileLoop_returns hnull hfile.exist
    (copyIn_steady src) _ _ _ hrange s.fresh fun i hi => hcached₀.free _ (hown i hi)
  obtain ⟨hgrown, hsize⟩ := grown_eq ip off'
  have hsize' : (grown ip off').size.toNat = max ip.size.toNat (off.toNat + n.toNat) := by
    rw [hsize, hend, hzero, Nat.sub_zero]
  -- the inode
  obtain ⟨s₂, hupdate, -, hmono⟩ := inodeUpdate_returns sb inum (grown ip off') (hnull _)
    (hfree _ (hcached₀.free _ hhome))
  refine ⟨grown ip off', s₂, ?_, hgrown, hsize', fun hok => ?_⟩
  · rw [inodeWrite_accepted hfile.accepted, bind_ok hloop]
    dsimp only
    rw [bind_ok hupdate]
    rfl
  have hok₁ : s₁.refused = false := Bool.eq_false_iff.mpr fun hrefused => by
    rw [hmono hrefused] at hok
    cases hok
  obtain ⟨hcached₁, hbytes, hothers⟩ := write_loop hnull hfile.exist hfile.distinct hown _ _ _
    hrange s.fresh hcached₀ _ s₁ hloop hok₁
  rw [inodeUpdate_run sb inum _ hnull hcached₁ hhome] at hupdate
  obtain rfl := (EStateM.Result.ok.inj hupdate).2
  refine readsBack_of_written hfile hgrown hsize' hcached₁ (fun o ho => ?_) hothers hok
  rw [hbytes o ho, hzero, Nat.sub_zero]
  simp only [Nat.zero_add]
  rfl

/-- A small file system: the inodes from block 32 on. -/
def smallFs : Superblock := ⟨fsMagic, 1000, 900, 200, 30, 2, 32, 60⟩

/-- A file of 1000 bytes. -/
def shortFile : Dinode := ⟨2, 0, 0, 1, 1000, fun i => 100 + BitVec.ofNat 32 i.val⟩

/-- 600 bytes from the byte 500 on, in three blocks: the file grows to 1100 bytes. -/
theorem read_after_write_three_blocks : ∃ ip' s',
    (inodeWrite ⟨1, fun _ => false, fun _ => true⟩ smallFs 1 shortFile (fun i => BitVec.ofNat 8 i)
      500 600).run bootFiles = .ok (600, ip') s' ∧
    ip' = { shortFile with size := ip'.size } ∧ ip'.size.toNat = 1100 ∧
    ReadsBack bootFiles s' shortFile ip' (iblock 1 smallFs) (fun i => BitVec.ofNat 8 i)
      500 600 := by
  have hcached : Cached (Uses shortFile (iblock 1 smallFs)) bootFiles :=
    ⟨fun _ _ => rfl, fun _ _ _ => rfl, fun _ _ hmem => absurd hmem List.not_mem_nil⟩
  have hfile : DirectFile shortFile (iblock 1 smallFs) 500 600 :=
    ⟨by decide, by decide +kernel, by decide, by decide, by decide, by decide⟩
  obtain ⟨ip', s', hrun, hip, hsize, hback⟩ := read_after_write ⟨1, fun _ => false, fun _ => true⟩
    smallFs 1 shortFile (fun i => BitVec.ofNat 8 i) bootFiles 500 600 (fun _ => rfl) hcached hfile
  have hok : (finalState ((inodeWrite ⟨1, fun _ => false, fun _ => true⟩ smallFs 1 shortFile
      (fun i => BitVec.ofNat 8 i) 500 600).run bootFiles)).refused = false := by
    decide +kernel
  rw [hrun] at hok
  exact ⟨ip', s', hrun, hip, hsize, hback hok⟩

/-- The boot is over, and no operation is open. -/
def idleFiles : FileState := { bootFiles with log := { bootFiles.log with outstanding := 0 } }

/-- `log_write` refuses the block: it is written to its buffer only, and the buffer is recycled
before it is read. -/
theorem written_byte_lost : ¬ ∀ (env : Env) (sb : Superblock) (inum : BitVec 32) (ip : Dinode)
    (src : Nat → BitVec 8) (s : FileState) (off n : BitVec 32), (∀ r, env.null r = false) →
    Cached (Uses ip (iblock inum sb)) s → DirectFile ip (iblock inum sb) off n →
    ∃ ip' s', (inodeWrite env sb inum ip src off n).run s = .ok (n, ip') s' ∧
      ip' = { ip with size := ip'.size } ∧
      ip'.size.toNat = max ip.size.toNat (off.toNat + n.toNat) ∧
      ReadsBack s s' ip ip' (iblock inum sb) src off n := by
  intro h
  have hcached : Cached (Uses shortFile (iblock 1 smallFs)) idleFiles :=
    ⟨fun _ _ => rfl, fun _ _ _ => rfl, fun _ _ hmem => absurd hmem List.not_mem_nil⟩
  have hfile : DirectFile shortFile (iblock 1 smallFs) 0 1 :=
    ⟨by decide, by decide +kernel, by decide, by decide, by decide, by decide⟩
  obtain ⟨ip', s', hrun, hip, hsize, hback⟩ := h ⟨1, fun _ => false, fun _ => true⟩ smallFs 1
    shortFile (fun _ => 7) idleFiles 0 1 (fun _ => rfl) hcached hfile
  obtain ⟨k, s'', hread, hk, hdst⟩ := hback.reads ⟨1, fun _ => false, fun _ => true⟩ (fun _ => rfl)
    0 1 (Nat.zero_le _) (by decide)
  have hsame : ip' = shortFile := by
    have hsize' : ip'.size = shortFile.size := BitVec.eq_of_toNat_eq hsize
    rw [hip, hsize']
  have hlost : (finalState ((inodeRead ⟨1, fun _ => false, fun _ => true⟩ shortFile 0 1).run
      (finalState ((inodeWrite ⟨1, fun _ => false, fun _ => true⟩ smallFs 1 shortFile (fun _ => 7)
        0 1).run idleFiles)))).dst = [0] := by
    decide +kernel
  rw [hsame] at hrun hread hk
  rw [hrun, finalState, hread, finalState, hdst, hk] at hlost
  exact absurd hlost (by decide)

end Lithium.Wal
