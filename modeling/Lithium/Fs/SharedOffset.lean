/-
# Processes that share an open file

`file_read` by any number of processes that hold one `struct file` of type `FD_INODE`.  The offset
belongs to the file and the sleeplock to the inode, so other processes that lock the inode take
part as well, be it through `file_stat` or through another open file; none of them writes.  A step
ends wherever `file_read` may be interrupted: in `sleeplock_acquire`, at every `block_read`, between
`inode_read` and the change of `f->off`.
-/
import Lithium.Fs.Icache
import Lithium.Fs.FileLoop
import Lithium.Lib.Windows

namespace Lithium

open Transition Windows
open Wal (Pass rangeOk clip passLen blockOf)

/-! ## 1. The code -/

/-- Where a process is: in `file_read` with `n`, or, where there is no `n`, in another function that
locks the inode.  `turn` says how often the lock had been obtained before. -/
inductive ReadPoint where
  | idle
  /-- In `inode_lock`, in `sleeplock_acquire`. -/
  | lock (n : Option (BitVec 32))
  /-- In `inode_lock`, before its test of `valid`. -/
  | load (turn : Nat) (n : Option (BitVec 32))
  /-- Before the call of `inode_read`. -/
  | call (turn : Nat) (n : BitVec 32)
  /-- In the loop of `inode_read`, which was passed `start`, before the test `tot < n`. -/
  | loop (turn : Nat) (start n tot off : BitVec 32) (passes : List Pass)
  /-- Before `if (r > 0) f->off += r`. -/
  | advance (turn : Nat) (start r : BitVec 32) (passes : List Pass)
  /-- Before `inode_unlock`. -/
  | unlock

/-- A `file_read` that has got its result `r`: what it passed to `inode_read` as `off`, and the
passes of the loop. -/
structure SharedRead where
  turn : Nat
  off : BitVec 32
  r : BitVec 32
  passes : List Pass

/-- The inode, the fields of the open file, where each process is, how often the lock has been
obtained, and the reads, in the order in which they got their results. -/
structure SharedFile (T : Type*) where
  ip : Inode T
  readable : Bool
  off : BitVec 32
  point : T → ReadPoint
  turns : Nat
  reads : List SharedRead

/-- What happens next. -/
inductive SharedOp (T : Type*) where
  | fileRead (t : T) (n : BitVec 32)
  /-- `t` locks the inode in another function. -/
  | inodeLock (t : T)
  /-- `inode_dup`, `inode_get` or `inode_put` by others, who leave the reference of the file. -/
  | count (ref : Nat)
  /-- `t` goes on; `null` when `block_read` fails, and `wild` is what is found beyond `addrs`. -/
  | next (t : T) (null : Bool) (wild : BlockNo)

/-- The point after `inode_lock`. -/
def ReadPoint.locked (turn : Nat) : Option (BitVec 32) → ReadPoint
  | some n => .call turn n
  | none => .unlock

/-- `ip->addrs[i]`. -/
def addrOr (ip : Dinode) (wild : BlockNo) (i : Nat) : BlockNo :=
  if i ≤ ndirect then blockOf ip i else wild

/-- The loop of `inode_read` up to the next test of `tot < n`. -/
def ReadPoint.pass (ip : Dinode) (null : Bool) (wild : BlockNo) (turn : Nat)
    (start n tot off : BitVec 32) (passes : List Pass) : ReadPoint :=
  if tot < n then
    let addr := addrOr ip wild (off.toNat / bsize)
    if addr = 0 ∨ null then .advance turn start tot passes
    else
      let m := passLen n tot off
      .loop turn start n (tot + m) (off + m) (passes ++ [⟨off, m, addr⟩])
  else .advance turn start tot passes

namespace SharedFile

variable {T : Type*}

/-- The end of `inode_lock`: read the fields from the disk when they are not valid. -/
def load (s : SharedFile T) (disk : Dinode) (null : Bool) : SharedFile T :=
  if s.ip.valid || null then s
  else { s with ip := { s.ip with copy := disk, valid := true } }

/-- `inode_read` up to its loop. -/
def inodeRead (s : SharedFile T) (turn : Nat) (n : BitVec 32) : ReadPoint :=
  if rangeOk s.ip.copy s.off n then .loop turn s.off (clip s.ip.copy s.off n) 0 s.off []
  else .advance turn s.off (-1) []

/-- `if (r > 0) f->off += r`; the read has its result. -/
def advance (s : SharedFile T) (turn : Nat) (start r : BitVec 32) (passes : List Pass) :
    SharedFile T :=
  { s with
    off := if 0 < r.toInt then s.off + r else s.off
    reads := s.reads ++ [⟨turn, start, r, passes⟩] }

variable [DecidableEq T]

/-- Move `t` on. -/
def goto (s : SharedFile T) (t : T) (p : ReadPoint) : SharedFile T :=
  { s with point := Function.update s.point t p }

/-- `inode_lock` up to `sleeplock_acquire`. -/
def inodeLock (s : SharedFile T) (t : T) (n : Option (BitVec 32)) : SharedFile T :=
  s.goto t (if s.ip.ref < 1 then .locked s.turns n else .lock n)

/-- `sleeplock_acquire`, when the lock is free. -/
def acquire (s : SharedFile T) (t : T) : Option (SharedFile T) :=
  if s.ip.lock = none then
    some { s with ip := { s.ip with lock := some t }, turns := s.turns + 1 }
  else none

/-- `inode_unlock`. -/
def inodeUnlock (s : SharedFile T) (t : T) : SharedFile T :=
  if s.ip.lock ≠ some t ∨ s.ip.ref < 1 then s
  else { s with ip := { s.ip with lock := none } }

/-- One step; `disk` is the inode on the disk. -/
def step (disk : Dinode) (s : SharedFile T) : SharedOp T → Option (SharedFile T)
  | .fileRead t n =>
    match s.point t with
    | .idle => some (if s.readable then s.inodeLock t (some n) else s)
    | _ => none
  | .inodeLock t =>
    match s.point t with
    | .idle => some (s.inodeLock t none)
    | _ => none
  | .count ref => if 1 ≤ ref then some { s with ip := { s.ip with ref := ref } } else none
  | .next t null wild =>
    match s.point t with
    | .idle => none
    | .lock n => (s.acquire t).map fun s' => s'.goto t (.load s.turns n)
    | .load turn n => some ((s.load disk null).goto t (.locked turn n))
    | .call turn n => some (s.goto t (s.inodeRead turn n))
    | .loop turn start n tot off passes =>
      some (s.goto t (.pass s.ip.copy null wild turn start n tot off passes))
    | .advance turn start r passes => some ((s.advance turn start r passes).goto t .unlock)
    | .unlock => some ((s.inodeUnlock t).goto t .idle)

/-- Nobody is in a call, and `f->off` is `start`. -/
def init (ip : Inode T) (readable : Bool) (start : BitVec 32) : SharedFile T where
  ip := ip
  readable := readable
  off := start
  point := fun _ => .idle
  turns := 0
  reads := []

end SharedFile

/-! ## 2. A process alone -/

/-- The point after a `block_read` in the loop of `inode_read`. -/
def ReadPoint.answered (ip : Dinode) (wild : BlockNo) : ReadPoint → Bool → ReadPoint
  | .loop turn start n tot off passes, null => .pass ip null wild turn start n tot off passes
  | p, _ => p

section Alone

variable {env : Wal.Env} {ip : Dinode} {wild : BlockNo} {turn : Nat} {start n tot off : BitVec 32}
  {passes : List Pass}

theorem pass_done {null : Bool} (h : ¬ tot < n) :
    ReadPoint.pass ip null wild turn start n tot off passes = .advance turn start tot passes := by
  rw [ReadPoint.pass, if_neg h]

theorem pass_null (h : tot < n) :
    ReadPoint.pass ip true wild turn start n tot off passes = .advance turn start tot passes := by
  rw [ReadPoint.pass, if_pos h]
  exact if_pos (.inr rfl)

theorem pass_entered {s : Wal.FileState} {b : BlockNo} (h : Wal.Entered env ip n tot off b s) :
    ReadPoint.pass ip false wild turn start n tot off passes =
      .loop turn start n (tot + passLen n tot off) (off + passLen n tot off)
        (passes ++ [⟨off, passLen n tot off, b⟩]) := by
  have hgo : ¬ (b = 0 ∨ false = true) := by
    rintro (hzero | hnull)
    · exact h.exists_ hzero
    · cases hnull
  rw [ReadPoint.pass, if_pos h.left, addrOr, if_pos h.index, h.block]
  exact if_neg hgo

/-- The process gets from `p` to `q` when the calls of `block_read` answer in some way. -/
def Leads (ip : Dinode) (wild : BlockNo) (p q : ReadPoint) : Prop :=
  ∃ nulls : List Bool, nulls.foldl (ReadPoint.answered ip wild) p = q

theorem Leads.refl (p : ReadPoint) : Leads ip wild p p := ⟨[], rfl⟩

theorem Leads.step {p q : ReadPoint} (h : Leads ip wild p q) (null : Bool) :
    Leads ip wild p (q.answered ip wild null) := by
  obtain ⟨nulls, rfl⟩ := h
  exact ⟨nulls ++ [null], List.foldl_concat _ _ _ _⟩

/-- The loop of `InodeData.lean` takes the process on. -/
theorem fileLoop_leads {p : ReadPoint} (fuel : Nat) (tot off : BitVec 32) (s : Wal.FileState)
    (hfuel : n.toNat - tot.toNat ≤ fuel) (hend : off.toNat + (n.toNat - tot.toNat) < 2 ^ 32)
    (hp : Leads ip wild p (.loop turn start n tot off s.passes.reverse)) :
    Ends (Wal.fileLoop env ip n Wal.copyOut fuel tot off) s
      (fun r s' => Leads ip wild p (.advance turn start r.1 s'.passes.reverse))
      fun _ _ => True := by
  refine Wal.fileLoop_rule (I := fun fuel tot off s => n.toNat - tot.toNat ≤ fuel ∧
      off.toNat + (n.toNat - tot.toNat) < 2 ^ 32 ∧
      Leads ip wild p (.loop turn start n tot off s.passes.reverse))
    (R := fun tot _ s' => Leads ip wild p (.advance turn start tot s'.passes.reverse))
    ?done (fun _ _ _ _ _ _ _ => trivial) ?missing ?null (fun _ _ _ _ _ _ _ => trivial) ?pass
    fuel tot off s ⟨hfuel, hend, hp⟩
  case done =>
    rintro fuel tot off s ⟨hfuel, -, hp⟩ hover
    have hdone : ¬ tot < n := by
      rcases hover with rfl | hdone
      · exact fun hlt => absurd (show tot.toNat < n.toNat from hlt) (by omega)
      · exact hdone
    exact pass_done hdone ▸ hp.step false
  case missing =>
    rintro fuel tot off s ⟨-, -, hp⟩ hlt -
    exact pass_null hlt ▸ hp.step true
  case null =>
    rintro fuel tot off s ⟨-, -, hp⟩ hlt - -
    exact pass_null hlt ▸ hp.step true
  case pass =>
    rintro fuel tot off s b ⟨hfuel, hend, hp⟩ henter
    have hlt : tot.toNat < n.toNat := henter.left
    obtain ⟨hpos, htot, hoff⟩ := Wal.pass_advance off henter.left hend
    have hlen := Wal.passLen_toNat off henter.left
    refine Wal.copyOut_ends ⟨congrArg Wal.CachedBlock.lock (Wal.got_buf s env b), by omega,
      by omega, ?_⟩
    have hnext := hp.step false
    rw [ReadPoint.answered, pass_entered henter, ← List.reverse_cons] at hnext
    exact hnext

/-- **A process that is alone in `inode_read`** gets the result, and makes the passes, of the
`inode_read` of `InodeData.lean`. -/
theorem inodeRead_leads {T : Type*} (env : Wal.Env) (f : SharedFile T) (wild : BlockNo)
    (turn : Nat) (n : BitVec 32) (s : Wal.FileState) :
    Ends (Wal.inodeRead env f.ip.copy f.off n) s
      (fun r s' => Leads f.ip.copy wild (f.inodeRead turn n)
        (.advance turn f.off r s'.passes.reverse)) fun _ _ => True := by
  rw [SharedFile.inodeRead]
  split
  case isTrue hok =>
    have hclip := Wal.clip_toNat hok
    obtain ⟨-, hwrap⟩ := (Wal.rangeOk_iff f.ip.copy f.off n).mp hok
    have hzero : (0 : BitVec 32).toNat = 0 := rfl
    refine (Ends.congr (Wal.inodeRead_accepted hok)).mpr ?_
    exact (fileLoop_leads _ 0 f.off s.fresh (by omega) (by omega) (.refl _)).bind fun _ _ hr => hr
  case isFalse hno => exact .of_ok (Wal.inodeRead_refused hno) (.refl _)

end Alone

/-! ## 3. The property -/

/-- Where a pass starts in the file. -/
abbrev passOff (a : Pass) : Nat := a.off.toNat

/-- How many bytes a pass delivers. -/
abbrev passCount (a : Pass) : Nat := a.len.toNat

namespace SharedRead

/-- The bytes of the file that a read delivers, in order. -/
def positions (x : SharedRead) : List Nat := x.passes.flatMap (Windows.positions passOff passCount)

/-- How many bytes a read says that it has delivered. -/
def count (x : SharedRead) : Nat := x.r.toInt.toNat

end SharedRead

/-- The reads have shared the position, which was `start` at first. -/
structure SharedFile.Consistent {T : Type*} (start : BitVec 32) (s : SharedFile T) : Prop where
  /-- The reads got their results in the order in which they obtained the lock. -/
  order : s.reads.Pairwise fun x y => x.turn < y.turn
  /-- Each range starts where the one before it ends. -/
  consecutive : ∀ xs x ys, s.reads = xs ++ x :: ys →
    x.off.toNat = start.toNat + (xs.map SharedRead.count).sum
  disjoint : s.reads.Pairwise fun x y => x.off.toNat + x.count ≤ y.off.toNat
  /-- A read delivers its range. -/
  delivered : ∀ x ∈ s.reads, x.positions = List.range' x.off.toNat x.count
  /-- All the reads together deliver every byte from `start` on once. -/
  whole : s.reads.flatMap SharedRead.positions =
    List.range' start.toNat (s.reads.map SharedRead.count).sum
  offset : s.off.toNat = start.toNat + (s.reads.map SharedRead.count).sum

/-! ## 4. The passes of a read -/

/-- The passes deliver `tot` bytes from `start` on, and are part of a range that neither wraps
around nor is longer than an `int` counts. -/
structure Delivered (start tot : BitVec 32) (passes : List Pass) : Prop where
  consecutive : Consecutive passOff passCount start.toNat passes
  total : total passCount passes = tot.toNat
  wraps : start.toNat + tot.toNat < 2 ^ 32
  int : tot.toNat < 2 ^ 31

/-- **A pass of the loop** delivers the bytes that come after those delivered. -/
theorem Delivered.pass {start n tot off : BitVec 32} {passes : List Pass} {addr : BlockNo}
    (h : Delivered start tot passes) (hoff : off.toNat = start.toNat + tot.toNat) (hlt : tot < n)
    (hwrap : start.toNat + n.toNat < 2 ^ 32) (hint : n.toNat < 2 ^ 31) :
    Delivered start (tot + passLen n tot off) (passes ++ [⟨off, passLen n tot off, addr⟩]) ∧
      (off + passLen n tot off).toNat = start.toNat + (tot + passLen n tot off).toNat ∧
      (tot + passLen n tot off).toNat ≤ n.toNat := by
  have hlt' : tot.toNat < n.toNat := hlt
  obtain ⟨-, htot, hend⟩ := Wal.pass_advance off hlt (by omega)
  have hlen := Wal.passLen_toNat off hlt
  have hle : (tot + passLen n tot off).toNat ≤ n.toNat := by omega
  refine ⟨⟨h.consecutive.concat ?_, ?_, by omega, by omega⟩, by omega, hle⟩
  · rw [h.total]
    exact hoff
  · rw [total_concat, h.total, htot]

/-- The result of a read says what it has delivered, and what is added to `f->off`. -/
theorem delivered_count (turn : Nat) {start r : BitVec 32} {passes : List Pass}
    (h : r = -1 ∧ passes = [] ∨ Delivered start r passes) :
    SharedRead.positions ⟨turn, start, r, passes⟩ =
        List.range' start.toNat (SharedRead.count ⟨turn, start, r, passes⟩) ∧
      (if 0 < r.toInt then start + r else start).toNat =
        start.toNat + SharedRead.count ⟨turn, start, r, passes⟩ := by
  rcases h with ⟨rfl, rfl⟩ | h
  · exact ⟨rfl, rfl⟩
  have hint : r.toInt = r.toNat := BitVec.toInt_eq_toNat_of_lt (by have hlt := h.int; omega)
  have hcount : SharedRead.count ⟨turn, start, r, passes⟩ = r.toNat := by
    rw [SharedRead.count, hint, Int.toNat_natCast]
  rw [hcount]
  constructor
  · rw [SharedRead.positions, ← h.total]
    exact h.consecutive.flatMap_positions
  · have hwrap := h.wraps
    split
    · rw [BitVec.toNat_add, Nat.mod_eq_of_lt hwrap]
    · omega

/-! ## 5. The invariant -/

namespace ReadPoint

/-- The points at which a process holds the sleeplock. -/
def holds : ReadPoint → Bool
  | .idle | .lock _ => false
  | _ => true

/-- What a process that has not yet called `inode_read` is going to pass as `n`. -/
def asked : ReadPoint → Option (BitVec 32)
  | .lock n | .load _ n => n
  | .call _ n => some n
  | _ => none

end ReadPoint

namespace SharedFile

variable {T : Type*}

/-- Nobody who obtained the lock at `turn` or later has a result. -/
def Pending (s : SharedFile T) (turn : Nat) : Prop :=
  turn < s.turns ∧ ∀ x ∈ s.reads, x.turn < turn

/-- What holds of the process that holds the lock. -/
def HolderOk (s : SharedFile T) : ReadPoint → Prop
  | .load turn _ | .call turn _ => s.Pending turn
  | .loop turn start n tot off passes =>
    s.Pending turn ∧ start = s.off ∧ Delivered start tot passes ∧
      off.toNat = start.toNat + tot.toNat ∧ tot.toNat ≤ n.toNat ∧
      start.toNat + n.toNat < 2 ^ 32 ∧ n.toNat < 2 ^ 31
  | .advance turn start r passes =>
    s.Pending turn ∧ start = s.off ∧ (r = -1 ∧ passes = [] ∨ Delivered start r passes)
  | _ => True

/-- What holds of the processes: the lock is with the one that holds it. -/
structure PointsOk (s : SharedFile T) : Prop where
  lock : ∀ t, s.ip.lock = some t ↔ (s.point t).holds = true
  asked : ∀ t n, (s.point t).asked = some n → 0 ≤ n.toInt
  holder : ∀ t, s.ip.lock = some t → s.HolderOk (s.point t)

/-- What holds of the reads. -/
structure ReadsOk (start : BitVec 32) (s : SharedFile T) : Prop where
  past : ∀ x ∈ s.reads, x.turn < s.turns
  order : s.reads.Pairwise fun x y => x.turn < y.turn
  delivered : ∀ x ∈ s.reads, x.positions = List.range' x.off.toNat x.count
  consecutive : Consecutive (fun x => x.off.toNat) SharedRead.count start.toNat s.reads
  offset : s.off.toNat = start.toNat + total SharedRead.count s.reads

/-- The invariant. -/
structure Inv (start : BitVec 32) (s : SharedFile T) : Prop where
  ref : 1 ≤ s.ip.ref
  points : s.PointsOk
  reads : s.ReadsOk start

variable {s s' : SharedFile T} {start : BitVec 32} {t : T}

/-- **The reads share the position.** -/
theorem ReadsOk.consistent (h : s.ReadsOk start) : s.Consistent start where
  order := h.order
  consecutive xs x ys hreads := by
    have hcons := h.consecutive
    rw [hreads] at hcons
    exact hcons.off_eq
  disjoint := h.consecutive.pairwise
  delivered := h.delivered
  whole := by
    have hsame : s.reads.flatMap SharedRead.positions =
        s.reads.flatMap (positions (fun x => x.off.toNat) SharedRead.count) :=
      List.flatMap_congr fun x hx => h.delivered x hx
    rw [hsame]
    exact h.consecutive.flatMap_positions
  offset := h.offset

/-! ## 6. One step -/

/-- No read gets its result. -/
theorem ReadsOk.keep (h : s.ReadsOk start) (hoff : s'.off = s.off) (hturns : s.turns ≤ s'.turns)
    (hreads : s'.reads = s.reads) : s'.ReadsOk start where
  past x hx := by
    rw [hreads] at hx
    exact Nat.lt_of_lt_of_le (h.past x hx) hturns
  order := by
    rw [hreads]
    exact h.order
  delivered := by
    rw [hreads]
    exact h.delivered
  consecutive := by
    rw [hreads]
    exact h.consecutive
  offset := by
    rw [hreads, hoff]
    exact h.offset

/-- Whoever does not have the lock is at no point where it would. -/
theorem PointsOk.not_locked (h : s.PointsOk) (ht : (s.point t).holds = false) :
    s.ip.lock ≠ some t := by
  intro hlock
  have hholds := (h.lock t).mp hlock
  rw [ht] at hholds
  cases hholds

variable [DecidableEq T]

/-- **A step of `t`**: it does not take the lock from another process, and changes nothing that the
process with the lock relies on. -/
theorem PointsOk.move (h : s.PointsOk) {p : ReadPoint}
    (hpoint : s'.point = Function.update s.point t p)
    (hlock : s'.ip.lock = some t ↔ p.holds = true)
    (hothers : ∀ u, u ≠ t → (s'.ip.lock = some u ↔ s.ip.lock = some u))
    (hasked : ∀ n, p.asked = some n → 0 ≤ n.toInt)
    (hok : s'.ip.lock = some t → s'.HolderOk p)
    (hkeep : ∀ u, u ≠ t → s.ip.lock = some u → s.HolderOk (s.point u) → s'.HolderOk (s.point u)) :
    s'.PointsOk where
  lock u := by
    rw [hpoint]
    by_cases hu : u = t
    · rw [hu, Function.update_self, hlock]
    · rw [Function.update_of_ne hu, hothers u hu, h.lock u]
  asked u := by
    rw [hpoint]
    by_cases hu : u = t
    · rw [hu, Function.update_self]
      exact hasked
    · rw [Function.update_of_ne hu]
      exact h.asked u
  holder u hlocked := by
    rw [hpoint]
    by_cases hu : u = t
    · rw [hu] at hlocked ⊢
      rw [Function.update_self]
      exact hok hlocked
    · rw [Function.update_of_ne hu]
      have hlocked' := (hothers u hu).mp hlocked
      exact hkeep u hu hlocked' (h.holder u hlocked')

/-- A process that does not have the lock gets to another point where it does not. -/
theorem PointsOk.outside (h : s.PointsOk) {p : ReadPoint} (ht : (s.point t).holds = false)
    (hp : p.holds = false) (hasked : ∀ n, p.asked = some n → 0 ≤ n.toInt) :
    (s.goto t p).PointsOk := by
  have hfree := h.not_locked ht
  have hnot : ¬ p.holds = true := by
    rw [hp]
    exact Bool.false_ne_true
  exact h.move rfl (iff_of_false hfree hnot) (fun _ _ => Iff.rfl) hasked
    (fun hlock => absurd hlock hfree) fun _ _ _ => id

/-- The process with the lock goes on, and keeps it. -/
theorem PointsOk.inside (h : s.PointsOk) (ht : s.ip.lock = some t) {p : ReadPoint}
    (hpoint : s'.point = Function.update s.point t p) (hlock : s'.ip.lock = s.ip.lock)
    (hp : p.holds = true) (hasked : ∀ n, p.asked = some n → 0 ≤ n.toInt)
    (hok : s'.HolderOk p) : s'.PointsOk := by
  refine h.move hpoint (iff_of_true (hlock.trans ht) hp) (fun u _ => by rw [hlock]) hasked
    (fun _ => hok) fun u hu hu' => ?_
  rw [ht] at hu'
  exact absurd (Option.some.inj hu').symm hu

/-- `sleeplock_acquire`. -/
theorem Inv.acquire (h : Inv start s) {n : Option (BitVec 32)} (hpoint : s.point t = .lock n)
    (hs : s.acquire t = some s') : Inv start (s'.goto t (.load s.turns n)) := by
  obtain ⟨hfree, ⟨⟩⟩ := Option.ite_none_right_eq_some.mp hs
  refine ⟨h.ref, ?_, h.reads.keep rfl (Nat.le_succ _) rfl⟩
  have hasked := h.points.asked t
  rw [hpoint] at hasked
  have hothers : ∀ u, u ≠ t → (some t = some u ↔ s.ip.lock = some u) := fun u hu => by
    rw [hfree]
    exact iff_of_false (fun he => hu (Option.some.inj he).symm) nofun
  refine h.points.move rfl (iff_of_true rfl rfl) hothers hasked (fun _ => ?_) fun u _ hu => ?_
  · exact ⟨Nat.lt_succ_self _, h.reads.past⟩
  · rw [hfree] at hu
    cases hu

/-- `inode_unlock`. -/
theorem Inv.inodeUnlock (h : Inv start s) (ht : s.ip.lock = some t) :
    Inv start ((s.inodeUnlock t).goto t .idle) := by
  have hgo : ¬ (s.ip.lock ≠ some t ∨ s.ip.ref < 1) := by
    rintro (hne | hlt)
    · exact hne ht
    · exact absurd h.ref (Nat.not_le.mpr hlt)
  rw [SharedFile.inodeUnlock, if_neg hgo]
  refine ⟨h.ref, ?_, h.reads.keep rfl (Nat.le_refl _) rfl⟩
  have hothers : ∀ u, u ≠ t → (none = some u ↔ s.ip.lock = some u) := fun u hu => by
    rw [ht]
    exact iff_of_false nofun fun he => hu (Option.some.inj he).symm
  refine h.points.move rfl (iff_of_false nofun nofun) hothers nofun nofun fun u hu hu' => ?_
  rw [ht] at hu'
  exact absurd (Option.some.inj hu').symm hu

/-- `inode_lock` reads the fields. -/
theorem Inv.load (h : Inv start s) {turn : Nat} {n : Option (BitVec 32)} (disk : Dinode)
    (null : Bool) (hpoint : s.point t = .load turn n) :
    Inv start ((s.load disk null).goto t (.locked turn n)) := by
  have ht : s.ip.lock = some t := (h.points.lock t).mpr (by rw [hpoint]; rfl)
  have hpending := h.points.holder t ht
  have hasked := h.points.asked t
  rw [hpoint] at hpending hasked
  obtain ⟨href, hlock, hpoints, hoff, hturns, hreads⟩ : (s.load disk null).ip.ref = s.ip.ref ∧
      (s.load disk null).ip.lock = s.ip.lock ∧ (s.load disk null).point = s.point ∧
      (s.load disk null).off = s.off ∧ (s.load disk null).turns = s.turns ∧
      (s.load disk null).reads = s.reads := by
    rw [SharedFile.load]
    split
    · exact ⟨rfl, rfl, rfl, rfl, rfl, rfl⟩
    · exact ⟨rfl, rfl, rfl, rfl, rfl, rfl⟩
  refine ⟨Nat.le_trans h.ref (Nat.le_of_eq href.symm), ?_,
    h.reads.keep hoff (Nat.le_of_eq hturns.symm) hreads⟩
  have hpoint' : ∀ p, ((s.load disk null).goto t p).point = Function.update s.point t p := by
    intro p
    rw [SharedFile.goto, hpoints]
  cases n with
  | none => exact h.points.inside ht (hpoint' _) hlock rfl nofun trivial
  | some n =>
    refine h.points.inside ht (hpoint' _) hlock rfl hasked ?_
    obtain ⟨hlt, hpast⟩ := hpending
    exact ⟨Nat.lt_of_lt_of_eq hlt hturns.symm, fun x hx => hpast x (hreads ▸ hx)⟩

omit [DecidableEq T] in
/-- The range of a call of `inode_read`. -/
theorem inodeRead_ok {turn : Nat} {n : BitVec 32} (hn : 0 ≤ n.toInt) (hpending : s.Pending turn) :
    (s.inodeRead turn n).holds = true ∧ (s.inodeRead turn n).asked = none ∧
      s.HolderOk (s.inodeRead turn n) := by
  rw [inodeRead]
  split
  case isTrue hok =>
    refine ⟨rfl, rfl, hpending, rfl, ⟨trivial, rfl, s.off.isLt, by decide⟩, rfl, Nat.zero_le _, ?_⟩
    obtain ⟨-, hwrap⟩ := (Wal.rangeOk_iff s.ip.copy s.off n).mp hok
    have hclip := Wal.clip_toNat hok
    have hint := BitVec.toInt_eq_toNat_cond n
    split at hint
    · omega
    · have hlt := n.isLt
      omega
  case isFalse => exact ⟨rfl, rfl, hpending, rfl, .inl ⟨rfl, rfl⟩⟩

omit [DecidableEq T] in
/-- The loop up to the next test of `tot < n`. -/
theorem pass_ok {null : Bool} {wild : BlockNo} {turn : Nat} {start n tot off : BitVec 32}
    {passes : List Pass} (h : s.HolderOk (.loop turn start n tot off passes)) :
    (ReadPoint.pass s.ip.copy null wild turn start n tot off passes).holds = true ∧
      (ReadPoint.pass s.ip.copy null wild turn start n tot off passes).asked = none ∧
      s.HolderOk (.pass s.ip.copy null wild turn start n tot off passes) := by
  obtain ⟨hpending, hstart, hdel, hoff, hle, hwrap, hint⟩ := h
  rw [ReadPoint.pass]
  split
  case isFalse => exact ⟨rfl, rfl, hpending, hstart, .inr hdel⟩
  case isTrue hlt =>
    dsimp only
    split
    case isTrue => exact ⟨rfl, rfl, hpending, hstart, .inr hdel⟩
    case isFalse =>
      obtain ⟨hdel', hoff', hle'⟩ := hdel.pass hoff hlt hwrap hint
      exact ⟨rfl, rfl, hpending, hstart, hdel', hoff', hle', hwrap, hint⟩

/-- A read gets its result, and `f->off` moves on. -/
theorem Inv.advance (h : Inv start s) {turn : Nat} {off r : BitVec 32} {passes : List Pass}
    (hpoint : s.point t = .advance turn off r passes) :
    Inv start ((s.advance turn off r passes).goto t .unlock) := by
  have ht : s.ip.lock = some t := (h.points.lock t).mpr (by rw [hpoint]; rfl)
  have hholder := h.points.holder t ht
  rw [hpoint] at hholder
  obtain ⟨⟨hturn, hpast⟩, rfl, hdel⟩ := hholder
  obtain ⟨hpositions, hoff⟩ := delivered_count turn hdel
  refine ⟨h.ref, h.points.inside ht rfl rfl rfl nofun trivial, ?_, ?_, ?_, ?_, ?_⟩
  · exact List.forall_mem_append.mpr ⟨h.reads.past, List.forall_mem_singleton.mpr hturn⟩
  · refine List.pairwise_append.mpr ⟨h.reads.order, List.pairwise_singleton _ _, ?_⟩
    intro x hx y hy
    rw [List.mem_singleton.mp hy]
    exact hpast x hx
  · exact List.forall_mem_append.mpr ⟨h.reads.delivered, List.forall_mem_singleton.mpr hpositions⟩
  · exact h.reads.consecutive.concat h.reads.offset
  · change (if 0 < r.toInt then s.off + r else s.off).toNat = _
    rw [hoff, h.reads.offset, Nat.add_assoc]
    exact congrArg _ total_concat.symm

/-- A process begins a call. -/
theorem Inv.enter (h : Inv start s) (hidle : s.point t = .idle) {n : Option (BitVec 32)}
    (hn : ∀ m, n = some m → 0 ≤ m.toInt) : Inv start (s.inodeLock t n) := by
  have hgo : ¬ s.ip.ref < 1 := Nat.not_lt.mpr h.ref
  rw [SharedFile.inodeLock, if_neg hgo]
  refine ⟨h.ref, h.points.outside ?_ rfl hn, h.reads.keep rfl (Nat.le_refl _) rfl⟩
  rw [hidle]
  rfl

/-- A process with the lock goes on, and only its point changes. -/
theorem Inv.inside (h : Inv start s) (hholds : (s.point t).holds = true) {p : ReadPoint}
    (hp : p.holds = true ∧ p.asked = none ∧ s.HolderOk p) : Inv start (s.goto t p) := by
  obtain ⟨hp, hasked, hok⟩ := hp
  have hnone : ∀ n, p.asked = some n → 0 ≤ n.toInt := fun n hn => by
    rw [hasked] at hn
    cases hn
  exact ⟨h.ref, h.points.inside ((h.points.lock t).mpr hholds) rfl rfl hp hnone hok,
    h.reads.keep rfl (Nat.le_refl _) rfl⟩

/-- **A process goes on.** -/
theorem Inv.next (h : Inv start s) {disk : Dinode} {null : Bool} {wild : BlockNo}
    (hs : s.step disk (.next t null wild) = some s') : Inv start s' := by
  have hholder : (s.point t).holds = true → s.HolderOk (s.point t) := fun hholds =>
    h.points.holder t ((h.points.lock t).mpr hholds)
  have hasked := h.points.asked t
  rw [step] at hs
  cases hpoint : s.point t with
  | idle =>
    rw [hpoint] at hs
    cases hs
  | lock n =>
    rw [hpoint] at hs
    obtain ⟨s₁, hacquire, rfl⟩ := Option.map_eq_some_iff.mp hs
    exact h.acquire hpoint hacquire
  | load turn n =>
    rw [hpoint] at hs
    obtain rfl := Option.some.inj hs
    exact h.load disk null hpoint
  | call turn n =>
    rw [hpoint] at hs hholder hasked
    obtain rfl := Option.some.inj hs
    exact h.inside (by rw [hpoint]; rfl) (inodeRead_ok (hasked n rfl) (hholder rfl))
  | loop turn off₀ n tot off passes =>
    rw [hpoint] at hs hholder
    obtain rfl := Option.some.inj hs
    exact h.inside (by rw [hpoint]; rfl) (pass_ok (hholder rfl))
  | advance turn off₀ r passes =>
    rw [hpoint] at hs
    obtain rfl := Option.some.inj hs
    exact h.advance hpoint
  | unlock =>
    rw [hpoint] at hs
    obtain rfl := Option.some.inj hs
    exact h.inodeUnlock ((h.points.lock t).mpr (by rw [hpoint]; rfl))

/-- **One step**, where `file_read` is called with `n >= 0`. -/
theorem Inv.step (h : Inv start s) {disk : Dinode} {op : SharedOp T}
    (hn : ∀ t n, op = .fileRead t n → 0 ≤ n.toInt) (hs : s.step disk op = some s') :
    Inv start s' := by
  cases op with
  | fileRead t n =>
    rw [SharedFile.step] at hs
    split at hs
    case h_1 hidle =>
      obtain rfl := Option.some.inj hs
      split
      · exact h.enter hidle fun m hm => Option.some.inj hm ▸ hn t n rfl
      · exact h
    case h_2 => cases hs
  | inodeLock t =>
    rw [SharedFile.step] at hs
    split at hs
    case h_1 hidle =>
      obtain rfl := Option.some.inj hs
      exact h.enter hidle nofun
    case h_2 => cases hs
  | count ref =>
    obtain ⟨href, ⟨⟩⟩ := Option.ite_none_right_eq_some.mp hs
    exact ⟨href, ⟨h.points.lock, h.points.asked, h.points.holder⟩,
      h.reads.keep rfl (Nat.le_refl _) rfl⟩
  | next t null wild => exact h.next hs

omit [DecidableEq T] in
/-- At first nobody is in a call. -/
theorem inv_init {ip : Inode T} (readable : Bool) (start : BitVec 32) (href : 1 ≤ ip.ref)
    (hlock : ip.lock = none) : Inv start (init ip readable start) where
  ref := href
  points :=
    { lock := fun t => iff_of_false (by rw [init, hlock]; exact nofun) Bool.false_ne_true
      asked := nofun
      holder := fun t ht => trivial }
  reads :=
    { past := nofun
      order := List.Pairwise.nil
      delivered := nofun
      consecutive := trivial
      offset := rfl }

/-- **Processes that share an open file share its position**: whatever the fields of the inode are,
whatever `block_read` answers, and in whatever order the processes move, the reads take consecutive
ranges in the order in which they obtain the lock, deliver just these, and `f->off` is where the
last one ends. -/
theorem shared_offset (disk : Dinode) (ip : Inode T) (readable : Bool) (start : BitVec 32)
    (ops : List (SharedOp T)) (href : 1 ≤ ip.ref) (hlock : ip.lock = none)
    (hn : ∀ t n, SharedOp.fileRead t n ∈ ops → 0 ≤ n.toInt) :
    Always (step disk) (Consistent start) (init ip readable start) ops := by
  have hsteps : EachStep (step disk) (fun _ op => ∀ t n, op = .fileRead t n → 0 ≤ n.toInt)
      (init ip readable start) ops :=
    eachStep_of_labels fun op hop _ t n he => hn t n (he ▸ hop)
  exact (always_of_eachStep (fun s op s' h hc hs => h.step hc hs) ops _
    (inv_init readable start href hlock) hsteps).mono fun s h => h.reads.consistent

/-- A file of 700 bytes in two blocks. -/
def sharedInode : Dinode := ⟨2, 0, 0, 1, 700, fun i => 100 + BitVec.ofNat 32 i.val⟩

/-- Two processes read: the second one waits while the first one sleeps on the disk, and gets what
is left. -/
def sharedOps : List (SharedOp Nat) :=
  [.fileRead 0 600, .next 0 false 0, .fileRead 1 600, .next 0 false 0, .next 0 false 0,
    .next 0 false 0, .next 0 false 0, .next 0 false 0, .next 0 false 0, .next 0 false 0,
    .next 1 false 0, .next 1 false 0, .next 1 false 0, .next 1 false 0, .next 1 false 0,
    .next 1 false 0, .next 1 false 0]

theorem mem_sharedOps {t : Nat} {n : BitVec 32} (h : SharedOp.fileRead t n ∈ sharedOps) :
    n = 600 := by
  simp only [sharedOps, List.mem_cons, SharedOp.fileRead.injEq, reduceCtorEq, List.not_mem_nil,
    or_false, false_or] at h
  rcases h with ⟨-, hn⟩ | ⟨-, hn⟩
  · exact hn
  · exact hn

theorem shared_offset_two :
    ((run (step sharedInode) (init ⟨1, 1, 1, none, false, ⟨0, 0, 0, 0, 0, fun _ => 0⟩⟩ true 0)
      sharedOps).map fun s => (s.off, s.reads.map fun x => (x.off, x.r))) =
        some (700, [(0, 600), (600, 100)]) ∧
    Always (step sharedInode) (Consistent 0)
      (init ⟨1, 1, 1, none, false, ⟨0, 0, 0, 0, 0, fun _ => 0⟩⟩ true 0) sharedOps :=
  ⟨by decide +kernel, shared_offset sharedInode _ true 0 sharedOps (by decide) rfl
    fun _ n hmem => mem_sharedOps hmem ▸ (by decide : 0 ≤ (600 : BitVec 32).toInt)⟩

end SharedFile

end Lithium
