/-
# Pipes

`pipe.c`: a circular buffer of 512 bytes with two 32-bit counters of all bytes ever read and
written.  A call runs under `pi->lock` until it returns or sleeps, and any number of readers and
writers take turns in these sections.

The full test of `pipe_write` and the empty test of `pipe_read` compare the counters with `==`,
which is right however often they have wrapped.  The loop of `pipe_read` that copies the bytes
compares them with `<`, which is not: section 5 says when a read gives back too little.
-/
import Lithium.Lib.Circular
import Lithium.Lib.Transition

namespace Lithium

open Circular

/-! ## 1. `pipe.c` -/

/-- `PIPESIZE`. -/
abbrev pipeSize : Nat := 512

local instance : NeZero pipeSize := ⟨by decide⟩

/-- A `char`. -/
abbrev Char8 := BitVec 8

/-- `struct pipe`, without its spinlock. -/
structure Pipe where
  data : Fin pipeSize → Char8
  nread : BitVec 32
  nwrite : BitVec 32
  readopen : Bool
  writeopen : Bool

/-- How a section of `pipe_write` ends: it returns `n` or -1, or sleeps on `nwrite`. -/
inductive WriteEnd where
  | done
  | broken
  | asleep
  deriving DecidableEq

namespace Pipe

/-- What `pipe_alloc` makes of a page; `data` is what was there. -/
def alloc (data : Fin pipeSize → Char8) : Pipe :=
  { data := data, nread := 0, nwrite := 0, readopen := true, writeopen := true }

/-- `pipe_close`. -/
def close (pi : Pipe) (writable : Bool) : Pipe :=
  if writable then { pi with writeopen := false } else { pi with readopen := false }

/-- `pi->nwrite == pi->nread + PIPESIZE`. -/
def full (pi : Pipe) : Bool := pi.nwrite == pi.nread + BitVec.ofNat 32 pipeSize

/-- `pi->data[pi->nwrite++ % PIPESIZE] = c`. -/
def store (pi : Pipe) (c : Char8) : Pipe :=
  { pi with
    data := Function.update pi.data (slot pipeSize pi.nwrite) c
    nwrite := pi.nwrite + 1 }

/-- `pi->data[pi->nread++ % PIPESIZE]`. -/
def fetch (pi : Pipe) : Pipe × Char8 :=
  ({ pi with nread := pi.nread + 1 }, pi.data (slot pipeSize pi.nread))

/-- The `for` loop of `pipe_write` over the bytes that are left, until it ends or sleeps, and how
many of them it has stored. -/
def writeLoop (pi : Pipe) : List Char8 → Pipe × Nat × WriteEnd
  | [] => (pi, 0, .done)
  | c :: cs =>
    if pi.full then (pi, 0, if pi.readopen then .asleep else .broken)
    else
      let (pi, i, o) := (pi.store c).writeLoop cs
      (pi, i + 1, o)

/-- The condition of the `while` loop of `pipe_read`. -/
def readWaits (pi : Pipe) : Bool := pi.nread == pi.nwrite && pi.writeopen

/-- The `for` loop of `pipe_read`, with the bytes it copies. -/
def readLoop (pi : Pipe) : Nat → Pipe × List Char8
  | 0 => (pi, [])
  | n + 1 =>
    if pi.nread < pi.nwrite then
      let (pi, c) := pi.fetch
      let (pi, cs) := pi.readLoop n
      (pi, c :: cs)
    else (pi, [])

end Pipe

/-! ## 2. Readers and writers -/

/-- A pipe, what the calls that sleep in it still have to write or want to read, and all bytes
stored in it and delivered by it, in this order. -/
structure PipeState (T : Type*) where
  pipe : Pipe
  writers : T → Option Nat
  readers : T → Option Nat
  stored : List Char8
  delivered : List Char8

/-- A section of a call of the process `t`, or a close. -/
inductive PipeOp (T : Type*) where
  /-- `pipe_write` is called with the bytes `cs`. -/
  | write (t : T) (cs : List Char8)
  /-- `pipe_write` wakes up; what is left at `addr` are now the bytes `cs`. -/
  | resumeWrite (t : T) (cs : List Char8)
  /-- `pipe_read` is called for `n` bytes. -/
  | read (t : T) (n : Nat)
  /-- `pipe_read` wakes up. -/
  | resumeRead (t : T)
  | close (writable : Bool)

namespace PipeState

variable {T : Type*} [DecidableEq T]

/-- A section of `pipe_write`. -/
def writeSection (s : PipeState T) (t : T) (cs : List Char8) : PipeState T :=
  let r := s.pipe.writeLoop cs
  { s with
    pipe := r.1
    stored := s.stored ++ cs.take r.2.1
    writers := Function.update s.writers t
      (if r.2.2 = .asleep then some (cs.length - r.2.1) else none) }

/-- A section of `pipe_read`. -/
def readSection (s : PipeState T) (t : T) (n : Nat) : PipeState T :=
  if s.pipe.readWaits then { s with readers := Function.update s.readers t (some n) }
  else
    let r := s.pipe.readLoop n
    { s with
      pipe := r.1
      delivered := s.delivered ++ r.2
      readers := Function.update s.readers t none }

/-- One section.  When both ends are closed the page of the pipe has been freed. -/
def step (s : PipeState T) (op : PipeOp T) : Option (PipeState T) :=
  if s.pipe.readopen = false ∧ s.pipe.writeopen = false then none
  else
    match op with
    | .write t cs =>
      if s.writers t = none ∧ s.readers t = none then some (s.writeSection t cs) else none
    | .resumeWrite t cs =>
      if s.writers t = some cs.length then some (s.writeSection t cs) else none
    | .read t n =>
      if s.writers t = none ∧ s.readers t = none then some (s.readSection t n) else none
    | .resumeRead t => (s.readers t).map fun n => s.readSection t n
    | .close writable => some { s with pipe := s.pipe.close writable }

/-- A new pipe. -/
def init (data : Fin pipeSize → Char8) : PipeState T :=
  { pipe := .alloc data, writers := fun _ => none, readers := fun _ => none, stored := [],
    delivered := [] }

/-! ## 3. The buffer holds what is stored and not delivered -/

/-- The buffer holds the bytes that have been stored and not yet been delivered. -/
def Ok (s : PipeState T) : Prop :=
  ∃ q, s.stored = s.delivered ++ q ∧ Holds s.pipe.data s.pipe.nread s.pipe.nwrite q

end PipeState

theorem pipeSize_dvd : pipeSize ∣ 2 ^ 32 := by decide

theorem pipeSize_lt : pipeSize < 2 ^ 32 := by decide

namespace Pipe

/-- The loop of `pipe_write` appends the bytes it stores. -/
theorem writeLoop_spec : ∀ (cs : List Char8) {pi : Pipe} {q : List Char8},
    Holds pi.data pi.nread pi.nwrite q →
    Holds (pi.writeLoop cs).1.data (pi.writeLoop cs).1.nread (pi.writeLoop cs).1.nwrite
      (q ++ cs.take (pi.writeLoop cs).2.1)
  | [], pi, q, h => by simpa [writeLoop] using h
  | c :: cs, pi, q, h => by
    rw [writeLoop]
    split
    case isTrue => simpa using h
    case isFalse hfull =>
      have hroom : q.length < pipeSize := by
        have hne : q.length ≠ pipeSize := by
          rw [Ne, ← h.full_iff pipeSize_lt]
          simpa [full] using hfull
        have := h.fits
        omega
      have hpush := @writeLoop_spec cs (pi.store c) _ (h.push pipeSize_dvd hroom c)
      rwa [List.append_assoc, List.singleton_append, ← List.take_succ_cons] at hpush

/-- The loop of `pipe_read`, as long as `nwrite` has not wrapped past `nread`: it copies the first
`n` bytes, or all. -/
theorem readLoop_of_le : ∀ (n : Nat) {pi : Pipe} {q : List Char8},
    Holds pi.data pi.nread pi.nwrite q → pi.nread ≤ pi.nwrite →
    (pi.readLoop n).2 = q.take n ∧
      Holds (pi.readLoop n).1.data (pi.readLoop n).1.nread (pi.readLoop n).1.nwrite (q.drop n)
  | 0, pi, q, h, _ => ⟨by simp [readLoop], by simpa [readLoop] using h⟩
  | n + 1, pi, q, h, hle => by
    rw [readLoop]
    split
    case isTrue hlt =>
      cases q with
      | nil => exact absurd rfl ((h.lt_iff pipeSize_lt hle).mp hlt)
      | cons c cs =>
        obtain ⟨hc, hpop⟩ := h.pop
        have hle' : pi.nread + 1 ≤ pi.nwrite := by
          rw [BitVec.lt_def] at hlt
          rw [BitVec.le_def, BitVec.toNat_add]
          have hone : (1 : BitVec 32).toNat = 1 := rfl
          have := pi.nwrite.isLt
          omega
        obtain ⟨hcs, hdrop⟩ := @readLoop_of_le n pi.fetch.1 _ hpop hle'
        refine ⟨?_, hdrop⟩
        rw [List.take_succ_cons, ← hcs]
        exact congrArg (· :: _) hc
    case isFalse hlt =>
      have hnil : q = [] := by
        by_contra hne
        exact hlt ((h.lt_iff pipeSize_lt hle).mpr hne)
      subst hnil
      exact ⟨rfl, h⟩

/-- When `nwrite` has wrapped past `nread`, it copies nothing. -/
theorem readLoop_of_lt {pi : Pipe} (h : pi.nwrite < pi.nread) (n : Nat) :
    pi.readLoop n = (pi, []) := by
  cases n with
  | zero => rfl
  | succ n => rw [readLoop, if_neg (BitVec.lt_asymm h)]

/-- The loop of `pipe_read` takes bytes from the front. -/
theorem readLoop_spec (n : Nat) {pi : Pipe} {q : List Char8}
    (h : Holds pi.data pi.nread pi.nwrite q) : ∃ i, (pi.readLoop n).2 = q.take i ∧
      Holds (pi.readLoop n).1.data (pi.readLoop n).1.nread (pi.readLoop n).1.nwrite (q.drop i) := by
  by_cases hle : pi.nread ≤ pi.nwrite
  · exact ⟨n, readLoop_of_le n h hle⟩
  · have hlt := BitVec.not_le.mp hle
    refine ⟨0, ?_, ?_⟩
    · rw [readLoop_of_lt hlt, List.take_zero]
    · rwa [readLoop_of_lt hlt, List.drop_zero]

end Pipe

namespace PipeState

variable {T : Type*}

theorem Ok.init (data : Fin pipeSize → Char8) : Ok (init data : PipeState T) :=
  ⟨[], rfl, .nil data 0⟩

/-- What has been delivered is the beginning of what has been stored, and no more than `PIPESIZE`
bytes are in between. -/
structure InOrder (s : PipeState T) : Prop where
  ordered : s.delivered <+: s.stored
  bounded : (s.pipe.nwrite - s.pipe.nread).toNat ≤ pipeSize

theorem Ok.inOrder {s : PipeState T} (h : Ok s) : InOrder s := by
  obtain ⟨q, hq, hholds⟩ := h
  refine ⟨⟨q, hq.symm⟩, ?_⟩
  rw [hholds.sub_toNat pipeSize_lt]
  exact hholds.fits

variable [DecidableEq T]

theorem Ok.writeSection {s : PipeState T} (h : Ok s) (t : T) (cs : List Char8) :
    Ok (s.writeSection t cs) := by
  obtain ⟨q, hq, hholds⟩ := h
  refine ⟨_, ?_, Pipe.writeLoop_spec cs hholds⟩
  simp only [PipeState.writeSection, hq, List.append_assoc]

theorem Ok.readSection {s : PipeState T} (h : Ok s) (t : T) (n : Nat) : Ok (s.readSection t n) := by
  obtain ⟨q, hq, hholds⟩ := h
  unfold PipeState.readSection
  split
  · exact ⟨q, hq, hholds⟩
  · obtain ⟨i, hcs, hrest⟩ := Pipe.readLoop_spec n hholds
    refine ⟨_, ?_, hrest⟩
    simp only [hq, hcs, List.append_assoc, List.take_append_drop]

/-- **One section** keeps the buffer right. -/
theorem Ok.step {s s' : PipeState T} {op : PipeOp T} (h : Ok s) (hs : s.step op = some s') :
    Ok s' := by
  simp only [PipeState.step] at hs
  split at hs
  case isTrue => exact absurd hs (by simp)
  case isFalse =>
    cases op with
    | write t cs =>
      simp only [Option.ite_none_right_eq_some, Option.some.injEq] at hs
      exact hs.2 ▸ h.writeSection t cs
    | resumeWrite t cs =>
      simp only [Option.ite_none_right_eq_some, Option.some.injEq] at hs
      exact hs.2 ▸ h.writeSection t cs
    | read t n =>
      simp only [Option.ite_none_right_eq_some, Option.some.injEq] at hs
      exact hs.2 ▸ h.readSection t n
    | resumeRead t =>
      obtain ⟨n, -, rfl⟩ := Option.map_eq_some_iff.mp hs
      exact h.readSection t n
    | close writable =>
      rw [Option.some.injEq] at hs
      obtain ⟨q, hq, hholds⟩ := h
      refine hs ▸ ⟨q, hq, ?_⟩
      unfold Pipe.close
      split <;> exact hholds

/-! ## 4. First in, first out -/

/-- **A pipe delivers the bytes stored in it, in this order and each of them once.** -/
theorem always_inOrder (data : Fin pipeSize → Char8) (ops : List (PipeOp T)) :
    Transition.Always step InOrder (init data) ops :=
  Transition.Always.mono (fun _ => Ok.inOrder)
    (Transition.always_of_inv (fun _ _ _ (hok : Ok _) hs => hok.step hs) ops _ (Ok.init data))

/-! ## 5. End of file -/

/-- The number of bytes stored and not yet delivered. -/
def unread (s : PipeState T) : Nat := s.stored.length - s.delivered.length

/-- Whatever number of bytes a `pipe_read` asks for now: if it does not sleep, it returns as many
of the unread bytes as it can, or 0 when there are none and the write end is closed. -/
def ReadsRight (s : PipeState T) : Prop :=
  ∀ n, 0 < n → s.pipe.readWaits = false →
    let i := (s.pipe.readLoop n).2.length
    (i = 0 ∧ s.unread = 0 ∧ s.pipe.writeopen = false) ∨ (i = min n s.unread ∧ 0 < i)

omit [DecidableEq T] in
/-- The counters that `pipe_read` compares decide. -/
theorem Ok.readsRight_iff {s : PipeState T} (h : Ok s) :
    ReadsRight s ↔ s.pipe.nread ≤ s.pipe.nwrite := by
  obtain ⟨q, hq, hholds⟩ := h
  have hunread : s.unread = q.length := by simp [unread, hq]
  constructor
  · intro hright
    by_contra hle
    have hlt := BitVec.not_le.mp hle
    have hne : s.pipe.nread ≠ s.pipe.nwrite := fun heq =>
      absurd (heq ▸ hlt) (BitVec.lt_irrefl _)
    have hempty : q ≠ [] := fun hnil => hne ((hholds.eq_iff pipeSize_lt).mpr hnil)
    have hlen := List.length_pos_of_ne_nil hempty
    rcases hright 1 Nat.one_pos (by simp [Pipe.readWaits, hne]) with ⟨-, hzero, -⟩ | ⟨-, hpos⟩
    · omega
    · rw [Pipe.readLoop_of_lt hlt] at hpos
      exact absurd hpos (by simp)
  · intro hle n hn hwaits
    have hread := (Pipe.readLoop_of_le n hholds hle).1
    dsimp only
    rw [hread, List.length_take, hunread]
    cases q with
    | nil =>
      have heq := (hholds.eq_iff pipeSize_lt).mpr rfl
      refine Or.inl ⟨by simp, rfl, ?_⟩
      simpa [Pipe.readWaits, heq] using hwaits
    | cons c cs => exact Or.inr ⟨rfl, by simp only [List.length_cons]; omega⟩

/-- **A read reports the end of the file only there, exactly when `nwrite` has not wrapped past
`nread`.** -/
theorem always_readsRight_iff (data : Fin pipeSize → Char8) (ops : List (PipeOp T)) :
    Transition.Always step (fun s => ReadsRight s ↔ s.pipe.nread ≤ s.pipe.nwrite) (init data) ops :=
  Transition.Always.mono (fun _ => Ok.readsRight_iff)
    (Transition.always_of_inv (fun _ _ _ (hok : Ok _) hs => hok.step hs) ops _ (Ok.init data))

/-- An idle pipe whose counters are both at `n`. -/
structure IdleAt (s : PipeState Unit) (n : Nat) : Prop where
  nread : s.pipe.nread = BitVec.ofNat 32 n
  nwrite : s.pipe.nwrite = BitVec.ofNat 32 n
  readopen : s.pipe.readopen = true
  writeopen : s.pipe.writeopen = true
  writers : s.writers () = none
  readers : s.readers () = none

/-- An empty pipe is not full, and takes a byte. -/
theorem writeSection_one {s : PipeState Unit} (h : s.pipe.nread = s.pipe.nwrite) (c : Char8) :
    s.writeSection () [c] =
      { s with
        pipe := s.pipe.store c
        stored := s.stored ++ [c]
        writers := Function.update s.writers () none } := by
  have hfull : s.pipe.full = false := by
    rw [Pipe.full, h, beq_eq_false_iff_ne]
    intro heq
    have hsub := congrArg (fun x => (x - s.pipe.nwrite).toNat) heq
    simp [BitVec.add_comm s.pipe.nwrite] at hsub
  have hloop : s.pipe.writeLoop [c] = (s.pipe.store c, 1, .done) := by
    rw [Pipe.writeLoop, hfull]
    rfl
  unfold writeSection
  rw [hloop]
  rfl

/-- A read of the one byte there is. -/
theorem readSection_one {s : PipeState Unit} (h : s.pipe.nread < s.pipe.nwrite) :
    s.readSection () 1 =
      { s with
        pipe := s.pipe.fetch.1
        delivered := s.delivered ++ [s.pipe.fetch.2]
        readers := Function.update s.readers () none } := by
  have hne : s.pipe.nread ≠ s.pipe.nwrite := fun heq => absurd (heq ▸ h) (BitVec.lt_irrefl _)
  have hwaits : s.pipe.readWaits = false := by simp [Pipe.readWaits, hne]
  have hloop : s.pipe.readLoop 1 = (s.pipe.fetch.1, [s.pipe.fetch.2]) := by
    rw [Pipe.readLoop, if_pos h]
    rfl
  unfold readSection
  rw [hwaits, hloop]
  rfl

theorem IdleAt.step_write {s : PipeState Unit} {n : Nat} (h : IdleAt s n) (cs : List Char8) :
    s.step (.write () cs) = some (s.writeSection () cs) := by
  simp [step, h.readopen, h.writers, h.readers]

/-- One byte through an idle pipe, while the counters do not wrap. -/
theorem IdleAt.shuttle {s : PipeState Unit} {n : Nat} (h : IdleAt s n) (hn : n + 1 < 2 ^ 32) :
    ∃ s', Transition.run step s [.write () [0], .read () 1] = some s' ∧ IdleAt s' (n + 1) := by
  have hlt : s.pipe.nread < s.pipe.nwrite + 1 := by
    rw [h.nread, h.nwrite, BitVec.lt_def, BitVec.toNat_add, BitVec.toNat_ofNat]
    have hone : (1 : BitVec 32).toNat = 1 := rfl
    omega
  have hnext : BitVec.ofNat 32 n + 1 = BitVec.ofNat 32 (n + 1) := (BitVec.ofNat_add n 1).symm
  have hread : (s.writeSection () [0]).step (.read () 1) =
      some ((s.writeSection () [0]).readSection () 1) := by
    rw [writeSection_one (h.nread.trans h.nwrite.symm)]
    simp [step, Pipe.store, h.readopen, h.readers]
  refine ⟨(s.writeSection () [0]).readSection () 1, ?_, ?_⟩
  · rw [Transition.run_cons, h.step_write, Option.bind_some, Transition.run_cons, hread]
    rfl
  · rw [writeSection_one (h.nread.trans h.nwrite.symm), readSection_one hlt]
    exact ⟨by rw [← hnext, ← h.nread]; rfl, by rw [← hnext, ← h.nwrite]; rfl, h.readopen,
      h.writeopen, rfl, rfl⟩

/-- One byte after the other through the pipe, `n` times. -/
def shuttle : Nat → List (PipeOp Unit)
  | 0 => []
  | n + 1 => shuttle n ++ [.write () [0], .read () 1]

/-- It leaves an idle pipe, and the counters at `n`. -/
theorem run_shuttle (data : Fin pipeSize → Char8) : ∀ n, n < 2 ^ 32 → ∃ s : PipeState Unit,
    Transition.run step (init data) (shuttle n) = some s ∧ IdleAt s n
  | 0, _ => ⟨init data, rfl, ⟨rfl, rfl, rfl, rfl, rfl, rfl⟩⟩
  | n + 1, hn => by
    obtain ⟨s, hs, hidle⟩ := run_shuttle data n (Nat.lt_of_succ_lt hn)
    obtain ⟨s', hs', hidle'⟩ := hidle.shuttle hn
    refine ⟨s', ?_, hidle'⟩
    rw [shuttle, Transition.run_append, hs]
    exact hs'

/-- After 2 ^ 32 - 1 bytes one more is written: `nwrite` is 0 again, and a read that finds this byte
returns 0. -/
theorem wrapped_read_empty :
    ¬ ∀ (data : Fin pipeSize → Char8) (ops : List (PipeOp Unit)),
      Transition.Always step ReadsRight (init data) ops := by
  intro hall
  obtain ⟨s, hs, hidle⟩ := run_shuttle (fun _ => 0) (2 ^ 32 - 1) (by decide)
  have hok : Ok s := Transition.reachable_inv (fun _ _ _ h hs => Ok.step h hs) (Ok.init _) ⟨_, hs⟩
  have hreach : Transition.Reachable step (init fun _ => 0) (s.writeSection () [0]) :=
    Transition.Reachable.tail ⟨_, hs⟩ (hidle.step_write [0])
  have hright := Transition.always_iff_reachable.mp (hall fun _ => 0) _ hreach
  have hle := (hok.writeSection () [0]).readsRight_iff.mp hright
  rw [writeSection_one (hidle.nread.trans hidle.nwrite.symm)] at hle
  have hwrapped : BitVec.ofNat 32 (2 ^ 32 - 1) ≤ BitVec.ofNat 32 (2 ^ 32 - 1) + 1 := by
    simpa only [Pipe.store, hidle.nread, hidle.nwrite] using hle
  exact absurd hwrapped (by decide)

end PipeState

end Lithium
