/-
# Writing to a pipe that nobody can read

`pipe_close` of the read end clears `readopen`, and the writers that sleep on a full buffer wake
up to find it.  `pipe_write` looks at `readopen` only in the loop that waits for room: a write that
finds room never looks, stores bytes that nobody can read any more, and returns `n`.

Section 1 counts the room in the buffer, section 2 remembers which writers slept on a full buffer
when the read end was closed, and section 3 says when the writes after the close fail.
-/
import Lithium.Fs.Pipe

namespace Lithium

open Circular

/-! ## 1. Room -/

namespace Pipe

/-- The number of bytes that the buffer can still take. -/
def room (pi : Pipe) : Nat := pipeSize - (pi.nwrite - pi.nread).toNat

variable {pi : Pipe} {q : List Char8}

theorem room_eq (h : Holds pi.data pi.nread pi.nwrite q) : pi.room = pipeSize - q.length := by
  rw [room, h.sub_toNat pipeSize_lt]

/-- A full buffer has no room. -/
theorem full_iff_room (h : Holds pi.data pi.nread pi.nwrite q) :
    pi.full = true ↔ pi.room = 0 := by
  have hfits := h.fits
  rw [full, beq_iff_eq, h.full_iff pipeSize_lt, room_eq h]
  omega

/-- Storing a byte takes one byte of the room. -/
theorem room_store (h : Holds pi.data pi.nread pi.nwrite q) (hroom : q.length < pipeSize)
    (c : Char8) : (pi.store c).room + 1 = pi.room := by
  have hpush : Holds (pi.store c).data (pi.store c).nread (pi.store c).nwrite (q ++ [c]) :=
    h.push pipeSize_dvd hroom c
  rw [room_eq hpush, room_eq h, List.length_append, List.length_singleton]
  omega

/-- **When `pipe_write` returns -1**: the read end is closed and the bytes do not fit. -/
theorem writeLoop_broken_iff : ∀ (cs : List Char8) {pi : Pipe} {q : List Char8},
    Holds pi.data pi.nread pi.nwrite q →
    ((pi.writeLoop cs).2.2 = .broken ↔ pi.readopen = false ∧ pi.room < cs.length)
  | [], pi, q, _ => by simp [writeLoop]
  | c :: cs, pi, q, h => by
    rw [writeLoop]
    split
    case isTrue hfull =>
      have hnone : pi.room = 0 := (full_iff_room h).mp hfull
      cases hopen : pi.readopen with
      | true => simp
      | false => simp [hnone]
    case isFalse hfull =>
      have hsome : pi.room ≠ 0 := fun hnone => hfull ((full_iff_room h).mpr hnone)
      have hroom : q.length < pipeSize := by
        have heq := room_eq h
        omega
      have hpush : Holds (pi.store c).data (pi.store c).nread (pi.store c).nwrite (q ++ [c]) :=
        h.push pipeSize_dvd hroom c
      have hrest := writeLoop_broken_iff cs hpush
      have htake := room_store h hroom c
      rw [List.length_cons]
      refine hrest.trans (and_congr Iff.rfl ?_)
      omega

/-- It stores nothing and returns -1 exactly when the buffer is full. -/
theorem writeLoop_refused_iff (hopen : pi.readopen = false) {cs : List Char8} (hcs : cs ≠ []) :
    ((pi.writeLoop cs).2.2 = .broken ∧ (pi.writeLoop cs).2.1 = 0) ↔ pi.full = true := by
  obtain ⟨c, cs, rfl⟩ := List.exists_cons_of_ne_nil hcs
  rw [writeLoop]
  split
  case isTrue hfull => simp [hopen, hfull]
  case isFalse hfull => simp [hfull]

/-- Nothing reopens the read end. -/
theorem writeLoop_readopen : ∀ (cs : List Char8) (pi : Pipe),
    (pi.writeLoop cs).1.readopen = pi.readopen
  | [], _ => rfl
  | c :: cs, pi => by
    rw [writeLoop]
    split
    case isTrue => rfl
    case isFalse => exact writeLoop_readopen cs (pi.store c)

theorem readLoop_readopen : ∀ (n : Nat) (pi : Pipe), (pi.readLoop n).1.readopen = pi.readopen
  | 0, _ => rfl
  | n + 1, pi => by
    rw [readLoop]
    split
    case isTrue => exact readLoop_readopen n pi.fetch.1
    case isFalse => rfl

end Pipe

/-! ## 2. The close of the read end -/

/-- A pipe, and the writers that were asleep on a full buffer when its read end was closed and
have not run since. -/
structure PipeWatch (T : Type*) where
  state : PipeState T
  caught : T → Bool

namespace PipeWatch

variable {T : Type*} [DecidableEq T]

/-- The close of the read end catches the writers that sleep, if the buffer is full. -/
def caughtAfter (w : PipeWatch T) : PipeOp T → T → Bool
  | .close false =>
    if w.state.pipe.readopen then fun t => (w.state.writers t).isSome && w.state.pipe.full
    else w.caught
  | .resumeWrite t _ => Function.update w.caught t false
  | _ => w.caught

/-- One section of a call. -/
def step (w : PipeWatch T) (op : PipeOp T) : Option (PipeWatch T) :=
  (w.state.step op).map fun s => { state := s, caught := w.caughtAfter op }

/-- A new pipe. -/
def init (data : Fin pipeSize → Char8) : PipeWatch T := ⟨.init data, fun _ => false⟩

/-- What is promised when nobody can read any more: a `pipe_write` that starts now returns -1 and
stores nothing, and one that slept on the full buffer returns -1. -/
def WriteFails (w : PipeWatch T) : PipeOp T → Prop
  | .write _ cs => w.state.pipe.readopen = false → cs ≠ [] →
      (w.state.pipe.writeLoop cs).2.2 = .broken ∧ (w.state.pipe.writeLoop cs).2.1 = 0
  | .resumeWrite t cs => w.caught t = true → (w.state.pipe.writeLoop cs).2.2 = .broken
  | _ => True

/-- A write that starts after the close finds the buffer full, and one that slept then finds less
room than it has bytes left. -/
def NoRoom (w : PipeWatch T) : PipeOp T → Prop
  | .write _ cs => w.state.pipe.readopen = false → cs ≠ [] → w.state.pipe.full = true
  | .resumeWrite t cs => w.caught t = true → w.state.pipe.room < cs.length
  | _ => True

/-- What the sections keep: the buffer is right, and a writer is caught only by a close. -/
structure Ok (w : PipeWatch T) : Prop where
  buffer : w.state.Ok
  closed : ∀ t, w.caught t = true → w.state.pipe.readopen = false

omit [DecidableEq T] in
theorem Ok.init (data : Fin pipeSize → Char8) : Ok (init data : PipeWatch T) :=
  ⟨PipeState.Ok.init data, fun _ h => absurd h (by simp [PipeWatch.init])⟩

end PipeWatch

/-! ## 3. Writes that fail -/

namespace PipeState

variable {T : Type*} [DecidableEq T] {s s' : PipeState T} {op : PipeOp T}

theorem writeSection_readopen (t : T) (cs : List Char8) :
    (s.writeSection t cs).pipe.readopen = s.pipe.readopen := Pipe.writeLoop_readopen cs s.pipe

theorem readSection_readopen (t : T) (n : Nat) :
    (s.readSection t n).pipe.readopen = s.pipe.readopen := by
  unfold readSection
  split
  · rfl
  · exact Pipe.readLoop_readopen n s.pipe

/-- The read end stays closed. -/
theorem step_closed (hs : s.step op = some s') (hclosed : s.pipe.readopen = false) :
    s'.pipe.readopen = false := by
  simp only [step] at hs
  split at hs
  case isTrue => exact absurd hs (by simp)
  case isFalse =>
    cases op with
    | write t cs =>
      simp only [Option.ite_none_right_eq_some, Option.some.injEq] at hs
      rw [← hs.2, writeSection_readopen, hclosed]
    | resumeWrite t cs =>
      simp only [Option.ite_none_right_eq_some, Option.some.injEq] at hs
      rw [← hs.2, writeSection_readopen, hclosed]
    | read t n =>
      simp only [Option.ite_none_right_eq_some, Option.some.injEq] at hs
      rw [← hs.2, readSection_readopen, hclosed]
    | resumeRead t =>
      obtain ⟨n, -, rfl⟩ := Option.map_eq_some_iff.mp hs
      rw [readSection_readopen, hclosed]
    | close writable =>
      rw [Option.some.injEq] at hs
      rw [← hs, Pipe.close]
      split
      · exact hclosed
      · rfl

theorem step_close_read (hs : s.step (.close false) = some s') : s'.pipe.readopen = false := by
  simp only [step, Option.ite_none_left_eq_some, Option.some.injEq] at hs
  rw [← hs.2]
  rfl

end PipeState

namespace PipeWatch

variable {T : Type*} [DecidableEq T] {w w' : PipeWatch T} {op : PipeOp T}

/-- **One section** keeps the buffer right and catches only writers of a closed pipe. -/
theorem Ok.step (h : Ok w) (hs : w.step op = some w') : Ok w' := by
  obtain ⟨s, hstep, rfl⟩ := Option.map_eq_some_iff.mp hs
  refine ⟨h.buffer.step hstep, fun t ht => ?_⟩
  -- a writer that was caught before was caught by an earlier close
  have hbefore : w.caught t = true → s.pipe.readopen = false := fun hold =>
    PipeState.step_closed hstep (h.closed t hold)
  cases op with
  | write t' cs => exact hbefore ht
  | resumeWrite t' cs =>
    refine hbefore ?_
    rcases eq_or_ne t t' with rfl | hne
    · exact absurd ht (by simp [caughtAfter])
    · exact (Function.update_of_ne hne false w.caught) ▸ ht
  | read t' n => exact hbefore ht
  | resumeRead t' => exact hbefore ht
  | close writable =>
    cases writable with
    | true => exact hbefore ht
    | false => exact PipeState.step_close_read hstep

omit [DecidableEq T] in
/-- One section does what is promised of the writes exactly when it meets the condition. -/
theorem Ok.writeFails_iff (h : Ok w) : WriteFails w op ↔ NoRoom w op := by
  obtain ⟨q, -, hholds⟩ := h.buffer
  cases op with
  | write t cs =>
    exact forall₂_congr fun hclosed hcs => Pipe.writeLoop_refused_iff hclosed hcs
  | resumeWrite t cs =>
    refine forall_congr' fun hcaught => ?_
    rw [Pipe.writeLoop_broken_iff cs hholds, and_iff_right (h.closed t hcaught)]
  | read t n => exact Iff.rfl
  | resumeRead t => exact Iff.rfl
  | close writable => exact Iff.rfl

/-- **Every write to a pipe without readers fails, in a run in which each of them lacks room, and
only there.** -/
theorem eachStep_writeFails_iff (data : Fin pipeSize → Char8) (ops : List (PipeOp T)) :
    Transition.EachStep step WriteFails (init data) ops ↔
      Transition.EachStep step NoRoom (init data) ops :=
  Transition.eachStep_congr (fun _ _ _ (hok : Ok _) hs => hok.step hs)
    (fun _ _ _ hok _ => hok.writeFails_iff) ops _ (Ok.init data)

/-- The read end of an empty pipe is closed; then a byte is written to it, and `pipe_write` says
so. -/
theorem broken_pipe_accepts :
    ¬ ∀ (data : Fin pipeSize → Char8) (ops : List (PipeOp Unit)),
      Transition.EachStep step WriteFails (init data) ops := by
  intro hall
  have hrun := hall (fun _ => 0) [.close false, .write () [7]]
  have hwrite := ((hrun _ rfl).2 _ rfl).1 rfl (by simp)
  exact absurd hwrite.1 (by decide)

end PipeWatch

end Lithium
