/-
# Any number of processes on one sleeplock

What `spinlk` protects runs as one step.  The loop of `sleeplock_acquire` is two such steps with
a sleep between them: `sleep` gives `spinlk` back, marks the process, and takes `spinlk` again
when the process runs next, which `wakeup` allows at any time and for any reason.

Section 1 says what a lock is for, section 2 is the code, section 3 relates the two.
-/
import Lithium.Fs.Sleeplock
import Lithium.Lib.Transition
import Mathlib.Logic.Function.Basic

namespace Lithium

open Transition

/-! ## 1. A lock that at most one process owns -/

/-- The owner of a lock changes in two ways: it is taken free, and given back by its owner. -/
inductive Mutex.Moves {T : Type*} : Option T → Option T → Prop where
  | take (t : T) : Mutex.Moves none (some t)
  | drop (t : T) : Mutex.Moves (some t) none

/-! ## 2. The loop of `sleeplock_acquire` -/

/-- Where a process is in `sleeplock_acquire`. -/
inductive Waiting where
  /-- Not in `sleeplock_acquire`. -/
  | no
  /-- In `sleep`, between `spinlock_release` and `p->state = PROC_SLEEPING`. -/
  | window
  /-- `PROC_SLEEPING`. -/
  | asleep
  /-- `PROC_RUNNABLE` again, and to take `spinlk` when it runs. -/
  | woken
  deriving DecidableEq

/-- The lock, where each process is in `sleeplock_acquire`, and which ones are between a returned
`sleeplock_acquire` and their `sleeplock_release`. -/
structure SleeplockState (T : Type*) where
  lock : Sleeplock
  waiting : T → Waiting
  inside : T → Bool

/-- What happens next. -/
inductive SleeplockOp (T : Type*) where
  /-- `t` calls `sleeplock_acquire`. -/
  | acquire (t : T)
  /-- `p->state = PROC_SLEEPING` and `scheduler`. -/
  | sleep (t : T)
  /-- Some `wakeup` finds `t` asleep. -/
  | wake (t : T)
  /-- `scheduler` returns to `t`, which looks at `locked` again. -/
  | resume (t : T)
  /-- `t` calls `sleeplock_release`. -/
  | release (t : T)

namespace SleeplockState

variable {T : Type*}

/-- `sleeplock_init`. -/
def init : SleeplockState T where
  lock := sleeplockInit
  waiting := fun _ => .no
  inside := fun _ => false

/-- `wakeup`, for the processes that sleep on this lock. -/
def wakeAll (s : SleeplockState T) : SleeplockState T :=
  { s with waiting := fun t => if s.waiting t = .asleep then .woken else s.waiting t }

/-- The section in which `t` looks at `locked`: it takes the lock, or goes to `sleep`. -/
def look [DecidableEq T] (pid : T → Pid) (s : SleeplockState T) (t : T) : SleeplockState T :=
  match sleeplockAcquire s.lock (some (pid t)) with
  | some lk =>
    { lock := lk
      waiting := Function.update s.waiting t .no
      inside := Function.update s.inside t true }
  | none => { s with waiting := Function.update s.waiting t .window }

/-- One section under `spinlk`, or one step of `sleep`.  Only the holder releases; it may also
call `sleeplock_acquire` again. -/
def step [DecidableEq T] (pid : T → Pid) (s : SleeplockState T) :
    SleeplockOp T → Option (SleeplockState T)
  | .acquire t => if s.waiting t = .no then some (s.look pid t) else none
  | .sleep t =>
    if s.waiting t = .window then
      some { s with waiting := Function.update s.waiting t .asleep }
    else none
  | .wake t =>
    if s.waiting t = .asleep then
      some { s with waiting := Function.update s.waiting t .woken }
    else none
  | .resume t => if s.waiting t = .woken then some (s.look pid t) else none
  | .release t =>
    if s.waiting t = .no ∧ s.inside t = true then
      some { s with
        lock := sleeplockRelease s.lock
        inside := Function.update s.inside t false }.wakeAll
    else none

/-! ## 3. The lock has one owner -/

variable {pid : T → Pid} {s s' : SleeplockState T} {o : Option T}

/-- `o` owns the lock: it is the one inside, and the fields of the lock say so. -/
structure OwnedBy (pid : T → Pid) (s : SleeplockState T) (o : Option T) : Prop where
  inside : ∀ t, s.inside t = true ↔ o = some t
  locked : s.lock.locked = o.isSome
  pid : ∀ t, o = some t → s.lock.pid = pid t

theorem ownedBy_init : (init : SleeplockState T).OwnedBy pid none where
  inside := fun t => by simp [init]
  locked := rfl
  pid := fun t h => by cases h

/-- Who owns the lock does not depend on who waits for it. -/
theorem OwnedBy.of_eq (h : s.OwnedBy pid o) (hlock : s'.lock = s.lock)
    (hinside : s'.inside = s.inside) : s'.OwnedBy pid o where
  inside := fun t => by rw [hinside]; exact h.inside t
  locked := by rw [hlock]; exact h.locked
  pid := fun t ht => by rw [hlock]; exact h.pid t ht

/-- Mutual exclusion, in the terms of the code. -/
structure Excludes (pid : T → Pid) (s : SleeplockState T) : Prop where
  /-- At most one process is between a returned acquire and its release. -/
  one : ∀ t u, s.inside t = true → s.inside u = true → t = u
  /-- `locked` with the pid of a process: this process is inside. -/
  holder : ∀ t, s.lock = ⟨true, pid t⟩ ↔ s.inside t = true
  /-- Nobody else sets `locked`. -/
  locked : s.lock.locked = true ↔ ∃ t, s.inside t = true
  /-- `sleeplock_held` says yes to the process that is inside, and to no other. -/
  held : ∀ t, sleeplockHeld s.lock (some (pid t)) = true ↔ s.inside t = true

/-- With distinct pids an owned lock excludes everybody but its owner. -/
theorem OwnedBy.excludes (hpid : Function.Injective pid) (h : s.OwnedBy pid o) :
    s.Excludes pid := by
  have hpidof : ∀ t, s.lock.locked = true ∧ s.lock.pid = pid t ↔ s.inside t = true := by
    intro t
    rw [h.inside t, h.locked, Option.isSome_iff_exists]
    constructor
    · rintro ⟨⟨u, hu⟩, hp⟩
      rw [hu, hpid ((h.pid u hu).symm.trans hp)]
    · exact fun ho => ⟨⟨t, ho⟩, h.pid t ho⟩
  constructor
  · intro t u ht hu
    exact Option.some.inj (((h.inside t).mp ht).symm.trans ((h.inside u).mp hu))
  · intro t
    rw [← hpidof t]
    cases s.lock
    simp
  · rw [h.locked, Option.isSome_iff_exists]
    exact exists_congr fun t => (h.inside t).symm
  · intro t
    rw [← hpidof t]
    rw [sleeplockHeld, Bool.and_eq_true, beq_iff_eq, Option.some.injEq, eq_comm (a := pid t)]

variable [DecidableEq T]

/-- A free lock is taken in the section that sees it free. -/
theorem look_of_free (h : s.OwnedBy pid none) (t : T) : (s.look pid t).OwnedBy pid (some t) := by
  have hfree : s.lock.locked = false := h.locked
  have hacq : sleeplockAcquire s.lock (some (pid t)) = some ⟨true, pid t⟩ := by
    simp [sleeplockAcquire, hfree]
  unfold look
  rw [hacq]
  constructor
  · intro u
    by_cases hu : u = t
    · subst hu
      simp
    · have hout : ¬ s.inside u = true := fun hin => by cases (h.inside u).mp hin
      simp [hu, hout, Ne.symm hu]
  · rfl
  · intro u hu
    rw [Option.some.inj hu]

/-- A taken lock stays with its owner, also when the owner is the one who looks. -/
theorem look_of_taken {u : T} (h : s.OwnedBy pid (some u)) (t : T) :
    (s.look pid t).OwnedBy pid (some u) := by
  have htaken : s.lock.locked = true := h.locked
  have hacq : sleeplockAcquire s.lock (some (pid t)) = none := by
    simp [sleeplockAcquire, htaken]
  unfold look
  rw [hacq]
  exact h.of_eq rfl rfl

/-- Both cases of the section. -/
theorem look_refines (h : s.OwnedBy pid o) (t : T) :
    ∃ o', (s.look pid t).OwnedBy pid o' ∧ (o' = o ∨ Mutex.Moves o o') := by
  cases o with
  | none => exact ⟨some t, look_of_free h t, .inr (.take t)⟩
  | some u => exact ⟨some u, look_of_taken h t, .inl rfl⟩

/-- **Every step of the code moves the owner as a lock may, or leaves it alone.** -/
theorem step_refines {op : SleeplockOp T} (h : s.OwnedBy pid o) (hs : s.step pid op = some s') :
    ∃ o', s'.OwnedBy pid o' ∧ (o' = o ∨ Mutex.Moves o o') := by
  cases op with
  | acquire t =>
    obtain ⟨-, ⟨⟩⟩ := Option.ite_none_right_eq_some.mp hs
    exact look_refines h t
  | sleep t =>
    obtain ⟨-, ⟨⟩⟩ := Option.ite_none_right_eq_some.mp hs
    exact ⟨o, h.of_eq rfl rfl, .inl rfl⟩
  | wake t =>
    obtain ⟨-, ⟨⟩⟩ := Option.ite_none_right_eq_some.mp hs
    exact ⟨o, h.of_eq rfl rfl, .inl rfl⟩
  | resume t =>
    obtain ⟨-, ⟨⟩⟩ := Option.ite_none_right_eq_some.mp hs
    exact look_refines h t
  | release t =>
    obtain ⟨⟨-, hin⟩, ⟨⟩⟩ := Option.ite_none_right_eq_some.mp hs
    -- The one who releases is inside, hence the owner.
    have ho : o = some t := (h.inside t).mp hin
    subst ho
    refine ⟨none, ⟨fun u => ?_, rfl, fun u hu => by cases hu⟩, .inr (.drop t)⟩
    by_cases hu : u = t
    · subst hu
      simp [wakeAll]
    · have hout : ¬ s.inside u = true := fun hin' =>
        hu (Option.some.inj ((h.inside u).mp hin')).symm
      simp [wakeAll, hu, hout]

/-- **One process at a time.**  However any number of processes with distinct pids acquire the
lock, sleep, are woken and release what they hold, the lock says at every moment who is inside,
and there is at most one. -/
theorem sleeplock_excludes (hpid : Function.Injective pid) (ops : List (SleeplockOp T)) :
    Always (step pid) (Excludes pid) init ops := by
  have hinv : Always (step pid) (fun s => ∃ o, s.OwnedBy pid o) init ops := by
    refine always_of_inv (fun s op s' h hs => ?_) ops _ ⟨none, ownedBy_init⟩
    obtain ⟨o, ho⟩ := h
    obtain ⟨o', ho', -⟩ := step_refines ho hs
    exact ⟨o', ho'⟩
  exact Always.mono (fun s h => h.elim fun o ho => ho.excludes hpid) hinv

/-- Three processes: the second and the third sleep behind the first, both wake when it leaves,
and the third one is faster. -/
theorem sleeplock_excludes_three :
    Always (step (fun t : Fin 3 => BitVec.ofNat 32 t)) (Excludes fun t => BitVec.ofNat 32 t)
      init
      [.acquire 0, .acquire 1, .sleep 1, .wake 1, .acquire 2, .sleep 2, .resume 1, .sleep 1,
        .release 0, .resume 2, .resume 1, .release 2] :=
  sleeplock_excludes (by decide) _

example :
    (run (step (fun t : Fin 3 => BitVec.ofNat 32 t)) init
      [.acquire 0, .acquire 1, .sleep 1, .wake 1, .acquire 2, .sleep 2, .resume 1, .sleep 1,
        .release 0, .resume 2, .resume 1]).map (fun s => [s.inside 0, s.inside 1, s.inside 2]) =
      some [false, false, true] := by
  decide

end SleeplockState

end Lithium
