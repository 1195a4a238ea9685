/-
# Spinlocks and the interrupt-enable bit

`spinlock.c` protects a critical section by masking interrupts: `spinlock_acquire` clears
`sstatus.SIE` and takes the lock, `spinlock_release` gives the lock back and sets `SIE` again.
On one hart that is all the mutual exclusion there is, so what matters is that `SIE` stays
clear from the first acquire to the last release.

`spinlock_release` sets the bit unconditionally.  Section 2 puts the two functions under any
number of processes on one hart, each taking and releasing locks in a well-nested way and
preempted by the timer whenever `SIE` is set; section 4 says exactly which runs keep every
critical section masked: those whose releases always give back the only lock held, in a hart
that started with interrupts on.  `log_write` is not of that kind, since it pins a buffer (and
so takes and releases `bcache.lock`) while it holds `log.lock`.
-/
import Lithium.Lib.Transition
import Mathlib.Logic.Function.Basic
import Mathlib.Data.List.Nodup
import Mathlib.Tactic.Common

namespace Lithium

variable {P L : Type*} [DecidableEq P] [DecidableEq L]

/-! ## 1. `spinlock.c` -/

/-- What the lock code sees of the hart: bit 1 of `sstatus`, and the `locked` word of every
lock. -/
structure Hart (L : Type*) where
  sie : Bool
  locked : L → Bool

/-- `intr_on`: set `sstatus.SIE`. -/
def intrOn (h : Hart L) : Hart L := { h with sie := true }

/-- `intr_off`: clear `sstatus.SIE`. -/
def intrOff (h : Hart L) : Hart L := { h with sie := false }

/-- `spinlock_held`: the `locked` word, whoever took the lock. -/
def spinlockHeld (h : Hart L) (lk : L) : Bool := h.locked lk

/-- `spinlock_acquire`.  `none` is the `while (1);` after "double acquire"; on one hart the
test-and-set loop behind the check finds the lock free at once. -/
def spinlockAcquire (h : Hart L) (lk : L) : Option (Hart L) :=
  let h := intrOff h
  if spinlockHeld h lk then none
  else some { h with locked := Function.update h.locked lk true }

/-- `spinlock_release`.  `none` is the `while (1);` after "verrou non tenu". -/
def spinlockRelease (h : Hart L) (lk : L) : Option (Hart L) :=
  if spinlockHeld h lk then
    some (intrOn { h with locked := Function.update h.locked lk false })
  else none

/-- Acquiring a free lock masks interrupts and takes it. -/
theorem spinlockAcquire_of_free {h : Hart L} {lk : L} (hf : h.locked lk = false) :
    spinlockAcquire h lk = some ⟨false, Function.update h.locked lk true⟩ := by
  simp [spinlockAcquire, spinlockHeld, intrOff, hf]

/-- Acquiring a taken lock never returns. -/
theorem spinlockAcquire_of_held {h : Hart L} {lk : L} (hf : h.locked lk = true) :
    spinlockAcquire h lk = none := by
  simp [spinlockAcquire, spinlockHeld, intrOff, hf]

/-- Releasing a taken lock frees it and sets `SIE`, whatever it was before the acquire. -/
theorem spinlockRelease_of_held {h : Hart L} {lk : L} (hf : h.locked lk = true) :
    spinlockRelease h lk = some ⟨true, Function.update h.locked lk false⟩ := by
  simp [spinlockRelease, spinlockHeld, intrOn, hf]

/-! ## 2. Processes taking locks on one hart -/

/-- The hart with the processes on it: `held p` lists the locks `p` holds, the one taken last
first, and `hung` says that the hart spins in "double acquire" for ever. -/
structure LockState (P L : Type*) where
  hart : Hart L
  cur : P
  held : P → List L
  hung : Bool

/-- What the running process does next, or the timer does to it. -/
inductive LockOp (P L : Type*) where
  | acquire (lk : L)
  | release (lk : L)
  | preempt (p : P)

/-- One step.  Sequences are well nested over distinct locks: a process takes a lock it does
not hold and gives back the one it took last.  The timer interrupt is taken only while `SIE`
is set, and the process it resumes had itself been stopped with `SIE` set. -/
def lockStep (s : LockState P L) : LockOp P L → Option (LockState P L)
  | .acquire lk =>
    if s.hung = false ∧ lk ∉ s.held s.cur then
      match spinlockAcquire s.hart lk with
      | some h => some { s with
          hart := h, held := Function.update s.held s.cur (lk :: s.held s.cur) }
      | none => some { s with hart := intrOff s.hart, hung := true }
    else none
  | .release lk =>
    if s.hung = false ∧ (s.held s.cur).head? = some lk then
      (spinlockRelease s.hart lk).map fun h =>
        { s with hart := h, held := Function.update s.held s.cur (s.held s.cur).tail }
    else none
  | .preempt p =>
    if s.hung = false ∧ s.hart.sie = true then some { s with cur := p } else none

/-- No lock is taken, and `SIE` is `sie₀`. -/
def LockState.init (sie₀ : Bool) (p : P) : LockState P L :=
  { hart := ⟨sie₀, fun _ => false⟩, cur := p, held := fun _ => [], hung := false }

/-- Interrupts are masked while any lock is held and back to their value when none is, so that
no timer preempts a critical section and nobody runs into "double acquire". -/
structure LocksSafe (sie₀ : Bool) (s : LockState P L) : Prop where
  masked : (∃ p, s.held p ≠ []) → s.hart.sie = false
  restored : (∀ p, s.held p = []) → s.hart.sie = sie₀
  noPreempt : (∃ p, s.held p ≠ []) → ∀ q, lockStep s (.preempt q) = none
  notHung : s.hung = false

/-- The condition on a step: a release gives back the only lock the process holds, and the
section it closes was entered with interrupts on. -/
def OuterRelease (sie₀ : Bool) (s : LockState P L) : LockOp P L → Prop
  | .release lk => s.held s.cur = [lk] ∧ sie₀ = true
  | _ => True

/-! ## 3. The bookkeeping invariant -/

/-- The lock words agree with the locks held, and only the running process holds any. -/
structure LocksOk (s : LockState P L) : Prop where
  locked_iff : ∀ lk, s.hart.locked lk = true ↔ ∃ p, lk ∈ s.held p
  nodup : (s.held s.cur).Nodup
  others : ∀ p, p ≠ s.cur → s.held p = []

omit [DecidableEq P] [DecidableEq L] in
theorem LocksOk.init (sie₀ : Bool) (p : P) : LocksOk (LockState.init (L := L) sie₀ p) where
  locked_iff := by simp [LockState.init]
  nodup := List.nodup_nil
  others := fun _ _ => rfl

theorem LocksSafe.init (sie₀ : Bool) (p : P) :
    LocksSafe sie₀ (LockState.init (L := L) sie₀ p) where
  masked := by rintro ⟨q, hq⟩; exact absurd rfl hq
  restored := fun _ => rfl
  noPreempt := by rintro ⟨q, hq⟩; exact absurd rfl hq
  notHung := rfl

omit [DecidableEq L] in
/-- A lock is taken exactly when the running process holds it. -/
theorem LocksOk.locked_iff_cur {s : LockState P L} (h : LocksOk s) (lk : L) :
    s.hart.locked lk = true ↔ lk ∈ s.held s.cur := by
  rw [h.locked_iff]
  constructor
  · rintro ⟨p, hp⟩
    by_cases hpc : p = s.cur
    · exact hpc ▸ hp
    · rw [h.others p hpc] at hp
      exact absurd hp (by simp)
  · exact fun hlk => ⟨s.cur, hlk⟩

omit [DecidableEq L] in
/-- Some lock is held exactly when the running process holds one. -/
theorem LocksOk.exists_held_iff {s : LockState P L} (h : LocksOk s) :
    (∃ p, s.held p ≠ []) ↔ s.held s.cur ≠ [] := by
  constructor
  · rintro ⟨p, hp⟩
    by_cases hpc : p = s.cur
    · exact hpc ▸ hp
    · exact absurd (h.others p hpc) hp
  · exact fun hc => ⟨s.cur, hc⟩

/-! ## 4. Which runs keep every critical section masked -/

/-- An acquire keeps the bookkeeping, masks interrupts and hangs nobody. -/
theorem acquire_spec {s s' : LockState P L} {lk : L} (h : LocksOk s)
    (hs : lockStep s (.acquire lk) = some s') :
    LocksOk s' ∧ s'.hart.sie = false ∧ s'.hung = false ∧ s'.held s'.cur ≠ [] := by
  simp only [lockStep] at hs
  split at hs
  case isFalse => exact absurd hs (by simp)
  case isTrue hen =>
    obtain ⟨hhung, hnot⟩ := hen
    -- the lock is free: only the running process could hold it, and it does not
    have hfree : s.hart.locked lk = false := by
      rw [← Bool.not_eq_true, h.locked_iff_cur]
      exact hnot
    rw [spinlockAcquire_of_free hfree] at hs
    simp only [Option.some.injEq] at hs
    subst hs
    refine ⟨⟨fun l => ?_, ?_, fun p hp => ?_⟩, rfl, hhung, by simp⟩
    · have hiff := h.locked_iff_cur l
      constructor
      · intro hl
        refine ⟨s.cur, ?_⟩
        by_cases hll : l = lk
        · simp [hll]
        · simp only [Function.update_of_ne hll] at hl
          simp [hiff.mp hl]
      · rintro ⟨p, hp⟩
        by_cases hpc : p = s.cur
        · subst hpc
          simp only [Function.update_self, List.mem_cons] at hp
          rcases hp with rfl | hp
          · simp
          · by_cases hll : l = lk
            · simp [hll]
            · simpa [Function.update_of_ne hll] using hiff.mpr hp
        · simp only [Function.update_of_ne hpc, h.others p hpc] at hp
          exact absurd hp (by simp)
    · simpa using ⟨hnot, h.nodup⟩
    · simpa [Function.update_of_ne hp] using h.others p hp

/-- A release keeps the bookkeeping and sets `SIE`. -/
theorem release_spec {s s' : LockState P L} {lk : L} (h : LocksOk s)
    (hs : lockStep s (.release lk) = some s') :
    LocksOk s' ∧ s'.hart.sie = true ∧ s'.hung = false ∧ s'.cur = s.cur ∧
      ∃ rest, s.held s.cur = lk :: rest ∧ s'.held s'.cur = rest := by
  simp only [lockStep] at hs
  split at hs
  case isFalse => exact absurd hs (by simp)
  case isTrue hen =>
    obtain ⟨hhung, hhead⟩ := hen
    obtain ⟨rest, hrest⟩ := List.head?_eq_some_iff.mp hhead
    have hlocked : s.hart.locked lk = true := by
      rw [h.locked_iff_cur, hrest]
      exact List.mem_cons_self
    rw [spinlockRelease_of_held hlocked] at hs
    simp only [Option.map_some, Option.some.injEq] at hs
    subst hs
    have hnd : lk ∉ rest ∧ rest.Nodup := by
      have := h.nodup
      rwa [hrest, List.nodup_cons] at this
    refine ⟨⟨fun l => ?_, ?_, fun p hp => ?_⟩, rfl, hhung, rfl, rest, hrest, by simp [hrest]⟩
    · have hiff := h.locked_iff_cur l
      rw [hrest, List.mem_cons] at hiff
      constructor
      · intro hl
        refine ⟨s.cur, ?_⟩
        by_cases hll : l = lk
        · simp [hll] at hl
        · simp only [Function.update_of_ne hll] at hl
          simpa [hrest, hll] using hiff.mp hl
      · rintro ⟨p, hp⟩
        by_cases hpc : p = s.cur
        · subst hpc
          simp only [Function.update_self, hrest, List.tail_cons] at hp
          have hll : l ≠ lk := fun e => hnd.1 (e ▸ hp)
          simpa [Function.update_of_ne hll] using hiff.mpr (Or.inr hp)
        · simp only [Function.update_of_ne hpc, h.others p hpc] at hp
          exact absurd hp (by simp)
    · simpa [hrest] using hnd.2
    · simpa [Function.update_of_ne hp] using h.others p hp

/-- A preemption is taken only with `SIE` set, and changes the running process alone. -/
theorem preempt_spec {s s' : LockState P L} {p : P} (hs : lockStep s (.preempt p) = some s') :
    s.hung = false ∧ s.hart.sie = true ∧ s' = { s with cur := p } := by
  simp only [lockStep] at hs
  split at hs
  case isFalse => exact absurd hs (by simp)
  case isTrue hen =>
    rw [Option.some.injEq] at hs
    exact ⟨hen.1, hen.2, hs.symm⟩

/-- With interrupts masked the timer preempts nobody. -/
theorem preempt_masked {s : LockState P L} (h : s.hart.sie = false) (q : P) :
    lockStep s (.preempt q) = none := by
  simp [lockStep, h]

/-- One step from a safe state is safe again exactly when it meets the condition. -/
theorem lockStep_safe_iff {sie₀ : Bool} {s s' : LockState P L} {o : LockOp P L}
    (h : LocksOk s) (hsafe : LocksSafe sie₀ s) (hs : lockStep s o = some s') :
    (LocksSafe sie₀ s' ↔ OuterRelease sie₀ s o) ∧ (LocksSafe sie₀ s' → LocksOk s') := by
  cases o with
  | acquire lk =>
    obtain ⟨hok, hsie, hhung, hheld⟩ := acquire_spec h hs
    refine ⟨iff_of_true ⟨fun _ => hsie, fun hno => absurd (hno s'.cur) hheld,
      fun _ => preempt_masked hsie, hhung⟩ trivial, fun _ => hok⟩
  | release lk =>
    obtain ⟨hok, hsie, hhung, hcur, rest, hrest, hheld⟩ := release_spec h hs
    refine ⟨?_, fun _ => hok⟩
    simp only [OuterRelease, hrest, List.cons.injEq, true_and]
    constructor
    · intro hsafe'
      have hnil : rest = [] := by
        by_contra hne
        have := hsafe'.masked (hok.exists_held_iff.mpr (by rwa [hheld]))
        rw [hsie] at this
        exact absurd this (by simp)
      refine ⟨hnil, ?_⟩
      have hempty : ∀ p, s'.held p = [] := fun p => by
        by_contra hp
        exact hok.exists_held_iff.mp ⟨p, hp⟩ (hheld.trans hnil)
      rw [← hsafe'.restored hempty, hsie]
    · rintro ⟨hnil, hsie₀⟩
      have hnone : ¬ ∃ p, s'.held p ≠ [] := by
        rw [hok.exists_held_iff, hheld]
        exact fun hne => hne hnil
      exact ⟨fun hex => absurd hex hnone, fun _ => hsie.trans hsie₀.symm,
        fun hex => absurd hex hnone, hhung⟩
  | preempt p =>
    obtain ⟨hhung, hsie, rfl⟩ := preempt_spec hs
    -- interrupts are on, so nobody holds a lock
    have hnone : ∀ q, s.held q = [] := fun q => by
      by_contra hq
      have := hsafe.masked ⟨q, hq⟩
      rw [hsie] at this
      exact absurd this (by simp)
    have hsafe' : LocksSafe sie₀ { s with cur := p } :=
      ⟨hsafe.masked, hsafe.restored, fun ⟨q, hq⟩ => absurd (hnone q) hq, hhung⟩
    exact ⟨iff_of_true hsafe' trivial, fun _ =>
      ⟨h.locked_iff, by simp [hnone p], fun q _ => hnone q⟩⟩

/-- **Critical sections stay masked exactly in the runs whose releases are all outermost**, in
a hart that started with interrupts on: there, and only there, is `SIE` clear whenever a lock
is held, restored when none is, no section preempted and nobody stuck in "double acquire". -/
theorem locks_masked_iff_outer_releases (sie₀ : Bool) (p : P) (os : List (LockOp P L)) :
    Transition.Always lockStep (LocksSafe sie₀) (LockState.init sie₀ p) os ↔
      Transition.EachStep lockStep (OuterRelease sie₀) (LockState.init sie₀ p) os :=
  Transition.always_iff_eachStep (fun _ _ _ hok hsafe hs => lockStep_safe_iff hok hsafe hs)
    os _ (LocksOk.init sie₀ p) (LocksSafe.init sie₀ p)

/-! ## 5. `log_write` is not one of them -/

/-- The two locks `log_write` takes. -/
inductive LogLock where
  | log
  | bcache
  deriving DecidableEq

/-- What `log_write` does to the locks when it records a new block: `buf_pin` takes and gives
back `bcache.lock` under `log.lock`. -/
def logWriteLocks (P : Type*) : List (LockOp P LogLock) :=
  [.acquire .log, .acquire .bcache, .release .bcache, .release .log]

/-- Process 0 is preempted in `log_write` right after `buf_pin`, with `log.lock` held; process
1 then calls `log_write` and spins in "double acquire" for ever. -/
theorem logWrite_unmasks_log_lock :
    ¬ ∀ (sie₀ : Bool) (p : Fin 2) (os : List (LockOp (Fin 2) LogLock)),
      Transition.Always lockStep (LocksSafe sie₀) (LockState.init sie₀ p) os := by
  intro h
  have hrun := (Transition.always_iff_reachable.mp (h true 0)) _
    ⟨(logWriteLocks (Fin 2)).take 3 ++ [.preempt 1] ++ (logWriteLocks (Fin 2)).take 1, rfl⟩
  exact absurd hrun.notHung (by decide)

end Lithium
