/-
# Sleeping and waking up

Whoever waits for a condition takes a spinlock `lk` and calls `sleep(chan, lk)` as long as the
condition is false; whoever makes it true, a process or an interrupt handler, takes `lk`, calls
`wakeup(chan)` and gives `lk` back.  `sleep` is to give `lk` back and fall asleep as one: a wakeup
in between is lost.

It is not one: `spinlock_release` sets `sstatus.SIE`, and `PROC_SLEEPING` comes after it.
Section 2 puts any number of waiting and waking processes on one hart, with an interrupt or a
switch wherever `SIE` is set; section 5 says which runs lose no wakeup.
-/
import Lithium.Mem.Spinlock
import Lithium.Proc.Machine
import Mathlib.Algebra.BigOperators.Group.Finset.Piecewise
import Mathlib.Data.Fintype.BigOperators

namespace Lithium

/-! ## 1. The loop of `wakeup` -/

namespace Kernel

/-- A pass of the loop of `wakeup`. -/
def wakeEntry (k : Kernel) (i : ProcRef) : Kernel :=
  if (k.procTable i).state = .sleeping then k.modify i fun p => { p with state := .runnable }
  else k

theorem wakeEntry_state (k : Kernel) (i j : ProcRef) : ((k.wakeEntry i).procTable j).state =
    if j = i ∧ (k.procTable j).state = .sleeping then .runnable else (k.procTable j).state := by
  unfold wakeEntry
  by_cases hj : j = i
  · subst hj
    by_cases h : (k.procTable j).state = .sleeping
    · rw [if_pos h, if_pos ⟨rfl, h⟩, modify_self]
    · rw [if_neg h, if_neg fun hand => h hand.2]
  · rw [if_neg (fun hand => hj hand.1 : ¬ (j = i ∧ _))]
    split
    · rw [modify_of_ne _ _ _ hj]
    · rfl

/-- Nobody falls asleep in the loop. -/
theorem wakeEntry_sleeping {k : Kernel} {i j : ProcRef}
    (h : ((k.wakeEntry i).procTable j).state = .sleeping) :
    (k.procTable j).state = .sleeping ∧ j ≠ i := by
  rw [wakeEntry_state] at h
  split at h
  case isTrue => exact absurd h (by simp)
  case isFalse hand => exact ⟨h, fun hj => hand ⟨hj, h⟩⟩

/-- Nor in `yield`. -/
theorem yield_sleeping {k : Kernel} {j : ProcRef}
    (h : (k.yield.procTable j).state = .sleeping) : (k.procTable j).state = .sleeping := by
  unfold yield at h
  cases hcur : k.currentProcess with
  | none => simpa [hcur] using h
  | some i =>
    simp only [hcur] at h
    split at h
    · by_cases hj : j = i
      · rw [hj, modify_self] at h
        exact absurd h (by simp)
      · rwa [modify_of_ne _ _ _ hj] at h
    · exact h

/-- The passes of the loop for the entries in `l`. -/
theorem foldl_wakeEntry (l : List ProcRef) (k : Kernel) : l.foldl wakeEntry k =
    { k with procTable := fun j =>
        if j ∈ l ∧ (k.procTable j).state = .sleeping then
          { k.procTable j with state := .runnable }
        else k.procTable j } := by
  induction l generalizing k with
  | nil => simp
  | cons i l ih =>
    rw [List.foldl_cons, ih]
    unfold wakeEntry
    split
    case isTrue hi =>
      simp only [modify, Kernel.mk.injEq, and_true, true_and]
      funext j
      by_cases hj : j = i
      · subst hj
        simp [hi]
      · simp [hj]
    case isFalse hi =>
      simp only [Kernel.mk.injEq, and_true, true_and]
      funext j
      by_cases hj : j = i
      · subst hj
        simp [hi]
      · simp [hj]

/-- The loop as a whole is `wakeup`. -/
theorem wakeup_eq_foldl (k : Kernel) : k.wakeup = (List.finRange nproc).foldl wakeEntry k := by
  rw [foldl_wakeEntry]
  simp [wakeup, List.mem_finRange]

end Kernel

/-! ## 2. Waiting and waking on one hart -/

/-- Where a process is in one of the functions it has entered. -/
inductive Pc where
  /-- Neither waiting nor waking: the code of the process, or a handler about to return. -/
  | out
  /-- The process holds `lk` and looks at the condition. -/
  | check
  /-- In `sleep`, before `spinlock_release`. -/
  | missed
  /-- In `sleep`, between `spinlock_release` and `p->state = PROC_SLEEPING`. -/
  | window
  /-- In `sleep`, where `scheduler` is to return. -/
  | reacquire
  /-- A handler before `spinlock_acquire`. -/
  | enter
  /-- Whoever holds `lk` makes the condition true. -/
  | raise
  /-- In `wakeup`, before the pass `i` of the loop. -/
  | wake (i : Nat)
  /-- Before the last `spinlock_release`. -/
  | drop
  /-- In the loop of `scheduler`. -/
  | sched
  deriving DecidableEq

/-- At these points `lk` is held. -/
def Pc.holds : Pc → Bool
  | .check | .missed | .raise | .wake _ | .drop => true
  | _ => false

/-- At these points other code may run that takes another spinlock. -/
def Pc.callsOut : Pc → Bool
  | .out | .check | .raise | .drop => true
  | _ => false

/-- The kernel, the hart with `lk`, and where each process is, the innermost function first.
`done` says that `wakeup` has been called since the condition is true, `hung` that the hart spins
in `spinlock.c` for ever. -/
structure WaitState where
  kernel : Kernel
  hart : Hart Unit
  frames : ProcRef → List Pc
  cond : Bool
  done : Bool
  hung : Bool

/-- What the current process does next, or an interrupt does to it. -/
inductive WaitOp where
  /-- The next step of the innermost function. -/
  | run
  /-- The process is to wait for the condition. -/
  | wait
  /-- The process is to make the condition true. -/
  | post
  /-- The process has found the condition true, and makes it false. -/
  | take
  /-- The process takes another spinlock and gives it back. -/
  | nested
  /-- The process sleeps for another reason. -/
  | nap
  /-- A pass of the loop of another `wakeup`. -/
  | stray (i : ProcRef)
  /-- An interrupt whose handler is to make the condition true. -/
  | irq
  /-- A handler returns. -/
  | iret
  /-- The timer interrupt, up to the loop of `scheduler`. -/
  | timer
  /-- `scheduler` finds `q` runnable. -/
  | dispatch (q : ProcRef)
  /-- `scheduler` returns; as it is written it never does. -/
  | resume

namespace WaitState

/-- The functions of `p` are now `fs`. -/
def setFrames (s : WaitState) (p : ProcRef) (fs : List Pc) : WaitState :=
  { s with frames := Function.update s.frames p fs }

/-- `spinlock_acquire(lk)` by `p`, which then is in `fs`. -/
def acquire (s : WaitState) (p : ProcRef) (fs : List Pc) : WaitState :=
  match spinlockAcquire s.hart () with
  | some h => { s with hart := h }.setFrames p fs
  | none => { s with hart := intrOff s.hart, hung := true }

/-- `spinlock_release(lk)` by `p`, which then is in `fs`. -/
def release (s : WaitState) (p : ProcRef) (fs : List Pc) : WaitState :=
  match spinlockRelease s.hart () with
  | some h => { s with hart := h }.setFrames p fs
  | none => { s with hung := true }

/-- The next step of the innermost function of `p`, called from `fs`. -/
def advance (s : WaitState) (p : ProcRef) (fs : List Pc) : Pc → Option WaitState
  | .out => none
  | .sched => none
  | .check => some (s.setFrames p ((if s.cond then .drop else .missed) :: fs))
  | .missed => some (s.release p (.window :: fs))
  | .window => some ({ s with kernel := s.kernel.sleep }.setFrames p (.sched :: .reacquire :: fs))
  | .reacquire => some (s.acquire p (.check :: fs))
  | .enter => some (s.acquire p (.raise :: fs))
  | .raise => some ({ s with cond := true, done := s.cond && s.done }.setFrames p (.wake 0 :: fs))
  | .wake i =>
    if h : i < nproc then
      some ({ s with kernel := s.kernel.wakeEntry ⟨i, h⟩ }.setFrames p (.wake (i + 1) :: fs))
    else some ({ s with done := true }.setFrames p (.drop :: fs))
  | .drop => some (s.release p (.out :: fs))

/-- A step while the current process `p` is at `pc`, called from `fs`. -/
def act (s : WaitState) (p : ProcRef) (pc : Pc) (fs : List Pc) : WaitOp → Option WaitState
  | .run => s.advance p fs pc
  | .wait => if pc = .out ∧ fs = [] then some (s.acquire p (.check :: fs)) else none
  | .post => if pc = .out ∧ fs = [] then some (s.acquire p (.raise :: fs)) else none
  | .take =>
    if pc = .check ∧ s.cond = true then
      some ({ s with cond := false }.setFrames p (.drop :: fs))
    else none
  | .nested => if pc.callsOut then some { s with hart := intrOn s.hart } else none
  | .nap =>
    if pc = .out ∧ fs = [] then
      some ({ s with kernel := s.kernel.sleep }.setFrames p (.sched :: .out :: fs))
    else none
  | .stray i => some { s with kernel := s.kernel.wakeEntry i }
  | .irq =>
    if s.hart.sie then
      some ({ s with hart := intrOff s.hart }.setFrames p (.enter :: pc :: fs))
    else none
  | .iret =>
    if pc = .out ∧ fs ≠ [] then some ({ s with hart := intrOn s.hart }.setFrames p fs) else none
  | .timer =>
    if s.hart.sie then
      some ({ s with hart := intrOff s.hart, kernel := s.kernel.yield }.setFrames p
        (.sched :: .out :: pc :: fs))
    else none
  | .dispatch q =>
    if pc = .sched ∧ (s.kernel.procTable q).state = .runnable then
      some { s with kernel := s.kernel.dispatch q }
    else none
  | .resume => if pc = .sched then some (s.setFrames p fs) else none

/-- One step. -/
def step (s : WaitState) (op : WaitOp) : Option WaitState :=
  match s.hung, s.kernel.currentProcess with
  | false, some p =>
    match s.frames p with
    | pc :: fs => s.act p pc fs op
    | [] => none
  | _, _ => none

/-- Nobody waits or wakes yet, and `lk` is free. -/
def init (k : Kernel) (sie cond : Bool) : WaitState :=
  { kernel := k, hart := ⟨sie, fun _ => false⟩, frames := fun _ => [.out], cond := cond,
    done := false, hung := false }

theorem act_of_step {s s' : WaitState} {op : WaitOp} (h : s.step op = some s') :
    ∃ p pc fs, s.kernel.currentProcess = some p ∧ s.frames p = [pc] ++ fs ∧
      s.act p pc fs op = some s' := by
  unfold step at h
  split at h
  case h_1 p _ hcur =>
    split at h
    case h_1 pc fs hp => exact ⟨p, pc, fs, hcur, hp, h⟩
    case h_2 => exact absurd h (by simp)
  case h_2 => exact absurd h (by simp)

/-- No process sleeps in `sleep(chan, lk)` with the condition true and the wakeup done. -/
def NoLostWakeup (s : WaitState) : Prop :=
  ∀ p, .reacquire ∈ s.frames p → (s.kernel.procTable p).state = .sleeping →
    ¬ (s.cond = true ∧ s.done = true)

/-- The current process is in the `wakeup` that belongs to the condition. -/
def waking (s : WaitState) : Bool :=
  match s.kernel.currentProcess with
  | none => false
  | some p =>
    match s.frames p with
    | .wake _ :: _ => true
    | _ => false

/-- The condition on a step: it is no step of `wakeup` while a process is in `sleep` between
`spinlock_release` and `p->state = PROC_SLEEPING`. -/
def WakesOutsideWindow (s : WaitState) : WaitOp → Prop
  | .run => s.waking = true → ∀ q, .window ∉ s.frames q
  | _ => True

instance (s : WaitState) : ∀ op, Decidable (s.WakesOutsideWindow op)
  | .run => inferInstanceAs (Decidable (s.waking = true → ∀ q, Pc.window ∉ s.frames q))
  | .wait | .post | .take | .nested | .nap | .stray _ | .irq | .iret | .timer | .dispatch _
  | .resume => isTrue trivial

/-! ## 3. Mutual exclusion -/

/-- The number of functions in which `lk` is held. -/
def holders (frames : ProcRef → List Pc) : Nat := ∑ p, (frames p).countP Pc.holds

theorem holders_update (frames : ProcRef → List Pc) (p : ProcRef) (fs : List Pc) :
    holders (Function.update frames p fs) + (frames p).countP Pc.holds =
      holders frames + fs.countP Pc.holds := by
  have hold := Finset.add_sum_erase Finset.univ (fun q => (frames q).countP Pc.holds)
    (Finset.mem_univ p)
  have hnew := Finset.add_sum_erase Finset.univ
    (fun q => (Function.update frames p fs q).countP Pc.holds) (Finset.mem_univ p)
  have hrest : ∑ q ∈ Finset.univ.erase p, (Function.update frames p fs q).countP Pc.holds =
      ∑ q ∈ Finset.univ.erase p, (frames q).countP Pc.holds :=
    Finset.sum_congr rfl fun q hq => by rw [Function.update_of_ne (Finset.ne_of_mem_erase hq)]
  simp only [Function.update_self, hrest] at hnew
  simp only [holders]
  omega

theorem holders_replace {s : WaitState} {p : ProcRef} {gone fs : List Pc}
    (hp : s.frames p = gone ++ fs) (new : List Pc) :
    holders (Function.update s.frames p (new ++ fs)) + gone.countP Pc.holds =
      holders s.frames + new.countP Pc.holds := by
  have h := holders_update s.frames p (new ++ fs)
  rw [hp, List.countP_append, List.countP_append] at h
  omega

/-- Who is in `c` after `p` has left some functions for `new`. -/
theorem mem_replace {frames : ProcRef → List Pc} {p q : ProcRef} {c : Pc} (new : List Pc)
    {fs : List Pc} (h : c ∈ Function.update frames p (new ++ fs) q) :
    (q = p ∧ c ∈ new) ∨ c ∈ Function.update frames p fs q := by
  by_cases hq : q = p
  · subst hq
    rw [Function.update_self] at h ⊢
    rcases List.mem_append.mp h with hnew | hfs
    · exact Or.inl ⟨rfl, hnew⟩
    · exact Or.inr hfs
  · rw [Function.update_of_ne hq] at h ⊢
    exact Or.inr h

theorem mem_below {s : WaitState} {p q : ProcRef} {c : Pc} {gone fs : List Pc}
    (hp : s.frames p = gone ++ fs) (h : c ∈ Function.update s.frames p fs q) :
    c ∈ s.frames q := by
  by_cases hq : q = p
  · subst hq
    rw [Function.update_self] at h
    rw [hp]
    exact List.mem_append_right _ h
  · rwa [Function.update_of_ne hq] at h

/-! ## 4. The invariant -/

/-- `lk` is held by one function at most; whoever has found the condition false sees no wakeup
until it is asleep; and a `wakeup` in progress leaves no sleeper behind. -/
structure WaitOk (s : WaitState) : Prop where
  lock : holders s.frames = (s.hart.locked ()).toNat
  missed : ∀ p, .missed ∈ s.frames p → s.cond = false
  window : ∀ p, .window ∈ s.frames p → ¬ (s.cond = true ∧ s.done = true)
  asleep : NoLostWakeup s
  scan : ∀ q i, .wake i ∈ s.frames q → 0 < i →
    (∀ p, .window ∉ s.frames p) ∧
      ∀ p, .reacquire ∈ s.frames p → (s.kernel.procTable p).state = .sleeping → i ≤ p.val

theorem WaitOk.init (k : Kernel) (sie cond : Bool) : WaitOk (init k sie cond) where
  lock := by simp [WaitState.init, holders, Pc.holds]
  missed p h := by simp [WaitState.init] at h
  window p h := by simp [WaitState.init] at h
  asleep p h := by simp [WaitState.init] at h
  scan q i h := by simp [WaitState.init] at h

/-- What `lk` has to do with a change of functions. -/
theorem WaitOk.lock_replace {s : WaitState} (h : WaitOk s) {p : ProcRef} {gone fs : List Pc}
    (hp : s.frames p = gone ++ fs) (new : List Pc) (locked : Bool)
    (hcount : locked.toNat + gone.countP Pc.holds =
      (s.hart.locked ()).toNat + new.countP Pc.holds) :
    holders (Function.update s.frames p (new ++ fs)) = locked.toNat := by
  have hsum := holders_replace hp new
  have hlock := h.lock
  omega

section Holding

variable {s : WaitState} (h : WaitOk s) {p : ProcRef} {pc : Pc} {fs : List Pc}
  (hp : s.frames p = [pc] ++ fs) (hpc : pc.holds = true)

include h hp hpc

/-- Without the function that holds `lk` nobody holds it. -/
theorem WaitOk.holders_below : holders (Function.update s.frames p fs) = 0 := by
  refine h.lock_replace hp [] false ?_
  have hle : (s.hart.locked ()).toNat ≤ 1 := Bool.toNat_le _
  have hsum := holders_replace hp []
  have hlock := h.lock
  simp only [List.countP_nil, List.countP_singleton, hpc, if_true, Bool.toNat_false] at hsum ⊢
  omega

/-- The other functions do not hold `lk`. -/
theorem WaitOk.alone {q : ProcRef} {c : Pc} (hc : c ∈ Function.update s.frames p fs q) :
    c.holds = false := by
  have hq := Finset.sum_eq_zero_iff.mp (h.holders_below hp hpc) q (Finset.mem_univ q)
  simpa using List.countP_eq_zero.mp hq c hc

theorem WaitOk.locked : s.hart.locked () = true := by
  have hsum := holders_replace hp []
  have hlock := h.lock
  simp only [List.countP_nil, List.countP_singleton, hpc, if_true] at hsum
  rw [← Bool.toNat_eq_one]
  have hle : (s.hart.locked ()).toNat ≤ 1 := Bool.toNat_le _
  omega

end Holding

/-- What only goes from one point outside of `sleep` and `wakeup` to another, and puts nobody to
sleep that waits. -/
theorem WaitOk.replace {s s' : WaitState} (h : WaitOk s) {p : ProcRef} {gone new fs : List Pc}
    (hp : s.frames p = gone ++ fs) (hframes : s'.frames = Function.update s.frames p (new ++ fs))
    (hcount : (s'.hart.locked ()).toNat + gone.countP Pc.holds =
      (s.hart.locked ()).toNat + new.countP Pc.holds)
    (hnew : ∀ c ∈ new, c ≠ .missed ∧ c ≠ .window ∧ c ≠ .reacquire ∧ ∀ i, c ≠ .wake i)
    (hcond : s'.cond = s.cond) (hdone : s'.done = s.done)
    (hsleep : ∀ q, .reacquire ∈ s'.frames q → (s'.kernel.procTable q).state = .sleeping →
      (s.kernel.procTable q).state = .sleeping) : WaitOk s' := by
  have hold : ∀ q c, c ∈ s'.frames q →
      (c = .missed ∨ c = .window ∨ c = .reacquire ∨ ∃ i, c = .wake i) → c ∈ s.frames q := by
    intro q c hc hin
    rw [hframes] at hc
    rcases mem_replace _ hc with ⟨-, hmem⟩ | hmem
    · obtain ⟨hm, hw, hr, hi⟩ := hnew c hmem
      rcases hin with heq | heq | heq | ⟨i, heq⟩
      · exact absurd heq hm
      · exact absurd heq hw
      · exact absurd heq hr
      · exact absurd heq (hi i)
    · exact mem_below hp hmem
  have hasleep : ∀ q, .reacquire ∈ s'.frames q → .reacquire ∈ s.frames q := fun q hq =>
    hold q _ hq (Or.inr (Or.inr (Or.inl rfl)))
  refine ⟨?_, ?_, ?_, ?_, ?_⟩
  · rw [hframes]
    exact h.lock_replace hp new _ hcount
  · intro q hq
    rw [hcond]
    exact h.missed q (hold q _ hq (Or.inl rfl))
  · intro q hq
    rw [hcond, hdone]
    exact h.window q (hold q _ hq (Or.inr (Or.inl rfl)))
  · intro q hq hs
    rw [hcond, hdone]
    exact h.asleep q (hasleep q hq) (hsleep q hq hs)
  · intro q i hq hi
    obtain ⟨hwindow, hscan⟩ := h.scan q i (hold q _ hq (Or.inr (Or.inr (Or.inr ⟨i, rfl⟩)))) hi
    exact ⟨fun r hr => hwindow r (hold r _ hr (Or.inr (Or.inl rfl))),
      fun r hr hs => hscan r (hasleep r hr) (hsleep r hr hs)⟩

/-- What leaves the functions, the condition and `lk` alone, and puts nobody to sleep. -/
theorem WaitOk.quiet {s s' : WaitState} (h : WaitOk s) (hframes : s'.frames = s.frames)
    (hlock : s'.hart.locked () = s.hart.locked ()) (hcond : s'.cond = s.cond)
    (hdone : s'.done = s.done) (hsleep : ∀ q, (s'.kernel.procTable q).state = .sleeping →
      (s.kernel.procTable q).state = .sleeping) : WaitOk s' := by
  refine @WaitOk.replace s s' h 0 [] [] (s.frames 0) rfl ?_ ?_ ?_ hcond hdone fun q _ => hsleep q
  · rw [hframes, List.nil_append, Function.update_eq_self]
  · rw [hlock]
  · exact fun c hc => absurd hc List.not_mem_nil

/-! ## 5. The steps that matter -/

section Step

variable {s : WaitState} (h : WaitOk s) {p : ProcRef} {pc : Pc} {fs : List Pc}

include h

/-- An acquire by a function that does not hold `lk`, and goes on at `pc'`. -/
theorem WaitOk.acquire (hp : s.frames p = [pc] ++ fs) (hpc : pc.holds = false) {pc' : Pc}
    (hpc' : pc' = .check ∨ pc' = .raise) : WaitOk (s.acquire p (pc' :: fs)) := by
  unfold WaitState.acquire
  cases hl : s.hart.locked () with
  | true =>
    rw [spinlockAcquire_of_held hl]
    exact h.quiet rfl rfl rfl rfl fun _ hs => hs
  | false =>
    rw [spinlockAcquire_of_free hl]
    have hholds : pc'.holds = true := by rcases hpc' with rfl | rfl <;> rfl
    refine @WaitOk.replace s _ h p [pc] [pc'] fs hp rfl ?_ ?_ rfl rfl fun _ _ hs => hs
    · simp [setFrames, hl, hpc, hholds]
    · rcases hpc' with rfl | rfl <;> simp

omit h in
/-- A release by the function that holds `lk`. -/
theorem release_of_locked (hl : s.hart.locked () = true) (fs' : List Pc) : s.release p fs' =
    { s with hart := ⟨true, Function.update s.hart.locked () false⟩ }.setFrames p fs' := by
  unfold WaitState.release
  rw [spinlockRelease_of_held hl]

/-- While `lk` is held, nobody else is in a `wakeup`. -/
theorem WaitOk.noWake (hp : s.frames p = [pc] ++ fs) (hpc : pc.holds = true) {new : List Pc}
    (hnew : ∀ i, .wake i ∉ new) (q : ProcRef) (i : Nat) :
    .wake i ∉ Function.update s.frames p (new ++ fs) q := by
  intro hq
  rcases mem_replace new hq with ⟨-, hmem⟩ | hmem
  · exact hnew i hmem
  · exact absurd (h.alone hp hpc hmem) (by simp [Pc.holds])

/-- The last release. -/
theorem WaitOk.drop (hp : s.frames p = [.drop] ++ fs) : WaitOk (s.release p (.out :: fs)) := by
  have hl := h.locked hp rfl
  rw [release_of_locked hl]
  refine @WaitOk.replace s _ h p [.drop] [.out] fs hp rfl ?_ ?_ rfl rfl fun _ _ hs => hs
  · simp [setFrames, hl, Pc.holds]
  · simp

/-- The condition is false: into `sleep`. -/
theorem WaitOk.miss (hp : s.frames p = [.check] ++ fs) (hcond : s.cond = false) :
    WaitOk (s.setFrames p (.missed :: fs)) where
  lock := h.lock_replace hp [.missed] _ rfl
  missed _ _ := hcond
  window _ _ hand := absurd (hcond.symm.trans hand.1) (by simp)
  asleep _ _ _ hand := absurd (hcond.symm.trans hand.1) (by simp)
  scan q i hq _ := absurd hq (@WaitOk.noWake s h p .check fs hp rfl [.missed] (by simp) q i)

/-- `sleep` gives `lk` back.  The condition is still false. -/
theorem WaitOk.open (hp : s.frames p = [.missed] ++ fs) :
    WaitOk (s.release p (.window :: fs)) := by
  have hcond : s.cond = false := h.missed p (by simp [hp])
  have hl := h.locked hp rfl
  rw [release_of_locked hl]
  refine ⟨?_, fun _ _ => hcond, ?_, ?_, ?_⟩
  · refine h.lock_replace hp [.window] _ ?_
    simp [hl, setFrames, Pc.holds]
  · exact fun _ _ hand => absurd (hcond.symm.trans hand.1) (by simp)
  · exact fun _ _ _ hand => absurd (hcond.symm.trans hand.1) (by simp)
  · exact fun q i hq _ => absurd hq (@WaitOk.noWake s h p .missed fs hp rfl [.window] (by simp) q i)

/-- `sleep` marks the process: no wakeup has come in the window. -/
theorem WaitOk.mark (hcur : s.kernel.currentProcess = some p)
    (hp : s.frames p = [.window] ++ fs) :
    WaitOk ({ s with kernel := s.kernel.sleep }.setFrames p (.sched :: .reacquire :: fs)) := by
  have hwindow := h.window p (by simp [hp])
  have hnew : ∀ {q c}, c ∈ Function.update s.frames p ([.sched, .reacquire] ++ fs) q →
      c ≠ .sched → c ≠ .reacquire → c ∈ s.frames q := by
    intro q c hc hsched hre
    rcases mem_replace _ hc with ⟨-, hmem⟩ | hmem
    · simp [hsched, hre] at hmem
    · exact mem_below hp hmem
  refine ⟨h.lock_replace hp [.sched, .reacquire] _ rfl, ?_, ?_, ?_, ?_⟩
  · exact fun q hq => h.missed q (hnew hq (by simp) (by simp))
  · exact fun q hq => h.window q (hnew hq (by simp) (by simp))
  · intro q hq hs
    by_cases hqp : q = p
    · exact hwindow
    · refine h.asleep q ?_ ?_
      · simpa [setFrames, Function.update_of_ne hqp] using hq
      · simpa [setFrames, Kernel.sleep, hcur, Kernel.modify_of_ne _ _ _ hqp] using hs
  · intro q i hq hi
    exact absurd (by simp [hp]) ((h.scan q i (hnew hq (by simp) (by simp)) hi).1 p)

/-- The condition is made true. -/
theorem WaitOk.raise (hp : s.frames p = [.raise] ++ fs) :
    WaitOk ({ s with cond := true, done := s.cond && s.done }.setFrames p (.wake 0 :: fs)) where
  lock := h.lock_replace hp [.wake 0] _ rfl
  missed q hq := by
    rcases mem_replace [.wake 0] hq with ⟨-, hmem⟩ | hmem
    · simp at hmem
    · exact absurd (h.alone hp rfl hmem) (by simp [Pc.holds])
  window q hq := by
    rcases mem_replace [.wake 0] hq with ⟨-, hmem⟩ | hmem
    · simp at hmem
    · simpa [setFrames] using h.window q (mem_below hp hmem)
  asleep q hq hs := by
    rcases mem_replace [.wake 0] hq with ⟨-, hmem⟩ | hmem
    · simp at hmem
    · simpa [setFrames] using h.asleep q (mem_below hp hmem) hs
  scan q i hq hi := by
    rcases mem_replace [.wake 0] hq with ⟨-, hmem⟩ | hmem
    · simp at hmem
      omega
    · exact absurd (h.alone hp rfl hmem) (by simp [Pc.holds])

/-- A pass of the loop of `wakeup`, with nobody in the window. -/
theorem WaitOk.wake {i : Nat} (hi : i < nproc) (hp : s.frames p = [.wake i] ++ fs)
    (hwindow : ∀ q, .window ∉ s.frames q) :
    WaitOk ({ s with kernel := s.kernel.wakeEntry ⟨i, hi⟩ }.setFrames p (.wake (i + 1) :: fs)) := by
  have hold : ∀ {q c}, c ∈ Function.update s.frames p ([.wake (i + 1)] ++ fs) q →
      c ≠ .wake (i + 1) → c ∈ s.frames q := by
    intro q c hc hne
    rcases mem_replace _ hc with ⟨-, hmem⟩ | hmem
    · simp [hne] at hmem
    · exact mem_below hp hmem
  refine ⟨h.lock_replace hp [.wake (i + 1)] _ rfl, ?_, ?_, ?_, ?_⟩
  · exact fun q hq => h.missed q (hold hq (by simp))
  · exact fun q hq => h.window q (hold hq (by simp))
  · exact fun q hq hs => h.asleep q (hold hq (by simp)) (Kernel.wakeEntry_sleeping hs).1
  · intro q j hq hj
    rcases mem_replace [.wake (i + 1)] hq with ⟨-, hmem⟩ | hmem
    · simp only [List.mem_singleton, Pc.wake.injEq] at hmem
      refine ⟨fun r hr => hwindow r (hold hr (by simp)), ?_⟩
      intro r hr hs
      obtain ⟨hsleep, hne⟩ := Kernel.wakeEntry_sleeping hs
      have hle : 0 < i → i ≤ r.val := fun hpos =>
        (h.scan p i (by simp [hp]) hpos).2 r (hold hr (by simp)) hsleep
      have hne' : r.val ≠ i := fun heq => hne (Fin.ext heq)
      omega
    · exact absurd (h.alone hp rfl hmem) (by simp [Pc.holds])

/-- The end of `wakeup`, with nobody in the window: nobody is left asleep. -/
theorem WaitOk.woken {i : Nat} (hi : ¬ i < nproc) (hp : s.frames p = [.wake i] ++ fs)
    (hwindow : ∀ q, .window ∉ s.frames q) :
    WaitOk ({ s with done := true }.setFrames p (.drop :: fs)) := by
  have hpos : 0 < i := by
    simp only [nproc] at hi
    omega
  have hold : ∀ {q c}, c ∈ Function.update s.frames p ([.drop] ++ fs) q →
      c ≠ .drop → c ∈ s.frames q := by
    intro q c hc hne
    rcases mem_replace _ hc with ⟨-, hmem⟩ | hmem
    · simp [hne] at hmem
    · exact mem_below hp hmem
  refine ⟨h.lock_replace hp [.drop] _ rfl, ?_, ?_, ?_, ?_⟩
  · exact fun q hq => h.missed q (hold hq (by simp))
  · exact fun q hq => absurd (hold hq (by simp)) (hwindow q)
  · intro q hq hs
    have hle := (h.scan p i (by simp [hp]) hpos).2 q (hold hq (by simp)) hs
    exact absurd (Nat.lt_of_le_of_lt hle q.isLt) hi
  · exact fun q j hq _ => absurd hq (@WaitOk.noWake s h p (.wake i) fs hp rfl [.drop] (by simp) q j)

/-- The condition is used up. -/
theorem WaitOk.take (hp : s.frames p = [.check] ++ fs) :
    WaitOk ({ s with cond := false }.setFrames p (.drop :: fs)) where
  lock := h.lock_replace hp [.drop] _ rfl
  missed _ _ := rfl
  window _ _ hand := absurd hand.1 (by simp [setFrames])
  asleep _ _ _ hand := absurd hand.1 (by simp [setFrames])
  scan q i hq _ := absurd hq (@WaitOk.noWake s h p .check fs hp rfl [.drop] (by simp) q i)

/-- The process falls asleep for another reason. -/
theorem WaitOk.nap (hcur : s.kernel.currentProcess = some p) (hp : s.frames p = [.out] ++ []) :
    WaitOk ({ s with kernel := s.kernel.sleep }.setFrames p [.sched, .out]) := by
  refine @WaitOk.replace s _ h p [.out] [.sched, .out] [] hp rfl rfl (by simp) rfl rfl ?_
  intro q hq hs
  by_cases hqp : q = p
  · subst hqp
    simp [setFrames] at hq
  · simpa [setFrames, Kernel.sleep, hcur, Kernel.modify_of_ne _ _ _ hqp] using hs

/-- The timer interrupt. -/
theorem WaitOk.timer (hart : Hart Unit) (hlock : hart.locked = s.hart.locked) :
    WaitOk ({ s with hart := hart, kernel := s.kernel.yield }.setFrames p
      ([Pc.sched, Pc.out] ++ s.frames p)) := by
  refine @WaitOk.replace s _ h p [] [.sched, .out] (s.frames p) rfl rfl ?_ (by simp) rfl rfl ?_
  · simp [setFrames, hlock, Pc.holds]
  · intro q _ hs
    exact Kernel.yield_sleeping hs

/-- The next step of the innermost function, with nobody in the window during a `wakeup`. -/
theorem WaitOk.advance {s' : WaitState} (hcur : s.kernel.currentProcess = some p)
    (hp : s.frames p = [pc] ++ fs)
    (hwindow : ∀ i, pc = .wake i → ∀ q, .window ∉ s.frames q)
    (hs : s.advance p fs pc = some s') : WaitOk s' := by
  cases pc with
  | out => exact absurd hs (by simp [WaitState.advance])
  | sched => exact absurd hs (by simp [WaitState.advance])
  | check =>
    rw [WaitState.advance, Option.some.injEq] at hs
    rw [← hs]
    cases hcond : s.cond with
    | true =>
      refine @WaitOk.replace s _ h p [.check] [.drop] fs hp rfl rfl (by simp) rfl rfl ?_
      exact fun _ _ hsleep => hsleep
    | false => exact h.miss hp hcond
  | missed =>
    rw [WaitState.advance, Option.some.injEq] at hs
    exact hs ▸ h.open hp
  | window =>
    rw [WaitState.advance, Option.some.injEq] at hs
    exact hs ▸ h.mark hcur hp
  | reacquire =>
    rw [WaitState.advance, Option.some.injEq] at hs
    exact hs ▸ h.acquire hp rfl (Or.inl rfl)
  | enter =>
    rw [WaitState.advance, Option.some.injEq] at hs
    exact hs ▸ h.acquire hp rfl (Or.inr rfl)
  | raise =>
    rw [WaitState.advance, Option.some.injEq] at hs
    exact hs ▸ h.raise hp
  | wake i =>
    rw [WaitState.advance] at hs
    split at hs <;> rw [Option.some.injEq] at hs
    case isTrue hi => exact hs ▸ h.wake hi hp (hwindow i rfl)
    case isFalse hi => exact hs ▸ h.woken hi hp (hwindow i rfl)
  | drop =>
    rw [WaitState.advance, Option.some.injEq] at hs
    exact hs ▸ h.drop hp

/-- **One step** that meets the condition keeps the invariant. -/
theorem WaitOk.step {s' : WaitState} {op : WaitOp} (hc : s.WakesOutsideWindow op)
    (hs : s.step op = some s') : WaitOk s' := by
  obtain ⟨p, pc, fs, hcur, hp, hact⟩ := act_of_step hs
  cases op with
  | run =>
    refine h.advance hcur hp ?_ hact
    rintro i rfl
    exact hc (by simp [waking, hcur, hp])
  | wait =>
    simp only [act, Option.ite_none_right_eq_some, Option.some.injEq] at hact
    obtain ⟨⟨rfl, -⟩, rfl⟩ := hact
    exact h.acquire hp rfl (Or.inl rfl)
  | post =>
    simp only [act, Option.ite_none_right_eq_some, Option.some.injEq] at hact
    obtain ⟨⟨rfl, -⟩, rfl⟩ := hact
    exact h.acquire hp rfl (Or.inr rfl)
  | take =>
    simp only [act, Option.ite_none_right_eq_some, Option.some.injEq] at hact
    obtain ⟨⟨rfl, -⟩, rfl⟩ := hact
    exact h.take hp
  | nested =>
    simp only [act, Option.ite_none_right_eq_some, Option.some.injEq] at hact
    obtain ⟨-, rfl⟩ := hact
    exact h.quiet rfl rfl rfl rfl fun _ hsleep => hsleep
  | nap =>
    simp only [act, Option.ite_none_right_eq_some, Option.some.injEq] at hact
    obtain ⟨⟨rfl, rfl⟩, rfl⟩ := hact
    exact h.nap hcur hp
  | stray i =>
    simp only [act, Option.some.injEq] at hact
    subst hact
    exact h.quiet rfl rfl rfl rfl fun _ hsleep => (Kernel.wakeEntry_sleeping hsleep).1
  | irq =>
    simp only [act, Option.ite_none_right_eq_some, Option.some.injEq] at hact
    obtain ⟨-, rfl⟩ := hact
    refine @WaitOk.replace s _ h p [] [.enter] (pc :: fs) hp rfl ?_ (by simp) rfl rfl ?_
    · simp [setFrames, intrOff, Pc.holds]
    · exact fun _ _ hsleep => hsleep
  | iret =>
    simp only [act, Option.ite_none_right_eq_some, Option.some.injEq] at hact
    obtain ⟨⟨rfl, -⟩, rfl⟩ := hact
    refine @WaitOk.replace s _ h p [.out] [] fs hp rfl ?_ (by simp) rfl rfl ?_
    · simp [setFrames, intrOn, Pc.holds]
    · exact fun _ _ hsleep => hsleep
  | timer =>
    simp only [act, Option.ite_none_right_eq_some, Option.some.injEq] at hact
    obtain ⟨-, rfl⟩ := hact
    have htimer := @WaitOk.timer s h p (intrOff s.hart) rfl
    rwa [hp] at htimer
  | dispatch q =>
    simp only [act, Option.ite_none_right_eq_some, Option.some.injEq] at hact
    obtain ⟨-, rfl⟩ := hact
    refine h.quiet rfl rfl rfl rfl ?_
    intro r hsleep
    rw [Kernel.dispatch_state] at hsleep
    split at hsleep
    · exact absurd hsleep (by simp)
    · exact hsleep
  | resume =>
    simp only [act, Option.ite_none_right_eq_some, Option.some.injEq] at hact
    obtain ⟨rfl, rfl⟩ := hact
    refine @WaitOk.replace s _ h p [.sched] [] fs hp rfl rfl (by simp) rfl rfl ?_
    exact fun _ _ hsleep => hsleep

end Step

/-! ## 6. Whole runs -/

/-- **No wakeup is lost in a run that has nobody in the window of `sleep` while a `wakeup` of the
condition goes on.** -/
theorem noLostWakeup_of_wakesOutsideWindow (k : Kernel) (sie cond : Bool) (ops : List WaitOp)
    (h : Transition.EachStep step WakesOutsideWindow (init k sie cond) ops) :
    Transition.Always step NoLostWakeup (init k sie cond) ops :=
  Transition.Always.mono (fun _ => WaitOk.asleep)
    (Transition.always_of_eachStep (fun _ _ _ (hok : WaitOk _) hc hs => hok.step hc hs) ops _
      (WaitOk.init k sie cond) h)

/-- The kernel while process 0 runs, and there is no other. -/
def oneProcess : Kernel :=
  { Kernel.fresh (Vm.boot 0 fun _ => 0) with
    procTable := fun i => if i = 0 then { Proc.zero with state := .running } else .zero
    currentProcess := some 0 }

/-- The handler makes the condition true and goes through `wakeup`. -/
def handle : List WaitOp :=
  [.irq, .run, .run] ++ List.replicate (nproc + 1) .run ++ [.run, .iret]

theorem noLostWakeup_of_wakesOutsideWindow_asleep :
    Transition.Always step NoLostWakeup (init oneProcess true false)
      ([.wait, .run, .run, .run] ++ handle ++ [.dispatch 0, .resume]) :=
  noLostWakeup_of_wakesOutsideWindow _ _ _ _ (by decide +kernel)

/-- Process 0 finds the condition false and calls `sleep`.  The interrupt comes when `lk` is given
back: `wakeup` finds process 0 running, and then process 0 falls asleep. -/
theorem wakeup_lost_in_window : ¬ ∀ (k : Kernel) (sie cond : Bool) (ops : List WaitOp),
    Transition.Always step NoLostWakeup (init k sie cond) ops := by
  intro h
  have hrun : (Transition.run step (init oneProcess true false)
      ([.wait, .run, .run] ++ handle ++ [.run])).any (fun s =>
        decide (Pc.reacquire ∈ s.frames 0) && decide ((s.kernel.procTable 0).state = .sleeping) &&
          s.cond && s.done) = true := by
    decide +kernel
  obtain ⟨s, hs, htest⟩ := (Option.any_eq_true _ _).mp hrun
  simp only [Bool.and_eq_true, decide_eq_true_eq] at htest
  obtain ⟨⟨⟨hre, hsleep⟩, hcond⟩, hdone⟩ := htest
  have hno := Transition.always_iff_reachable.mp (h oneProcess true false) s ⟨_, hs⟩
  exact hno 0 hre hsleep ⟨hcond, hdone⟩

end WaitState

end Lithium
