/-
# The address a trap returns to

`kerneltrap` once more, for all the processes of one hart: `sepc` is one register, every trap
overwrites it, and `kerneltrap` writes it for an `ecall` before it calls `syscall`, and never after
that.  `yield` and a system call may switch to another process inside `kerneltrap`; the other one
takes traps of its own meanwhile.

`scheduler` never returns as it is written.  Here it returns once its process is dispatched.
-/
import Lithium.Sys.Syscall
import Lithium.Trap.Kerneltrap

namespace Lithium

open Transition

/-! ## 1. Data -/

/-- What the hardware tells of a trap: the registers `scause` and `sepc`. -/
structure Trap where
  scause : Word
  sepc : Word

/-- It is an `ecall`. -/
def Trap.ecall (t : Trap) : Bool :=
  t.scause == scauseEcallUser || t.scause == scauseEcallSupervisor

/-- Where the interrupted code is to go on: at the address of the trap, or behind the `ecall`. -/
def Trap.resume (t : Trap) : Word := if t.ecall then t.sepc + 4 else t.sepc

/-- Where an invocation of `kerneltrap` is. -/
inductive TrapStage where
  /-- It has read the registers. -/
  | entry
  /-- Before `syscall()`. -/
  | syscall
  /-- In `scheduler`; the result of a system call, if it is called from one. -/
  | switched (ret : Option (BitVec 32))
  /-- In the last loop of `exit`. -/
  | exited
  /-- Before its return. -/
  | leave

/-- An invocation of `kerneltrap`. -/
structure TrapCall where
  trap : Trap
  stage : TrapStage

/-- An invocation that has returned, with what was in `sepc` then. -/
structure TrapReturn where
  proc : ProcRef
  trap : Trap
  sepc : Word

/-- The kernel, the register `sepc`, and the invocations of `kerneltrap` each process is in, the
innermost first.  `last` is the trap taken last, and `returns` the invocations that have
returned. -/
structure SepcState where
  kernel : Kernel
  sepc : Word
  calls : ProcRef → List TrapCall
  last : Option Trap
  returns : List TrapReturn

/-- What happens next on the hart. -/
inductive SepcOp where
  /-- The current process takes a trap. -/
  | trap (t : Trap)
  /-- Its innermost `kerneltrap` goes on. -/
  | next
  /-- `scheduler` finds `q` runnable. -/
  | dispatch (q : ProcRef)
  /-- The code that runs calls `wakeup`. -/
  | wakeup

namespace SepcState

/-! ## 2. `kerneltrap` -/

/-- The invocations `p` is in. -/
def setCalls (s : SepcState) (p : ProcRef) (cs : List TrapCall) : SepcState :=
  { s with calls := Function.update s.calls p cs }

/-- `kerneltrap` looks at `scause`. -/
def enter (s : SepcState) (p : ProcRef) (t : Trap) (cs : List TrapCall) : Option SepcState :=
  if t.scause &&& scauseInterruptBit ≠ 0 then
    if t.scause &&& ~~~scauseInterruptBit = 5 then
      some ({ s with kernel := s.kernel.yield }.setCalls p (⟨t, .switched none⟩ :: cs))
    else some (s.setCalls p (⟨t, .leave⟩ :: cs))
  else if t.scause = scauseEcallUser ∨ t.scause = scauseEcallSupervisor then
    some ({ s with sepc := t.sepc + 4 }.setCalls p (⟨t, .syscall⟩ :: cs))
  else none

/-- `syscall()`; an entry that is free afterwards is in no invocation. -/
def callSyscall (s : SepcState) (p : ProcRef) (t : Trap) (cs : List TrapCall) : SepcState :=
  let call := s.kernel.syscall
  let stage := match call.fin with
    | .returns _ => TrapStage.leave
    | .switches ret => .switched (some ret)
    | .exits => .exited
  { s with
    kernel := call.kernel
    calls := fun q =>
      if q = p then ⟨t, stage⟩ :: cs
      else if (call.kernel.procTable q).state = .unused then [] else s.calls q }

/-- The next step of the innermost invocation. -/
def advance (s : SepcState) (p : ProcRef) (t : Trap) (cs : List TrapCall) :
    TrapStage → Option SepcState
  | .entry => s.enter p t cs
  | .syscall => some (s.callSyscall p t cs)
  | .switched ret =>
    if (s.kernel.procTable p).state = .running then
      some ({ s with kernel := ret.elim s.kernel (s.kernel.setResult p) }.setCalls p
        (⟨t, .leave⟩ :: cs))
    else none
  | .exited => none
  | .leave => some ({ s with returns := ⟨p, t, s.sepc⟩ :: s.returns }.setCalls p cs)

/-- A trap may be taken: `kerneltrap` is not at its beginning. -/
def trappable : List TrapCall → Bool
  | ⟨_, .entry⟩ :: _ => false
  | _ => true

/-- The hart is in the loop of `scheduler`. -/
def scheduling : List TrapCall → Bool
  | ⟨_, .switched _⟩ :: _ => true
  | _ => false

/-- One step. -/
def step (s : SepcState) (op : SepcOp) : Option SepcState :=
  match s.kernel.currentProcess with
  | none => none
  | some p =>
    match op with
    | .trap t =>
      if trappable (s.calls p) then
        some ({ s with sepc := t.sepc, last := some t }.setCalls p (⟨t, .entry⟩ :: s.calls p))
      else none
    | .next =>
      match s.calls p with
      | [] => none
      | c :: cs => s.advance p c.trap cs c.stage
    | .dispatch q =>
      if scheduling (s.calls p) ∧ (s.kernel.procTable q).state = .runnable then
        some { s with kernel := s.kernel.dispatch q }
      else none
    | .wakeup => some { s with kernel := s.kernel.wakeup }

/-- No process is in `kerneltrap`. -/
def init (k : Kernel) (sepc : Word) : SepcState := ⟨k, sepc, fun _ => [], none, []⟩

/-- Every `kerneltrap` that has returned has left the address in `sepc` that its process is to go
on at. -/
def ResumesOwn (s : SepcState) : Prop := ∀ r ∈ s.returns, r.sepc = r.trap.resume

/-- The condition on a step: when `kerneltrap` returns, the trap taken last resumes where this one
does. -/
def LastTrapAgrees (s : SepcState) : SepcOp → Prop
  | .next => ∀ p t cs, s.kernel.currentProcess = some p → s.calls p = ⟨t, .leave⟩ :: cs →
      s.last.map Trap.resume = some t.resume
  | _ => True

/-! ## 3. What is in `sepc` -/

/-- No invocation is at its beginning: `sepc` has the address where the last trap resumes. -/
structure Settled (s : SepcState) : Prop where
  past : ∀ q, ∀ c ∈ s.calls q, c.stage ≠ .entry
  sepc : ∀ q, s.calls q ≠ [] → ∃ t, s.last = some t ∧ s.sepc = t.resume

/-- The current process has just taken a trap. -/
structure Entering (s : SepcState) (p : ProcRef) (t : Trap) (cs : List TrapCall) : Prop where
  current : s.kernel.currentProcess = some p
  calls : s.calls p = ⟨t, .entry⟩ :: cs
  last : s.last = some t
  sepc : s.sepc = t.sepc
  below : ∀ c ∈ cs, c.stage ≠ .entry
  others : ∀ q, q ≠ p → ∀ c ∈ s.calls q, c.stage ≠ .entry

/-- One of the two. -/
def Inv (s : SepcState) : Prop := s.Settled ∨ ∃ p t cs, s.Entering p t cs

variable {s s' : SepcState} {p : ProcRef} {t : Trap} {cs : List TrapCall} {st : TrapStage}

theorem setCalls_of_ne (s : SepcState) {p q : ProcRef} (h : q ≠ p) (cs : List TrapCall) :
    (s.setCalls p cs).calls q = s.calls q := Function.update_of_ne h _ _

theorem mem_setCalls {c : TrapCall} {q : ProcRef} (h : c ∈ Function.update s.calls p cs q) :
    c ∈ cs ∨ q ≠ p ∧ c ∈ s.calls q := by
  by_cases hq : q = p
  · subst hq
    rw [Function.update_self] at h
    exact .inl h
  · rw [Function.update_of_ne hq] at h
    exact .inr ⟨hq, h⟩

/-- An interrupt is no `ecall`. -/
theorem resume_of_interrupt (h : t.scause &&& scauseInterruptBit ≠ 0) : t.resume = t.sepc := by
  have hecall : t.ecall = false := by
    rw [Trap.ecall, Bool.or_eq_false_iff, beq_eq_false_iff_ne, beq_eq_false_iff_ne]
    constructor
    · intro he
      exact h (by rw [he]; decide)
    · intro he
      exact h (by rw [he]; decide)
  rw [Trap.resume, hecall]
  rfl

/-- **`kerneltrap` looks at `scause`.** -/
theorem Entering.enter (h : s.Entering p t cs) (hs : s.enter p t cs = some s') :
    s'.Settled ∧ s'.returns = s.returns := by
  -- the invocation goes on behind its beginning, with its own address in `sepc`
  have key : ∀ (k : Kernel) (x : Word) (st : TrapStage), x = t.resume → st ≠ .entry →
      ({ s with kernel := k, sepc := x }.setCalls p (⟨t, st⟩ :: cs)).Settled := by
    intro k x st hx hst
    refine ⟨fun q c hc => ?_, fun q _ => ⟨t, h.last, hx⟩⟩
    rcases mem_setCalls hc with hc | ⟨hq, hc⟩
    · rcases List.mem_cons.mp hc with rfl | hc
      · exact hst
      · exact h.below c hc
    · exact h.others q hq c hc
  unfold SepcState.enter at hs
  by_cases hbit : t.scause &&& scauseInterruptBit ≠ 0
  · have hresume : s.sepc = t.resume := by rw [h.sepc, resume_of_interrupt hbit]
    rw [if_pos hbit] at hs
    split at hs
    · obtain rfl := Option.some.inj hs
      exact ⟨key _ _ _ hresume (by simp), rfl⟩
    · obtain rfl := Option.some.inj hs
      exact ⟨key s.kernel _ _ hresume (by simp), rfl⟩
  · rw [if_neg hbit, Option.ite_none_right_eq_some] at hs
    obtain ⟨hcause, hs⟩ := hs
    obtain rfl := Option.some.inj hs
    have hecall : t.ecall = true := by
      rw [Trap.ecall, Bool.or_eq_true, beq_iff_eq, beq_iff_eq]
      exact hcause
    exact ⟨key s.kernel _ _ (by rw [Trap.resume, if_pos hecall]) (by simp), rfl⟩

/-- A step of an invocation that is past its beginning and does not return. -/
theorem Settled.advance (h : s.Settled) (hp : s.calls p = ⟨t, st⟩ :: cs) (hleave : st ≠ .leave)
    (hs : s.advance p t cs st = some s') : s'.Settled ∧ s'.returns = s.returns := by
  have hne : s.calls p ≠ [] := by simp [hp]
  have hcs : ∀ c ∈ cs, c.stage ≠ .entry := fun c hc => h.past p c (by simp [hp, hc])
  cases st with
  | entry => exact absurd rfl (h.past p ⟨t, .entry⟩ (by simp [hp]))
  | exited => cases hs
  | leave => exact absurd rfl hleave
  | syscall =>
    obtain rfl := Option.some.inj hs
    refine ⟨⟨fun q c hc => ?_, fun q _ => h.sepc p hne⟩, rfl⟩
    simp only [callSyscall] at hc
    split at hc
    · rcases List.mem_cons.mp hc with rfl | hc
      · dsimp only
        split <;> simp
      · exact hcs c hc
    · split at hc
      · exact absurd hc List.not_mem_nil
      · exact h.past q c hc
  | switched ret =>
    obtain ⟨-, hs⟩ := Option.ite_none_right_eq_some.mp hs
    obtain rfl := Option.some.inj hs
    refine ⟨⟨fun q c hc => ?_, fun q _ => h.sepc p hne⟩, rfl⟩
    rcases mem_setCalls hc with hc | ⟨-, hc⟩
    · rcases List.mem_cons.mp hc with rfl | hc
      · simp
      · exact hcs c hc
    · exact h.past q c hc

/-- An invocation returns. -/
theorem Settled.leave (h : s.Settled) (hp : s.calls p = ⟨t, .leave⟩ :: cs) :
    ({ s with returns := ⟨p, t, s.sepc⟩ :: s.returns }.setCalls p cs).Settled := by
  refine ⟨fun q c hc => ?_, fun q _ => h.sepc p (by simp [hp])⟩
  rcases mem_setCalls hc with hc | ⟨-, hc⟩
  · exact h.past p c (by simp [hp, hc])
  · exact h.past q c hc

/-- **A trap is taken.** -/
theorem Settled.trap (h : s.Settled) (hcur : s.kernel.currentProcess = some p) (t : Trap) :
    ({ s with sepc := t.sepc, last := some t }.setCalls p (⟨t, .entry⟩ :: s.calls p)).Entering p t
      (s.calls p) where
  current := hcur
  calls := Function.update_self _ _ _
  last := rfl
  sepc := rfl
  below := h.past p
  others q hq c hc := by
    rw [setCalls_of_ne _ hq] at hc
    exact h.past q c hc

/-- Where the innermost invocation of the current process is not at its beginning, none is. -/
theorem Inv.settled (h : Inv s) (hcur : s.kernel.currentProcess = some p)
    (hpast : trappable (s.calls p) = true) : s.Settled := by
  rcases h with h | ⟨q, t, cs, h⟩
  · exact h
  · obtain rfl := Option.some.inj (hcur.symm.trans h.current)
    rw [h.calls] at hpast
    cases hpast

/-- **The invariant, and what a step returns**: an invocation returns with what is in `sepc`, or
none does. -/
theorem Inv.step {op : SepcOp} (h : Inv s) (hs : s.step op = some s') :
    Inv s' ∧ ((∃ p t cs, op = .next ∧ s.Settled ∧ s.kernel.currentProcess = some p ∧
        s.calls p = ⟨t, .leave⟩ :: cs ∧ s'.returns = ⟨p, t, s.sepc⟩ :: s.returns) ∨
      s'.returns = s.returns ∧ s.LastTrapAgrees op) := by
  unfold SepcState.step at hs
  cases hcur : s.kernel.currentProcess with
  | none => simp [hcur] at hs
  | some p =>
    simp only [hcur] at hs
    cases op with
    | trap t =>
      obtain ⟨hpast, hs⟩ := Option.ite_none_right_eq_some.mp hs
      obtain rfl := Option.some.inj hs
      exact ⟨.inr ⟨p, t, _, (h.settled hcur hpast).trap hcur t⟩, .inr ⟨rfl, trivial⟩⟩
    | wakeup =>
      obtain rfl := Option.some.inj hs
      refine ⟨?_, .inr ⟨rfl, trivial⟩⟩
      rcases h with h | ⟨q, t, cs, h⟩
      · exact .inl { h with }
      · exact .inr ⟨q, t, cs, { h with }⟩
    | dispatch q =>
      obtain ⟨⟨hsched, -⟩, hs⟩ := Option.ite_none_right_eq_some.mp hs
      obtain rfl := Option.some.inj hs
      have hpast : trappable (s.calls p) = true := by
        unfold scheduling at hsched
        split at hsched
        · rename_i hp
          rw [hp]
          rfl
        · cases hsched
      have hsettled := h.settled hcur hpast
      exact ⟨.inl { hsettled with }, .inr ⟨rfl, trivial⟩⟩
    | next =>
      cases hp : s.calls p with
      | nil => simp [hp] at hs
      | cons c cs =>
        obtain ⟨t, st⟩ := c
        simp only [hp] at hs
        have hagrees : (∀ t cs, s.calls p ≠ ⟨t, .leave⟩ :: cs) → s.LastTrapAgrees .next := by
          intro hne q t cs hq hcalls
          obtain rfl := Option.some.inj (hcur.symm.trans hq)
          exact absurd hcalls (hne t cs)
        cases st with
        | entry =>
          rcases h with h | ⟨q, t', cs', h⟩
          · exact absurd rfl (h.past p ⟨t, .entry⟩ (by simp [hp]))
          · obtain rfl := Option.some.inj (hcur.symm.trans h.current)
            have hcalls := hp.symm.trans h.calls
            simp only [List.cons.injEq, TrapCall.mk.injEq, and_true] at hcalls
            obtain ⟨rfl, rfl⟩ := hcalls
            obtain ⟨hsettled, hreturns⟩ := h.enter hs
            exact ⟨.inl hsettled, .inr ⟨hreturns, hagrees (by simp [hp])⟩⟩
        | leave =>
          have hsettled := h.settled hcur (by rw [hp]; rfl)
          obtain rfl := Option.some.inj hs
          exact ⟨.inl (hsettled.leave hp), .inl ⟨p, t, cs, rfl, hsettled, hcur.symm ▸ rfl, hp, rfl⟩⟩
        | _ =>
          have hsettled := h.settled hcur (by rw [hp]; rfl)
          obtain ⟨hsettled', hreturns⟩ := hsettled.advance hp (by simp) hs
          exact ⟨.inl hsettled', .inr ⟨hreturns, hagrees (by simp [hp])⟩⟩

/-! ## 4. When a trap returns where it came from -/

/-- **One step.** -/
theorem resumesOwn_step_iff {op : SepcOp} (h : Inv s) (hok : s.ResumesOwn)
    (hs : s.step op = some s') : s'.ResumesOwn ↔ s.LastTrapAgrees op := by
  rcases (h.step hs).2 with ⟨p, t, cs, rfl, hsettled, hcur, hp, hreturns⟩ | ⟨hreturns, hagrees⟩
  · obtain ⟨last, hlast, hsepc⟩ := hsettled.sepc p (by simp [hp])
    constructor
    · intro hok' q t' cs' hq hcalls
      obtain rfl := Option.some.inj (hcur.symm.trans hq)
      have hcons := hp.symm.trans hcalls
      simp only [List.cons.injEq, TrapCall.mk.injEq, and_true] at hcons
      obtain ⟨rfl, rfl⟩ := hcons
      have hreturn : s.sepc = t.resume := hok' ⟨p, t, s.sepc⟩ (by simp [hreturns])
      rw [hlast, Option.map_some, ← hsepc, hreturn]
    · intro hagrees r hr
      have hresume := hagrees p t cs hcur hp
      rw [hlast, Option.map_some, Option.some.injEq] at hresume
      rw [hreturns] at hr
      rcases List.mem_cons.mp hr with rfl | hr
      · exact hsepc.trans hresume
      · exact hok r hr
  · rw [ResumesOwn, hreturns]
    exact ⟨fun _ => hagrees, fun _ => hok⟩

/-- **`kerneltrap` leaves the address of its own process in `sepc`, in a whole run, exactly when at
each of its returns the trap taken last resumes at the same address**: no other process may have
trapped anywhere else since it was entered. -/
theorem resumesOwn_iff (k : Kernel) (sepc : Word) (ops : List SepcOp) :
    Always step ResumesOwn (init k sepc) ops ↔ EachStep step LastTrapAgrees (init k sepc) ops := by
  have hstep : ∀ s op s', Inv s → ResumesOwn s → step s op = some s' →
      (ResumesOwn s' ↔ LastTrapAgrees s op) ∧ (ResumesOwn s' → Inv s') :=
    fun s op s' h hok hs => ⟨resumesOwn_step_iff h hok hs, fun _ => (h.step hs).1⟩
  refine always_iff_eachStep hstep ops _ ?_ ?_
  · exact .inl ⟨fun _ _ hc => absurd hc List.not_mem_nil, fun _ hq => absurd rfl hq⟩
  · exact fun _ hr => absurd hr List.not_mem_nil

/-- Two processes; the first one has the hart. -/
def twoProcs : Kernel :=
  { Kernel.fresh (.boot 0x80001000 fun _ => 0) with
    procTable := fun i =>
      { Proc.zero with state := if i = 0 then .running else if i = 1 then .runnable else .unused }
    currentProcess := some 0 }

/-- A timer interrupt. -/
def timerTrap (sepc : Word) : Trap := ⟨scauseInterruptBit ||| 5, sepc⟩

/-- The timer interrupts the first process, then the second one; then the first one goes on. -/
def twoTimers : List SepcOp :=
  [.trap (timerTrap 0x80001000), .next, .dispatch 1, .trap (timerTrap 0x80002000), .next,
    .dispatch 0, .next, .next]

/-- The first process goes on where the second one was interrupted. -/
theorem trap_returns_elsewhere : ¬ ∀ (k : Kernel) (sepc : Word) (ops : List SepcOp),
    Always step ResumesOwn (init k sepc) ops := by
  intro h
  have hrun : (run step (init twoProcs 0) twoTimers).any (fun s =>
      s.returns.any fun r => r.sepc != r.trap.resume) = true := by
    decide +kernel
  obtain ⟨s, hs, hany⟩ := (Option.any_eq_true _ _).mp hrun
  obtain ⟨r, hr, hne⟩ := List.any_eq_true.mp hany
  have hok := always_iff_reachable.mp (h twoProcs 0) s ⟨twoTimers, hs⟩ r hr
  rw [bne_iff_ne] at hne
  exact hne hok

end SepcState

end Lithium
