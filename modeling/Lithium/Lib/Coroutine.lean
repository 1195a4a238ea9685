/-
# Commands on several stacks

A small imperative language whose commands are run by several stacks in turn.  One stack runs;
the others are saved under names, and `switch old new` saves the running stack under `old` and
goes on with the one saved under `new`, as an assembly routine that changes contexts does.  A
call leaves a mark under the body of the function, which comes to the top when the body has
ended: that is where the function returns.

`Diverges J c` says of a command, by its shape alone, that it never ends as long as the states
satisfy `J`: `while (1)` does, and what has to pass one.  The rule is `never_returns`: a function
whose body diverges never returns, on no stack and however the stacks take turns.
-/
import Lithium.Lib.Transition
import Mathlib.Logic.Function.Basic
import Mathlib.Tactic.Common

namespace Lithium.Coroutine

variable {S A P R : Type*}

/-! ## 1. Commands -/

/-- Commands over the states `S`, with the actions `A` and stacks named by `P`. -/
inductive Cmd (S A P : Type*) where
  | skip
  | act (a : A)
  | seq (c d : Cmd S A P)
  /-- What comes next depends on the state: a test, or the value of a local variable. -/
  | bind (f : S → Cmd S A P)
  /-- `for (i = 0; i < n; i++)`, for a body that does not look at `i`. -/
  | rep (n : Nat) (c : Cmd S A P)
  /-- `while (1)`. -/
  | loop (c : Cmd S A P)
  | switch (old : Option P) (new : P)

/-- What the actions do, where `none` never ends, and the bodies of the functions `R`. -/
structure Program (S A P R : Type*) where
  exec : A → S → Option S
  body : R → Cmd S A P

/-- An entry of a stack. -/
inductive Frame (S A P R : Type*) where
  | run (c : Cmd S A P)
  | ret (r : R)

/-- The state, the running stack and the saved ones.  Where a stack is empty, code runs that is
not part of the program. -/
structure Config (S A P R : Type*) where
  state : S
  stack : List (Frame S A P R)
  saved : P → List (Frame S A P R)

/-- A step of the running stack, or a call of a function: by the code that runs, or by an
interrupt. -/
inductive Op (R : Type*) where
  | next
  | call (r : R)

variable [DecidableEq P]

/-- The running stack is saved under `old`, and the one under `new` runs. -/
def Config.switchTo (m : Config S A P R) (old : Option P) (new : P) : Config S A P R :=
  let saved := old.elim m.saved fun p => Function.update m.saved p m.stack
  { m with stack := saved new, saved := saved }

/-- The next step of the running stack, for the command on top of it. -/
def runCmd (prog : Program S A P R) (m : Config S A P R) : Cmd S A P → Option (Config S A P R)
  | .skip => some m
  | .act a => (prog.exec a m.state).map fun s => { m with state := s }
  | .seq c d => some { m with stack := .run c :: .run d :: m.stack }
  | .bind f => some { m with stack := .run (f m.state) :: m.stack }
  | .rep 0 _ => some m
  | .rep (n + 1) c => some { m with stack := .run c :: .run (.rep n c) :: m.stack }
  | .loop c => some { m with stack := .run c :: .run (.loop c) :: m.stack }
  | .switch old new => some (m.switchTo old new)

/-- One step. -/
def step (prog : Program S A P R) (m : Config S A P R) : Op R → Option (Config S A P R)
  | .call r => some { m with stack := .run (prog.body r) :: .ret r :: m.stack }
  | .next =>
    match m.stack with
    | [] => none
    | .ret _ :: k => some { m with stack := k }
    | .run c :: k => runCmd prog { m with stack := k } c

/-! ## 2. What never ends -/

/-- From states with `J`, the command never ends. -/
def Diverges (J : S → Prop) : Cmd S A P → Prop
  | .skip => False
  | .act _ => False
  | .seq c d => Diverges J c ∨ Diverges J d
  | .bind f => ∀ s, J s → Diverges J (f s)
  | .rep 0 _ => False
  | .rep (_ + 1) c => Diverges J c
  | .loop _ => True
  | .switch _ _ => False

/-- None of the marks `N` comes to the top of the stack: a command that diverges is above it. -/
def Trapped (J : S → Prop) (N : R → Prop) : List (Frame S A P R) → Prop
  | [] => True
  | .ret r :: k => ¬ N r ∧ Trapped J N k
  | .run c :: k => Diverges J c ∨ Trapped J N k

/-- Every stack is trapped, and the state satisfies `J`. -/
structure AllTrapped (J : S → Prop) (N : R → Prop) (m : Config S A P R) : Prop where
  state : J m.state
  running : Trapped J N m.stack
  saved : ∀ p, Trapped J N (m.saved p)

variable {prog : Program S A P R} {J : S → Prop} {N : R → Prop}

/-- A change of stacks. -/
theorem AllTrapped.switchTo {m : Config S A P R} (h : AllTrapped J N m) (old : Option P)
    (new : P) : AllTrapped J N (m.switchTo old new) := by
  have hall : ∀ p, Trapped J N
      ((old.elim m.saved fun q => Function.update m.saved q m.stack) p) := by
    intro p
    cases old with
    | none => exact h.saved p
    | some q =>
      rw [Option.elim_some]
      by_cases hp : p = q
      · rw [hp, Function.update_self]
        exact h.running
      · rw [Function.update_of_ne hp]
        exact h.saved p
  exact ⟨h.state, hall new, hall⟩

/-- The command on top of the stack `m.stack`, when one of the two diverges or is trapped. -/
theorem AllTrapped.runCmd {m m' : Config S A P R} {c : Cmd S A P} (hstate : J m.state)
    (hrun : Diverges J c ∨ Trapped J N m.stack) (hsaved : ∀ p, Trapped J N (m.saved p))
    (hJ : ∀ a s s', J s → prog.exec a s = some s' → J s')
    (hs : runCmd prog m c = some m') : AllTrapped J N m' := by
  cases c with
  | skip => exact Option.some.inj hs ▸ ⟨hstate, hrun.resolve_left id, hsaved⟩
  | act a =>
    obtain ⟨s, hexec, rfl⟩ := Option.map_eq_some_iff.mp hs
    exact ⟨hJ _ _ _ hstate hexec, hrun.resolve_left id, hsaved⟩
  | seq c d => exact Option.some.inj hs ▸ ⟨hstate, or_assoc.mp hrun, hsaved⟩
  | bind f => exact Option.some.inj hs ▸ ⟨hstate, hrun.imp_left fun hf => hf _ hstate, hsaved⟩
  | rep n c =>
    cases n with
    | zero => exact Option.some.inj hs ▸ ⟨hstate, hrun.resolve_left id, hsaved⟩
    | succ n => exact Option.some.inj hs ▸ ⟨hstate, hrun.imp_right Or.inr, hsaved⟩
  | loop c => exact Option.some.inj hs ▸ ⟨hstate, Or.inr (Or.inl trivial), hsaved⟩
  | switch old new =>
    have htrapped : AllTrapped J N m := ⟨hstate, hrun.resolve_left id, hsaved⟩
    exact Option.some.inj hs ▸ htrapped.switchTo old new

/-- One step of a program whose actions keep `J` and whose functions `N` diverge. -/
theorem AllTrapped.step {m m' : Config S A P R} {op : Op R} (h : AllTrapped J N m)
    (hJ : ∀ a s s', J s → prog.exec a s = some s' → J s')
    (hN : ∀ r, N r → Diverges J (prog.body r)) (hs : step prog m op = some m') :
    AllTrapped J N m' := by
  obtain ⟨hstate, hrun, hsaved⟩ := h
  cases op with
  | call r =>
    simp only [Coroutine.step, Option.some.injEq] at hs
    subst hs
    refine ⟨hstate, ?_, hsaved⟩
    by_cases hr : N r
    · exact Or.inl (hN r hr)
    · exact Or.inr ⟨hr, hrun⟩
  | next =>
    simp only [Coroutine.step] at hs
    split at hs
    case h_1 => exact absurd hs (by simp)
    case h_2 r k hstack =>
      rw [hstack] at hrun
      exact Option.some.inj hs ▸ ⟨hstate, hrun.2, hsaved⟩
    case h_3 c k hstack =>
      rw [hstack] at hrun
      exact AllTrapped.runCmd (m := { m with stack := k }) hstate hrun hsaved hJ hs

/-- **A function whose body diverges never returns**, in no run from a state without calls. -/
theorem never_returns (hJ : ∀ a s s', J s → prog.exec a s = some s' → J s')
    (hN : ∀ r, N r → Diverges J (prog.body r)) {s : S} (hs : J s) (ops : List (Op R)) :
    Transition.Always (step prog) (fun m => ∀ r k, m.stack = .ret r :: k → ¬ N r)
      ⟨s, [], fun _ => []⟩ ops := by
  have hinit : AllTrapped J N (⟨s, [], fun _ => []⟩ : Config S A P R) :=
    ⟨hs, trivial, fun _ => trivial⟩
  refine Transition.Always.mono ?_ (Transition.always_of_inv
    (fun _ _ _ hm hm' => AllTrapped.step hm hJ hN hm') ops _ hinit)
  intro m hm r k hstack
  have hrun := hm.running
  rw [hstack] at hrun
  exact hrun.1

end Lithium.Coroutine
