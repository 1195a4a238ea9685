/-
# Is the reservation of `log_begin_op` sufficient?

Any number of processes run operations: `log_begin_op`, some calls of `log_write`, `log_end_op`.
Each of these is one critical section under `log.lock`, and the sections interleave freely; a
process whose `log_end_op` ended the last operation commits between two sections of its own.

`log_begin_op` admits an operation as long as `LOGSIZE` blocks hold what is in the log and
`MAXOPBLOCKS` more for every operation, but `log_write` refuses already at `log.size - 1`, which
is one less.  Section 3 says which runs lose no write: those in which no `log_write` comes when
`LOGSIZE - 1` distinct blocks have been written since the last commit.
-/
import Lithium.Fs.Log
import Lithium.Lib.Transition
import Mathlib.Logic.Function.Basic

namespace Lithium

variable {ι : Type*} [DecidableEq ι]

/-! ## 1. The machine -/

/-- An operation in progress: its process, and the distinct blocks it has passed to
`log_write`. -/
structure FsOp (ι : Type*) where
  proc : ι
  blocks : List BlockNo
  deriving DecidableEq

/-- Add a block to a list of distinct blocks. -/
def addBlock (bs : List BlockNo) (b : BlockNo) : List BlockNo :=
  if bs.contains b then bs else bs ++ [b]

/-- The log, the operations in progress, the process committing and the process that has
committed, and the pins of the buffers.  `written` and `refused` are history: the distinct blocks
passed to `log_write` since the last commit, and how often the answer was `"log plein"`. -/
structure ReserveState (ι : Type*) where
  log : Log
  ops : List (FsOp ι)
  committer : Option ι
  finisher : Option ι
  pins : BlockNo → Nat
  written : List BlockNo
  refused : Nat

/-- One section of one call; `commit` may leave pins behind where it skips a block. -/
inductive ReserveOp (ι : Type*) where
  | begin (i : ι)
  | write (o : FsOp ι) (b : BlockNo)
  | endOp (o : FsOp ι)
  | commit (i : ι) (skipped : BlockNo → Bool)
  | finish (i : ι)

namespace ReserveState

/-- One section of one call; `none` when the process is not at that point, sleeps, or has used up
its `MAXOPBLOCKS` distinct blocks. -/
def step (s : ReserveState ι) : ReserveOp ι → Option (ReserveState ι)
  | .begin i =>
    if (∀ o ∈ s.ops, o.proc ≠ i) ∧ s.committer ≠ some i ∧ s.finisher ≠ some i then
      s.log.beginOp.map fun l => { s with log := l, ops := ⟨i, []⟩ :: s.ops }
    else none
  | .write o b =>
    if o ∈ s.ops ∧ (addBlock o.blocks b).length ≤ maxOpBlocks then
      some { s with
        log := (s.log.write b).1
        ops := { o with blocks := addBlock o.blocks b } :: s.ops.erase o
        pins := if (s.log.write b).2 = .recorded then Function.update s.pins b (s.pins b + 1)
          else s.pins
        written := addBlock s.written b
        refused := if (s.log.write b).2 = .full then s.refused + 1 else s.refused }
    else none
  | .endOp o =>
    if o ∈ s.ops then
      some { s with
        log := s.log.endOp.1
        ops := s.ops.erase o
        committer := if s.log.endOp.2 then some o.proc else s.committer }
    else none
  | .commit i skipped =>
    if s.committer = some i then
      some { s with
        log := { s.log with lh := [] }
        committer := none
        finisher := some i
        pins := fun b => if s.log.lh.contains b && !skipped b then s.pins b - 1 else s.pins b
        written := [] }
    else none
  | .finish i =>
    if s.finisher = some i then some { s with log := s.log.endCommit, finisher := none } else none

/-- After `log_init(dev, 2, LOGSIZE)`. -/
def init : ReserveState ι where
  log := { start := 2, size := logSize, outstanding := 0, committing := false, lh := [] }
  ops := []
  committer := none
  finisher := none
  pins := fun _ => 0
  written := []
  refused := 0

/-- **No write is lost**: none was refused as `"log plein"`, and every block written since the
last commit is in the log, its buffer pinned. -/
structure NoLoss (s : ReserveState ι) : Prop where
  accepted : s.refused = 0
  recorded : ∀ b ∈ s.written, b ∈ s.log.lh ∧ 0 < s.pins b

/-- The condition on a step: `log_write` is called when fewer than `LOGSIZE - 1` distinct blocks
have been written since the last commit. -/
def Room (s : ReserveState ι) : ReserveOp ι → Prop
  | .write _ _ => s.written.length < logSize - 1
  | _ => True

/-! ## 2. What the sections keep -/

/-- The log has the size `fs_init` gave it, `outstanding` counts the operations, and the log
holds what was written. -/
structure LogOk (s : ReserveState ι) : Prop where
  size : s.log.size = logSize
  counted : s.log.outstanding = s.ops.length
  logged : s.log.lh = s.written

omit [DecidableEq ι] in
theorem init_logOk : LogOk (init : ReserveState ι) := ⟨rfl, rfl, rfl⟩

omit [DecidableEq ι] in
theorem init_noLoss : NoLoss (init : ReserveState ι) := by
  refine ⟨rfl, ?_⟩
  intro b hb
  exact absurd hb (by simp [init])

/-- `log_write`, with room left: nothing is lost. -/
theorem write_keeps {s s' : ReserveState ι} {o : FsOp ι} {b : BlockNo} (hok : LogOk s)
    (hnl : NoLoss s) (hs : s.step (.write o b) = some s')
    (hroom : s.written.length < logSize - 1) : LogOk s' ∧ NoLoss s' := by
  unfold step at hs
  rw [Option.ite_none_right_eq_some, Option.some.injEq] at hs
  obtain ⟨⟨ho, -⟩, rfl⟩ := hs
  have hpos := List.length_pos_of_mem ho
  have hout : 1 ≤ s.log.outstanding := by
    rw [hok.counted]
    omega
  have hlen : (List.length (s.ops.erase o) : Int) + 1 = s.ops.length := by
    rw [List.length_erase_of_mem ho]
    omega
  have hw := Log.write_of_room b hok.size hout (by rw [hok.logged]; exact hroom)
  by_cases hmem : b ∈ s.log.lh
  · -- absorbed: the block is in the log, and was written before
    rw [if_pos hmem] at hw
    have hadd : addBlock s.written b = s.written :=
      if_pos (List.contains_iff_mem.mpr (hok.logged ▸ hmem))
    rw [hw, hadd]
    refine ⟨⟨hok.size, ?_, hok.logged⟩, ⟨hnl.accepted, hnl.recorded⟩⟩
    rw [List.length_cons, hok.counted]
    omega
  · rw [if_neg hmem] at hw
    have hadd : addBlock s.written b = s.written ++ [b] :=
      if_neg (fun hc => hmem (hok.logged ▸ List.contains_iff_mem.mp hc))
    rw [hw, hadd]
    refine ⟨⟨hok.size, ?_, ?_⟩, ⟨hnl.accepted, ?_⟩⟩
    · rw [List.length_cons]
      change s.log.outstanding = _
      rw [hok.counted]
      omega
    · change s.log.lh ++ [b] = _
      rw [hok.logged]
    · intro b' hb'
      simp only [if_true]
      rcases List.mem_append.mp hb' with hb' | hb'
      · obtain ⟨hin, hpin⟩ := hnl.recorded b' hb'
        have hne : b' ≠ b := by
          rintro rfl
          exact hmem hin
        rw [Function.update_of_ne hne]
        exact ⟨List.mem_append_left _ hin, hpin⟩
      · rw [List.mem_singleton.mp hb', Function.update_self]
        exact ⟨List.mem_append_right _ (List.mem_singleton_self b), Nat.succ_pos _⟩

/-- `log_write`, without room left: the write is refused. -/
theorem write_loses {s s' : ReserveState ι} {o : FsOp ι} {b : BlockNo} (hok : LogOk s)
    (hs : s.step (.write o b) = some s') (hfull : ¬ s.written.length < logSize - 1) :
    ¬ NoLoss s' := by
  unfold step at hs
  rw [Option.ite_none_right_eq_some, Option.some.injEq] at hs
  obtain ⟨-, rfl⟩ := hs
  have hw := Log.write_of_full b hok.size (by rw [hok.logged]; exact hfull)
  intro hnl
  have := hnl.accepted
  rw [hw] at this
  simp at this

/-- **One section.**  As long as nothing was lost, it keeps the log in order and loses nothing,
except a `log_write` that finds no room. -/
theorem step_spec {s s' : ReserveState ι} {r : ReserveOp ι} (hok : LogOk s) (hnl : NoLoss s)
    (hs : s.step r = some s') : (NoLoss s' ↔ Room s r) ∧ (NoLoss s' → LogOk s') := by
  have keep : LogOk s' ∧ NoLoss s' → Room s r → (NoLoss s' ↔ Room s r) ∧ (NoLoss s' → LogOk s') :=
    fun hk hr => ⟨iff_of_true hk.2 hr, fun _ => hk.1⟩
  cases r with
  | begin i =>
    unfold step at hs
    rw [Option.ite_none_right_eq_some, Option.map_eq_some_iff] at hs
    obtain ⟨-, l, hl, rfl⟩ := hs
    obtain ⟨-, rfl⟩ := Log.beginOp_cases hl
    refine keep ⟨⟨hok.size, ?_, hok.logged⟩, ⟨hnl.accepted, hnl.recorded⟩⟩ trivial
    rw [List.length_cons]
    change s.log.outstanding + 1 = _
    rw [hok.counted]
    omega
  | write o b =>
    by_cases hroom : s.written.length < logSize - 1
    · exact keep (write_keeps hok hnl hs hroom) hroom
    · have hlost := write_loses hok hs hroom
      exact ⟨iff_of_false hlost hroom, fun h => absurd h hlost⟩
  | endOp o =>
    unfold step at hs
    rw [Option.ite_none_right_eq_some, Option.some.injEq] at hs
    obtain ⟨ho, rfl⟩ := hs
    have hpos := List.length_pos_of_mem ho
    obtain ⟨hsize, hlh, hout⟩ := s.log.endOp_eq
    refine keep ⟨⟨hsize.trans hok.size, ?_, hlh.trans hok.logged⟩, ⟨hnl.accepted, ?_⟩⟩ trivial
    · rw [hout, hok.counted, List.length_erase_of_mem ho]
      omega
    · rw [hlh]
      exact hnl.recorded
  | commit i skipped =>
    unfold step at hs
    rw [Option.ite_none_right_eq_some, Option.some.injEq] at hs
    obtain ⟨-, rfl⟩ := hs
    refine keep ⟨⟨hok.size, hok.counted, rfl⟩, ⟨hnl.accepted, ?_⟩⟩ trivial
    intro b hb
    exact absurd hb List.not_mem_nil
  | finish i =>
    unfold step at hs
    rw [Option.ite_none_right_eq_some, Option.some.injEq] at hs
    obtain ⟨-, rfl⟩ := hs
    exact keep ⟨⟨hok.size, hok.counted, hok.logged⟩, ⟨hnl.accepted, hnl.recorded⟩⟩ trivial

/-! ## 3. Which runs lose no write -/

/-- **A run loses no write exactly when every `log_write` finds room**: fewer than `LOGSIZE - 1`
distinct blocks written since the last commit. -/
theorem noLoss_iff_room (rs : List (ReserveOp ι)) :
    Transition.Always step NoLoss (init : ReserveState ι) rs ↔
      Transition.EachStep step Room (init : ReserveState ι) rs :=
  Transition.always_iff_eachStep (fun _ _ _ hok hnl hs => step_spec hok hnl hs) rs _
    init_logOk init_noLoss

/-- Operation `i` writes ten blocks of its own, one after the other. -/
def tenWrites (i : Fin 3) : List (ReserveOp (Fin 3)) :=
  let bs := (List.range maxOpBlocks).map fun k => BitVec.ofNat 32 (100 + 10 * i.val + k)
  (List.range maxOpBlocks).map fun k => .write ⟨i, bs.take k⟩ (bs.getD k 0)

/-- Three operations are admitted together, and each writes the ten distinct blocks it may write:
the thirtieth is refused. -/
theorem thirtieth_write_refused :
    ¬ ∀ rs : List (ReserveOp (Fin 3)), Transition.Always step NoLoss init rs := by
  intro h
  have hrun : (Transition.run step (init : ReserveState (Fin 3))
      ([.begin 0, .begin 1, .begin 2] ++ (List.finRange 3).flatMap tenWrites)).any
        (fun s => s.refused == 1) = true := by
    decide +kernel
  obtain ⟨s, hs, hrefused⟩ := (Option.any_eq_true _ _).mp hrun
  have hnl := (Transition.always_iff_reachable.mp h) s ⟨_, hs⟩
  rw [beq_iff_eq, hnl.accepted] at hrefused
  exact absurd hrefused (by decide)

end ReserveState

end Lithium
