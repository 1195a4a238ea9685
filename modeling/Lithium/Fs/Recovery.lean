/-
# Recovery from any header

`read_head` takes the count and the block numbers of the header as they are, and `install_trans`
runs over them.  Section 2 says for which headers `log_init` stays within `log.lh.block` and within
the log area, and does not wait for a buffer it holds itself; whatever the other blocks are, and
for every pattern of `NULL`.
-/
import Lithium.Fs.LogHold
import Lithium.Fs.LogRegion

namespace Lithium.Wal

open Takes

/-! ## 1. The property -/

/-- The log in memory when `log_init` starts. -/
def LogArea.log (area : LogArea) : Log :=
  { start := area.start, size := area.size, outstanding := 0, committing := false, lh := [] }

/-- `log_init`, at the boot. -/
def recovery (env : Env) (area : LogArea) (d : Disk) : EStateM.Result Halt World Log :=
  (logInit env area.start area.size).run (World.boot d)

/-- The slots that `log_init` reads, as far as it gets. -/
def initSlots (env : Env) (area : LogArea) (d : Disk) : List BlockNo :=
  match (readHead env area.log).run (World.boot d) with
  | .ok l w => recoverSlots env l w
  | .error _ _ => []

/-- `log_init` returns, without an index past `LOGSIZE` and without waiting for a buffer it holds,
and reads slots of the log area only. -/
structure RecoverySafe (env : Env) (area : LogArea) (d : Disk) : Prop where
  returns : ∃ l w, recovery env area d = .ok l w
  inBounds : ∀ w, recovery env area d ≠ .error .outOfBounds w
  awake : ∀ w, recovery env area d ≠ .error .asleep w
  slots : ∀ b ∈ initSlots env area d, area.Inside b

/-! ## 2. The condition -/

/-- The number of the first `block_read` for entry `t`: each `read_head` makes one before. -/
def entryRead (t : Nat) : Nat := 2 + 2 * t

/-- An entry before `t` has got one of its buffers only, that of `b`, and kept it. -/
def LeftBefore (env : Env) (l : Log) (lh : List BlockNo) (t : Nat) (b : BlockNo) : Prop :=
  ∃ j < t, ∃ a, lh[j]? = some a ∧
    ((env.null (entryRead j) = false ∧ env.null (entryRead j + 1) = true ∧ b = l.slot j) ∨
      (env.null (entryRead j) = true ∧ env.null (entryRead j + 1) = false ∧ b = a))

/-- The list can be replayed: its slots lie in the log area, no home block is the slot of its own
entry, and no buffer is read again that an entry before has kept. -/
structure Replayable (env : Env) (l : Log) (lh : List BlockNo) : Prop where
  inside : ∀ t < lh.length, t + 1 < l.size
  slot : ∀ t < lh.length, env.null (entryRead t) = false → ¬ LeftBefore env l lh t (l.slot t)
  home : ∀ t a, lh[t]? = some a → env.null (entryRead t + 1) = false →
    ¬ LeftBefore env l lh t a ∧ (env.null (entryRead t) = false → a ≠ l.slot t)
  header : env.null (entryRead lh.length) = false → ¬ LeftBefore env l lh lh.length l.header

/-- **The condition**: the header, if it can be read, announces at most `LOGSIZE` blocks, in a list
that can be replayed. -/
def RecoveryOk (env : Env) (area : LogArea) (d : Disk) : Prop :=
  ∃ lh, announced env area.log (World.boot d) = some lh ∧ Replayable env area.log lh

/-- When no `block_read` returns `NULL`, nothing is kept. -/
theorem replayable_steady {env : Env} (hnull : ∀ r, env.null r = false) (l : Log)
    (lh : List BlockNo) : Replayable env l lh ↔
      (∀ t < lh.length, t + 1 < l.size) ∧ ∀ t a, lh[t]? = some a → a ≠ l.slot t := by
  have hnone : ∀ t b, ¬ LeftBefore env l lh t b := by
    rintro t b ⟨j, -, a, -, ⟨-, hfail, -⟩ | ⟨hfail, -⟩⟩
    all_goals
      rw [hnull] at hfail
      cases hfail
  constructor
  · exact fun h => ⟨h.inside, fun t a ha => (h.home t a ha (hnull _)).2 (hnull _)⟩
  · rintro ⟨hinside, happart⟩
    exact ⟨hinside, fun t _ _ => hnone t _, fun t a ha _ => ⟨hnone t a, fun _ => happart t a ha⟩,
      fun _ => hnone _ _⟩

/-! ## 3. The takes of a recovery -/

variable {env : Env} {l : Log} {lh : List BlockNo}

theorem entries_getElem?_iff {t : Nat} {e : Entry} :
    (entries { l with lh := lh })[t]? = some e ↔ ∃ a, lh[t]? = some a ∧ e = ⟨l.slot t, a⟩ := by
  constructor
  · exact entries_of_getElem?
  · rintro ⟨a, ha, rfl⟩
    exact entries_getElem? (l := { l with lh := lh }) ha

/-- What the entries before `t` have kept. -/
theorem leftBefore_iff {t : Nat} {b : BlockNo} : LeftBefore env l lh t b ↔
    b ∈ keeps env.null (entryRead 0)
      (((entries { l with lh := lh }).take t).map fun e => [e.slot, e.home]) := by
  rw [mem_keeps_pairs]
  constructor
  · rintro ⟨j, hj, a, ha, hkept⟩
    refine ⟨j, ⟨l.slot j, a⟩, ?_, ?_⟩
    · rw [List.getElem?_take_of_lt hj]
      exact entries_getElem?_iff.mpr ⟨a, ha, rfl⟩
    · exact mem_kept_pair.mpr hkept
  · rintro ⟨j, e, he, hkept⟩
    rw [List.getElem?_take] at he
    obtain ⟨hj, he⟩ := Option.ite_none_right_eq_some.mp he
    obtain ⟨a, ha, rfl⟩ := entries_getElem?_iff.mp he
    exact ⟨j, hj, a, ha, mem_kept_pair.mp hkept⟩

/-- **The takes of a recovery all return** when nothing is taken that is kept. -/
theorem passes_init_iff : Passes env.null 0 (fun _ => False) (initGroups l lh) ↔
    (∀ t < lh.length, env.null (entryRead t) = false → ¬ LeftBefore env l lh t (l.slot t)) ∧
    (∀ t a, lh[t]? = some a → env.null (entryRead t + 1) = false →
      ¬ LeftBefore env l lh t a ∧ (env.null (entryRead t) = false → a ≠ l.slot t)) ∧
    (env.null (entryRead lh.length) = false → ¬ LeftBefore env l lh lh.length l.header) := by
  have hpairs : ∀ held : BlockNo → Prop, (∀ b, ¬ held b) →
      (Passes env.null (entryRead 0) held (pairs (entries { l with lh := lh })) ↔
        ∀ t e, (entries { l with lh := lh })[t]? = some e →
          (env.null (entryRead t) = false → ¬ LeftBefore env l lh t e.slot) ∧
          (env.null (entryRead t + 1) = false → ¬ LeftBefore env l lh t e.home ∧
            (env.null (entryRead t) = false → e.home ≠ e.slot))) := by
    intro held hnone
    rw [pairs, passes_pairs]
    refine forall_congr' fun t => forall_congr' fun e => forall_congr' fun _ => ?_
    have hheld : ∀ b, (held b ∨ b ∈ keeps env.null (entryRead 0)
        (((entries { l with lh := lh }).take t).map fun e => [e.slot, e.home])) ↔
        LeftBefore env l lh t b := fun b => by
      rw [or_iff_right (hnone b), leftBefore_iff]
    rw [Returns.congr hheld, returns_pair]
    rfl
  have hheld : ∀ b, ¬ ((False ∨ b ∈ keeps env.null 0 [[l.header]]) ∨
      b ∈ keeps env.null (0 + total [[l.header]]) [[l.header]]) := fun b => by
    rw [keeps_single, keeps_single]
    simp
  rw [initGroups, passes_append, passes_append, passes_append, passes_single, passes_single,
    passes_single]
  have hread : 0 + total [[l.header]] + total [[l.header]] +
      total (pairs (entries { l with lh := lh })) = entryRead lh.length := by
    rw [total_pairs, entries_length]
    rfl
  have hleft : ∀ b, b ∈ keeps env.null (0 + total [[l.header]] + total [[l.header]])
      (pairs (entries { l with lh := lh })) ↔ LeftBefore env l lh lh.length b := fun b => by
    have htake : (entries { l with lh := lh }).take lh.length = entries { l with lh := lh } :=
      List.take_of_length_le (Nat.le_of_eq entries_length)
    rw [leftBefore_iff, htake]
    rfl
  rw [hread, hleft]
  constructor
  · rintro ⟨-, -, hentries, hheader⟩
    have hall := (hpairs _ hheld).mp hentries
    refine ⟨fun t ht => ?_, fun t a ha => ?_, fun hnull hb => hheader hnull (.inr hb)⟩
    · have hget := List.getElem?_eq_getElem ht
      exact (hall t _ (entries_getElem?_iff.mpr ⟨_, hget, rfl⟩)).1
    · exact (hall t ⟨l.slot t, a⟩ (entries_getElem?_iff.mpr ⟨a, ha, rfl⟩)).2
  · rintro ⟨hslot, hhome, hheader⟩
    refine ⟨fun _ h => h, fun _ h => hheld l.header (.inl h), (hpairs _ hheld).mpr fun t e he => ?_,
      fun hnull hb => ?_⟩
    · obtain ⟨a, ha, rfl⟩ := entries_getElem?_iff.mp he
      exact ⟨hslot t (List.getElem?_eq_some_iff.mp ha).1, hhome t a ha⟩
    · exact hheader hnull (hb.resolve_left (hheld l.header))

/-! ## 4. The slots -/

/-- A slot lies in the log area, if it is not behind its end. -/
theorem slot_inside_iff {area : LogArea} {t : Nat} (ht : t < logSize) :
    area.Inside (area.log.slot t) ↔ t + 1 < area.size := by
  have hfits := area.fits
  have ht' : t < 30 := ht
  have hlt : area.start + t + 1 < 2 ^ 32 := by omega
  have hval : (area.log.slot t).toNat = area.start + t + 1 := by
    rw [Log.slot, BitVec.toNat_ofNat]
    exact Nat.mod_eq_of_lt hlt
  rw [LogArea.Inside, hval]
  omega

/-- The list that is found fits in `log.lh.block`. -/
theorem announced_length {w : World} (h : announced env l w = some lh) : lh.length ≤ logSize := by
  unfold announced at h
  split at h
  · rw [← Option.some.inj h]
    exact Nat.zero_le _
  · exact getHead_length h

/-- A recovery that returns has read the slots of the list. -/
theorem initSlots_of_returns {env : Env} {area : LogArea} {d : Disk} {l' : Log} {w' : World}
    (h : recovery env area d = .ok l' w') {lh : List BlockNo}
    (hlh : announced env area.log (World.boot d) = some lh) :
    ∀ b, b ∈ initSlots env area d ↔ ∃ t < lh.length, b = area.log.slot t := by
  obtain ⟨l₁, w₁, hread, hrecover⟩ :=
    recoverSlots_of_returns (l := area.log) rfl (fun _ => rfl) h hlh
  have hslots : initSlots env area d = (entries { area.log with lh := lh }).map Entry.slot := by
    rw [initSlots, hread]
    exact hrecover
  intro b
  rw [hslots, List.mem_map]
  constructor
  · rintro ⟨e, he, rfl⟩
    exact mem_entries he
  · rintro ⟨t, ht, rfl⟩
    have hget := entries_getElem?_iff (l := area.log).mpr ⟨_, List.getElem?_eq_getElem ht, rfl⟩
    exact ⟨_, List.mem_of_getElem? hget, rfl⟩

/-! ## 5. Which headers are safe -/

/-- **Recovery is safe for the headers that can be replayed, and no others**: whatever the header
holds, whatever the other blocks are, and for every pattern of `NULL`. -/
theorem recovery_safe_iff (env : Env) (area : LogArea) (d : Disk) :
    RecoverySafe env area d ↔ RecoveryOk env area d := by
  have hends : Ends (logInit env area.start area.size) (World.boot d) _ _ :=
    logInit_ends env (l := area.log) rfl fun _ => rfl
  have hnobody : ∀ b, (World.boot d).Locked b ↔ False := fun b => by
    rw [World.Locked]
    exact iff_of_false Bool.false_ne_true id
  constructor
  · intro h
    obtain ⟨l', w', hrun⟩ := h.returns
    obtain ⟨-, lh, hlh, hpassed⟩ := (Ends.iff_of_ok hrun).mp hends
    have hpasses := (Passes.congr hnobody).mp hpassed.passes
    obtain ⟨hslot, hhome, hheader⟩ := passes_init_iff.mp hpasses
    refine ⟨lh, hlh, fun t ht => ?_, hslot, hhome, hheader⟩
    refine (slot_inside_iff (Nat.lt_of_lt_of_le ht (announced_length hlh))).mp (h.slots _ ?_)
    exact (initSlots_of_returns hrun hlh _).mpr ⟨t, ht, rfl⟩
  · rintro ⟨lh, hlh, h⟩
    have hpasses := passes_init_iff.mpr ⟨h.slot, h.home, h.header⟩
    cases hrun : recovery env area d with
    | error e w =>
      rcases (Ends.iff_of_error hrun).mp hends with ⟨-, hnot⟩ | ⟨-, hnone⟩
      · exact absurd ((Passes.congr hnobody).mpr hpasses) (hnot lh hlh)
      · rw [hlh] at hnone
        cases hnone
    | ok l' w' =>
      refine ⟨⟨l', w', hrun⟩, fun w he => ?_, fun w he => ?_, fun b hb => ?_⟩
      · rw [hrun] at he
        cases he
      · rw [hrun] at he
        cases he
      · obtain ⟨t, ht, rfl⟩ := (initSlots_of_returns hrun hlh b).mp hb
        have htlog := Nat.lt_of_lt_of_le ht (announced_length hlh)
        exact (slot_inside_iff htlog).mpr (h.inside t ht)

/-- A header with `n = 31`. -/
def overfull : Disk := fun b => if b = 2 then Block.setWord (fun _ => 0) 0 31 else fun _ => 0

/-- `read_head` copies 31 block numbers to `log.lh.block`, which has 30. -/
theorem overfull_header_unsafe : ¬ ∀ (env : Env) (area : LogArea) (d : Disk),
    RecoverySafe env area d := by
  intro h
  obtain ⟨l, w, hrun⟩ := (h (.steady 1 fun _ => false) fsLog overfull).returns
  have hends := logInit_ends (.steady 1 fun _ => false) (w := World.boot overfull)
    (l := fsLog.log) rfl fun _ => rfl
  obtain ⟨-, lh, hlh, -⟩ := (Ends.iff_of_ok hrun).mp hends
  have hnone : announced (.steady 1 fun _ => false) fsLog.log (World.boot overfull) = none := by
    decide +kernel
  rw [hnone] at hlh
  cases hlh

end Lithium.Wal
