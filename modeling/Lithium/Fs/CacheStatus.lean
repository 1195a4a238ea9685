/-
# A disk error makes a buffer valid

`virtio_disk_intr` prints the status of a completed request and then sets `B_VALID` whatever it
is: the flag is what `virtio_disk_rw` waits for.  `block_read` takes the same flag for "the data are
those of the disk", so that a failed transfer leaves a buffer of garbage that every later
`block_read` of the block finds in the cache and returns.

The cache can be trusted exactly in the runs in which no request fails.
-/
import Lithium.Fs.CacheCoherence

namespace Lithium

/-! ## 1. What the requests have transferred -/

/-- The cache, and the block that the last request on each buffer has transferred: `none` when it
failed or there was none. -/
structure Judged where
  state : CacheState
  transferred : Fin nbuf → Option BlockKey

namespace Judged

/-- What is noted of a step, from the state before it. -/
def note (s : Judged) : CacheOp → Fin nbuf → Option BlockKey
  | .complete r status =>
    Function.update s.transferred r.buf (if status = 0 then some (s.state.bufOf r).key else none)
  | _ => s.transferred

/-- One section, noted. -/
def step (s : Judged) (o : CacheOp) : Option Judged :=
  (s.state.step o).map fun t => ⟨t, s.note o⟩

/-- No request has been made. -/
def init (disk : Disk) : Judged := ⟨.init disk, fun _ => none⟩

/-- A valid buffer has the data that a request with status 0 transferred for its block. -/
def ValidTransferred (s : Judged) : Prop :=
  ∀ i, (s.state.cache.bufs i).valid = true → s.transferred i = some (s.state.cache.bufs i).key

/-- The condition on a step: a request completes with status 0. -/
def Succeeds : CacheOp → Prop
  | .complete _ status => status = 0
  | _ => True

end Judged

/-! ## 2. Which steps set `B_VALID` -/

/-- No buffer becomes valid, and the valid ones keep their block. -/
def KeepsValid (c c' : Bcache) : Prop :=
  ∀ i, (c'.bufs i).valid = true → (c.bufs i).valid = true ∧ (c'.bufs i).key = (c.bufs i).key

theorem KeepsValid.refl (c : Bcache) : KeepsValid c c := fun _ hi => ⟨hi, rfl⟩

/-- Changing one buffer. -/
theorem keepsValid_set {c : Bcache} {i : Fin nbuf} {b : Buf}
    (hb : b.valid = true → (c.bufs i).valid = true ∧ b.key = (c.bufs i).key) :
    KeepsValid c (c.set i b) := by
  intro j hj
  by_cases hij : j = i
  · subst hij
    rw [Bcache.set_bufs_self] at hj ⊢
    exact hb hj
  · rw [Bcache.set_bufs_of_ne c hij] at hj ⊢
    exact ⟨hj, rfl⟩

theorem GetEnd.keepsValid {c c' : Bcache} {dev : BitVec 32} {blockno : BlockNo}
    {o : Option (Fin nbuf)} (h : GetEnd c dev blockno c' o) : KeepsValid c c' := by
  cases h with
  | hit i => exact keepsValid_set fun hv => ⟨hv, rfl⟩
  | recycled i => exact keepsValid_set fun hv => absurd hv (by simp [Buf.valid])
  | null => exact .refl c

namespace CacheState

/-- **Only the completion of a request sets `B_VALID`.** -/
theorem step_keepsValid {s s' : CacheState} (h : s.cache.Keyed) {o : CacheOp}
    (ho : ∀ r status, o ≠ .complete r status) (hs : s.step o = some s') :
    KeepsValid s.cache s'.cache := by
  cases step_to hs with
  | got pid hget => exact (bufGet_spec h hget).1.keepsValid
  | missed pid hget => exact (bufGet_spec h hget).1.keepsValid
  | locked r => exact keepsValid_set fun hv => ⟨hv, rfl⟩
  | hit r => exact keepsValid_set fun hv => ⟨hv, rfl⟩
  | readStarted r => exact keepsValid_set fun hv => absurd hv (by simp [virtioDiskRw_valid])
  | modified r data => exact keepsValid_set fun hv => ⟨hv, rfl⟩
  | writeStarted r _ _ hb =>
    rw [Lithium.blockWrite, Option.ite_none_right_eq_some, Option.some.injEq] at hb
    obtain ⟨-, rfl⟩ := hb
    exact keepsValid_set fun hv => absurd hv (by simp [virtioDiskRw_valid])
  | notWritten => exact .refl _
  | readDone r status => exact absurd rfl (ho r status)
  | writeDone r status => exact absurd rfl (ho r status)
  | unlocked r => exact keepsValid_set fun hv => ⟨hv, rfl⟩
  | notUnlocked => exact .refl _
  | dropped r =>
    intro i
    rw [bufDrop_bufs]
    revert i
    exact keepsValid_set fun hv => ⟨hv, rfl⟩
  | pinned r => exact keepsValid_set fun hv => ⟨hv, rfl⟩
  | unpinned i => exact keepsValid_set fun hv => ⟨hv, rfl⟩

/-- **Every completion sets it**, on the buffer of the request and for any status. -/
theorem complete_bufs {s s' : CacheState} {r : Ref} {status : BitVec 8}
    (hs : s.step (.complete r status) = some s') :
    (s'.bufOf r).valid = true ∧ (s'.bufOf r).key = (s.bufOf r).key ∧
      ∀ j, j ≠ r.buf → s'.cache.bufs j = s.cache.bufs j := by
  have hother : ∀ (b : Buf) j, j ≠ r.buf → (s.cache.set r.buf b).bufs j = s.cache.bufs j :=
    fun b j hj => Bcache.set_bufs_of_ne _ hj b
  have hself : ∀ b : Buf, b.flags = (virtioDiskIntr (s.bufOf r)).flags → b.key = (s.bufOf r).key →
      ((s.cache.set r.buf b).bufs r.buf).valid = true ∧
        ((s.cache.set r.buf b).bufs r.buf).key = (s.bufOf r).key := by
    intro b hflags hkey
    rw [Bcache.set_bufs_self, Buf.valid, hflags]
    exact ⟨virtioDiskIntr_valid _, hkey⟩
  cases step_to hs with
  | readDone =>
    refine ⟨(hself _ ?_ ?_).1, (hself _ ?_ ?_).2, hother _⟩
    all_goals split <;> rfl
  | writeDone => exact ⟨(hself _ rfl rfl).1, (hself _ rfl rfl).2, hother _⟩

end CacheState

/-! ## 3. Which runs can be trusted -/

namespace Judged

variable {s s' : Judged}

theorem init_validTransferred (disk : Disk) : ValidTransferred (init disk) := fun i hi =>
  absurd hi (by simp [Judged.init, CacheState.init, bufCacheInit, Buf.zero, Buf.valid])

/-- **One step** keeps the valid buffers right exactly when it is not a failed request. -/
theorem step_spec (hkeys : s.state.KeysOk) (h : ValidTransferred s) {o : CacheOp}
    (hs : s.step o = some s') : ValidTransferred s' ↔ Succeeds o := by
  obtain ⟨t, ht, rfl⟩ := Option.map_eq_some_iff.mp hs
  by_cases ho : ∀ r status, o ≠ .complete r status
  · have hnote : s.note o = s.transferred := by
      cases o <;> first | rfl | exact absurd rfl (ho _ _)
    have hsucc : Succeeds o := by
      cases o <;> first | trivial | exact absurd rfl (ho _ _)
    refine iff_of_true (fun i hi => ?_) hsucc
    obtain ⟨hvalid, hkey⟩ := CacheState.step_keepsValid hkeys.keyed ho ht i hi
    dsimp only
    rw [hnote, hkey]
    exact h i hvalid
  · obtain ⟨r, status, rfl⟩ : ∃ r status, o = .complete r status := by
      by_contra hnone
      exact ho fun r status e => hnone ⟨r, status, e⟩
    obtain ⟨hvalid, hkey, hother⟩ := CacheState.complete_bufs ht
    have hnote : s.note (.complete r status) = Function.update s.transferred r.buf
        (if status = 0 then some (s.state.bufOf r).key else none) := rfl
    constructor
    · intro hall
      have hr := hall r.buf hvalid
      dsimp only at hr
      rw [hnote, Function.update_self] at hr
      by_contra hne
      have hne' : ¬ status = 0 := hne
      rw [if_neg hne'] at hr
      exact absurd hr (by simp)
    · rintro (rfl : status = 0) i hi
      dsimp only at hi ⊢
      rw [hnote]
      by_cases hir : i = r.buf
      · subst hir
        rw [Function.update_self, if_pos rfl]
        exact congrArg some hkey.symm
      · rw [Function.update_of_ne hir]
        rw [hother i hir] at hi ⊢
        exact h i hi

/-- **The valid buffers are those of successful requests exactly in the runs in which no request
fails.** -/
theorem validTransferred_iff_succeeds (disk : Disk) (os : List CacheOp) :
    Transition.Always step ValidTransferred (init disk) os ↔
      Transition.EachStep step (fun _ o => Succeeds o) (init disk) os := by
  have hstep : ∀ s o s', CacheState.KeysOk s.state → ValidTransferred s → step s o = some s' →
      (ValidTransferred s' ↔ Succeeds o) ∧ (ValidTransferred s' → CacheState.KeysOk s'.state) := by
    intro s o s' hkeys h hs
    refine ⟨step_spec hkeys h hs, fun _ => ?_⟩
    obtain ⟨t, ht, rfl⟩ := Option.map_eq_some_iff.mp hs
    exact hkeys.step (CacheState.step_end hkeys.keyed ht)
  exact Transition.always_iff_eachStep hstep os _ (CacheState.init_keysOk disk)
    (init_validTransferred disk)

/-- The disk reports status 1 for the read of block 5: the buffer is marked valid, and returned. -/
theorem failed_read_valid :
    ¬ ∀ (disk : Disk) (os : List CacheOp),
      Transition.Always step ValidTransferred (init disk) os := by
  intro h
  have hrun : ((Transition.run step (init fun _ _ => 0) [.bufGet 1 1 5, .lock ⟨1, 0, .waiting⟩,
      .blockRead ⟨1, 0, .locked⟩, .complete ⟨1, 0, .reading⟩ 1]).any fun s =>
        (s.state.cache.bufs 0).valid && s.transferred 0 == none) = true := by
    decide +kernel
  obtain ⟨s, hs, hbad⟩ := (Option.any_eq_true _ _).mp hrun
  simp only [Bool.and_eq_true, beq_iff_eq] at hbad
  have hvalid := Transition.always_iff_reachable.mp (h fun _ _ => 0) s ⟨_, hs⟩ 0 hbad.1
  rw [hbad.2] at hvalid
  exact absurd hvalid (by simp)

end Judged

end Lithium
