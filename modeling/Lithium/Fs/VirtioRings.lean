/-
# Every request is completed once

The two rings between the driver and the device hold what has been submitted and not yet been read,
and what has been completed and not yet been seen.  Their indices have 16 bits and wrap, and their
eight slots are enough because there are eight descriptors: section 2 keeps the invariant through
all steps, and section 3 reads the two contracts of the driver off it.

An interrupt may find several completions at once.  It marks the buffer of each, and a process
returns only when its own buffer is marked.
-/
import Lithium.Fs.VirtioRun
import Lithium.Lib.Transition
import Mathlib.Data.List.TakeDrop

namespace Lithium

open Circular VirtioDisk

namespace DiskState

variable {T B : Type*} {s s' : DiskState T B}

/-! ## 1. What the rings hold -/

/-- The rings hold the requests that are on their way, and the marked buffers are those of completed
requests. -/
structure Rings (s : DiskState T B) : Prop where
  avail : Holds s.disk.avail.ring s.lastAvail s.disk.avail.idx
    ((s.submitted.drop s.consumed).map fun r => head16 r.head)
  consumedLe : s.consumed ≤ s.submitted.length
  device : (s.taken.map Prod.fst ++ s.finished).Perm (List.range s.consumed)
  heads : ∀ p ∈ s.taken, (s.submitted[p.1]?).map (fun r => head16 r.head) = some p.2
  used : Holds (fun i => some (s.disk.used.ring i).id) s.disk.usedIdx s.disk.used.idx
    ((s.finished.drop s.handled.length).map fun k => (s.submitted[k]?).map fun r => head32 r.head)
  handled : s.handled = (s.finished.take s.handled.length).map fun k =>
    (s.submitted[k]?).map Request.buf
  returned : ∀ k ∈ s.returned, k ∈ s.finished.take s.handled.length
  valid : ∀ t w, (s.phase t).wait? = some w → (s.disk.bufs w.buf).valid = true →
    w.req ∈ s.finished.take s.handled.length

theorem ringSize_dvd : ringSize ∣ 2 ^ 16 := by decide

theorem ringSize_lt : ringSize < 2 ^ 16 := by decide

theorem Rings.init (bufs : B → Buf) : Rings (init bufs : DiskState T B) where
  avail := .nil _ _
  consumedLe := Nat.le_refl 0
  device := .refl _
  heads := fun _ hp => absurd hp List.not_mem_nil
  used := .nil _ _
  handled := rfl
  returned := fun _ hk => absurd hk List.not_mem_nil
  valid := fun _ _ h => absurd h (by simp [DiskState.init, DiskPhase.wait?])

/-- The requests that the device has read are those it works on and those it has completed. -/
theorem Rings.mem_iff (h : Rings s) (k : Nat) :
    k < s.consumed ↔ k ∈ s.taken.map Prod.fst ∨ k ∈ s.finished := by
  rw [← List.mem_append, h.device.mem_iff, List.mem_range]

theorem Rings.nodup (h : Rings s) : (s.taken.map Prod.fst ++ s.finished).Nodup :=
  h.device.nodup_iff.mpr List.nodup_range

theorem Rings.finished_nodup (h : Rings s) : s.finished.Nodup := (List.nodup_append.mp h.nodup).2.1

/-- A completed request has been submitted. -/
theorem Rings.lt_of_finished (h : Rings s) {k : Nat} (hk : k ∈ s.finished) :
    k < s.submitted.length :=
  Nat.lt_of_lt_of_le ((h.mem_iff k).mpr (Or.inr hk)) h.consumedLe

theorem Rings.handled_le (h : Rings s) : s.handled.length ≤ s.finished.length := by
  have hlen := congrArg List.length h.handled
  rw [List.length_map, List.length_take] at hlen
  omega

/-- A request that has not been handled has not returned. -/
theorem Rings.not_returned (h : Rings s) {k : Nat}
    (hk : k ∉ s.finished.take s.handled.length) : k ∉ s.returned := fun hr => hk (h.returned k hr)

/-- What an interrupt has still to see has not been handled. -/
theorem Rings.not_handled (h : Rings s) {k : Nat} (hk : k ∈ s.finished.drop s.handled.length) :
    k ∉ s.finished.take s.handled.length := fun ht =>
  List.disjoint_take_drop h.finished_nodup (Nat.le_refl _) ht hk

/-- Steps that change nothing but processes. -/
theorem Rings.congr (h : Rings s) (hdisk : SameRings s.disk s'.disk)
    (hlast : s'.lastAvail = s.lastAvail) (hcon : s'.consumed = s.consumed)
    (htaken : s'.taken = s.taken) (hsub : s'.submitted = s.submitted)
    (hfin : s'.finished = s.finished) (hhand : s'.handled = s.handled)
    (hret : ∀ k ∈ s'.returned, k ∈ s.finished.take s.handled.length)
    (hwait : ∀ t w, (s'.phase t).wait? = some w → (s.phase t).wait? = some w) : Rings s' where
  avail := by
    rw [hdisk.avail, hlast, hcon, hsub]
    exact h.avail
  consumedLe := by
    rw [hcon, hsub]
    exact h.consumedLe
  device := by
    rw [htaken, hfin, hcon]
    exact h.device
  heads := by
    rw [htaken, hsub]
    exact h.heads
  used := by
    rw [hdisk.used, hdisk.usedIdx, hfin, hhand, hsub]
    exact h.used
  handled := by
    rw [hhand, hfin, hsub]
    exact h.handled
  returned := by
    rw [hfin, hhand]
    exact hret
  valid := by
    rw [hdisk.bufs, hfin, hhand]
    exact fun t w ht => h.valid t w (hwait t w ht)

/-! ## 2. The steps -/

/-- **Submitting a request**: there is room, for every request that waits has its descriptors. -/
theorem Rings.submitted [DecidableEq B] (h : Rings s) (ho : Owners s') {r : Request B} {b : B}
    {write : Bool} {idx : Fin 3 → Int} {d : VirtioDisk B} (hd : SameRings s.disk d)
    (hdisk : s'.disk = d.submit b write idx) (hlast : s'.lastAvail = s.lastAvail)
    (hcon : s'.consumed = s.consumed) (htaken : s'.taken = s.taken)
    (hsub : s'.submitted = s.submitted ++ [r]) (hhead : BitVec.ofInt 16 (idx 0) = head16 r.head)
    (hfin : s'.finished = s.finished) (hhand : s'.handled = s.handled)
    (hret : s'.returned = s.returned)
    (hwait : ∀ t w, (s'.phase t).wait? = some w →
      w.buf = b ∨ (w.buf ≠ b ∧ (s.phase t).wait? = some w)) : Rings s' := by
  have hpending : ∀ k ∈ List.range' s.consumed (s'.submitted.length - s.consumed),
      k < s'.submitted.length ∧ k ∉ s'.returned := by
    intro k hk
    have hrange := List.mem_range'_1.mp hk
    refine ⟨by omega, fun hkr => ?_⟩
    have hfinished := List.mem_of_mem_take (h.returned k (hret ▸ hkr))
    have := (h.mem_iff k).mpr (Or.inr hfinished)
    omega
  have hroom : ((s.submitted.drop s.consumed).map fun r => head16 r.head).length < ringSize := by
    have hle := ho.length_le (List.nodup_range' (s := s.consumed)) hpending
    rw [List.length_range', hsub, List.length_append, List.length_singleton] at hle
    have := h.consumedLe
    rw [List.length_map, List.length_drop]
    omega
  have hold : ∀ k, k < s.submitted.length → s'.submitted[k]? = s.submitted[k]? := fun k hk => by
    rw [hsub, List.getElem?_append_left hk]
  refine ⟨?_, ?_, ?_, fun p hp => ?_, ?_, ?_, ?_, fun t w ht hv => ?_⟩
  · have hpush := h.avail.push ringSize_dvd hroom (head16 r.head)
    rw [hdisk, hlast, hcon, hsub, List.drop_append_of_le_length h.consumedLe, List.map_append,
      List.map_singleton, ← hhead]
    rw [← hhead, ← hd.avail] at hpush
    exact hpush
  · rw [hcon, hsub, List.length_append]
    exact Nat.le_add_right_of_le h.consumedLe
  · rw [htaken, hfin, hcon]
    exact h.device
  · rw [htaken] at hp
    have hlt := (h.mem_iff p.1).mpr (Or.inl (List.mem_map_of_mem hp))
    rw [hold p.1 (Nat.lt_of_lt_of_le hlt h.consumedLe)]
    exact h.heads p hp
  · have hmap : ((s.finished.drop s.handled.length).map fun k =>
        (s'.submitted[k]?).map fun r => head32 r.head) =
        (s.finished.drop s.handled.length).map fun k =>
          (s.submitted[k]?).map fun r => head32 r.head :=
      List.map_congr_left fun k hk => by rw [hold k (h.lt_of_finished (List.mem_of_mem_drop hk))]
    rw [hdisk, hfin, hhand, hmap]
    have hused := h.used
    rw [← hd.used, ← hd.usedIdx] at hused
    exact hused
  · rw [hhand, hfin]
    refine h.handled.trans (List.map_congr_left fun k hk => ?_)
    rw [hold k (h.lt_of_finished (List.mem_of_mem_take hk))]
  · rw [hret, hfin, hhand]
    exact h.returned
  · rw [hfin, hhand]
    rw [hdisk] at hv
    rcases hwait t w ht with rfl | ⟨hne, ht⟩
    · have hself : ((d.submit w.buf write idx).bufs w.buf).valid = false := by
        rw [submit]
        dsimp only
        rw [Function.update_self, virtioDiskRw_valid]
      rw [hself] at hv
      exact absurd hv (by decide)
    · have hother : (d.submit b write idx).bufs w.buf = s.disk.bufs w.buf := by
        rw [submit]
        dsimp only
        rw [Function.update_of_ne hne, hd.bufs]
      exact h.valid t w ht (hother ▸ hv)

/-- **The device reads a request.** -/
theorem Rings.consume (h : Rings s) (hne : s.lastAvail ≠ s.disk.avail.idx) :
    Rings { s with
      lastAvail := s.lastAvail + 1
      consumed := s.consumed + 1
      taken := s.taken ++ [(s.consumed, s.disk.avail.ring (slot ringSize s.lastAvail))] } := by
  cases hpend : s.submitted.drop s.consumed with
  | nil =>
    have havail := h.avail
    rw [hpend] at havail
    exact absurd ((havail.eq_iff ringSize_lt).mpr rfl) hne
  | cons r rs =>
    have havail := h.avail
    rw [hpend, List.map_cons] at havail
    obtain ⟨hhead, hpop⟩ := havail.pop
    have hlt : s.consumed < s.submitted.length := by
      by_contra hge
      rw [List.drop_eq_nil_of_le (Nat.le_of_not_lt hge)] at hpend
      exact absurd hpend (by simp)
    rw [List.drop_eq_getElem_cons hlt, List.cons.injEq] at hpend
    have hrest : s.submitted.drop (s.consumed + 1) = rs := hpend.2
    have hget : s.submitted[s.consumed]? = some r := by
      rw [List.getElem?_eq_getElem hlt, hpend.1]
    refine ⟨?_, hlt, ?_, fun p hp => ?_, h.used, h.handled, h.returned, h.valid⟩
    · dsimp only
      rw [hrest]
      exact hpop
    · dsimp only
      rw [List.map_append, List.range_succ, List.append_assoc]
      have hswap : (s.taken.map Prod.fst ++ ([s.consumed] ++ s.finished)).Perm
          ((s.taken.map Prod.fst ++ s.finished) ++ [s.consumed]) := by
        rw [List.append_assoc]
        exact List.Perm.append_left _ List.perm_append_comm
      exact hswap.trans (h.device.append_right _)
    · rcases List.mem_append.mp hp with hp | hp
      · exact h.heads p hp
      · rw [List.mem_singleton.mp hp]
        dsimp only
        rw [hget, hhead]
        rfl

/-- **The device completes a request**: there is room, for its descriptors are still in use. -/
theorem Rings.complete (h : Rings s) (ho : Owners s) {j : Nat} {p : Nat × BitVec 16}
    (hp : s.taken[j]? = some p) (status : BitVec 8) (len : BitVec 32) :
    Rings { s with
      disk := s.disk.deviceDone p.2 status len
      taken := s.taken.eraseIdx j
      finished := s.finished ++ [p.1] } := by
  obtain ⟨hj, hjp⟩ := List.getElem?_eq_some_iff.mp hp
  have hmem : p ∈ s.taken := List.mem_of_getElem? hp
  have hperm : s.taken.Perm (p :: s.taken.eraseIdx j) :=
    hjp ▸ (List.getElem_cons_eraseIdx_perm hj).symm
  have hle := h.handled_le
  have hpnot : p.1 ∉ s.finished := fun hf =>
    (List.nodup_append.mp h.nodup).2.2 p.1 (List.mem_map_of_mem hmem) p.1 hf rfl
  -- what an interrupt has to see afterwards, all of it still waited for
  have hpending : ∀ k ∈ s.finished.drop s.handled.length ++ [p.1],
      k < s.submitted.length ∧ k ∉ s.returned := by
    intro k hk
    rcases List.mem_append.mp hk with hk | hk
    · exact ⟨h.lt_of_finished (List.mem_of_mem_drop hk), h.not_returned (h.not_handled hk)⟩
    · rw [List.mem_singleton.mp hk]
      have hlt := (h.mem_iff p.1).mpr (Or.inl (List.mem_map_of_mem hmem))
      exact ⟨Nat.lt_of_lt_of_le hlt h.consumedLe,
        h.not_returned fun hf => hpnot (List.mem_of_mem_take hf)⟩
  have hroom : (s.finished.drop s.handled.length).length < ringSize := by
    have hnd : (s.finished.drop s.handled.length ++ [p.1]).Nodup := by
      refine List.nodup_append.mpr ⟨h.finished_nodup.sublist (List.drop_sublist _ _), by simp, ?_⟩
      rintro k hk l hl rfl
      exact hpnot (List.mem_singleton.mp hl ▸ List.mem_of_mem_drop hk)
    have hlen := ho.length_le hnd hpending
    rw [List.length_append, List.length_singleton] at hlen
    omega
  refine ⟨h.avail, h.consumedLe, ?_, fun q hq => h.heads q (List.mem_of_mem_eraseIdx hq), ?_, ?_,
    fun k hk => ?_, fun t w ht hv => ?_⟩
  · refine List.Perm.trans ?_ h.device
    have hmap : (s.taken.map Prod.fst).Perm (p.1 :: (s.taken.eraseIdx j).map Prod.fst) := by
      simpa using hperm.map Prod.fst
    refine List.Perm.trans ?_ (hmap.append_right s.finished).symm
    rw [← List.append_assoc]
    exact List.perm_append_singleton _ _
  · have hpush := h.used.push ringSize_dvd (by simpa using hroom) (some (p.2.setWidth 32))
    have hhead : (s.submitted[p.1]?).map (fun r => head32 r.head) = some (p.2.setWidth 32) := by
      have hp2 := h.heads p hmem
      cases hreq : s.submitted[p.1]? with
      | none =>
        rw [hreq] at hp2
        exact absurd hp2 (by simp)
      | some r =>
        rw [hreq, Option.map_some, Option.some.injEq] at hp2
        rw [Option.map_some, head32, hp2]
    have hring : (fun i => some ((s.disk.deviceDone p.2 status len).used.ring i).id) =
        Function.update (fun i => some (s.disk.used.ring i).id) (slot ringSize s.disk.used.idx)
          (some (p.2.setWidth 32)) := by
      funext i
      dsimp only [deviceDone]
      by_cases hi : i = slot ringSize s.disk.used.idx
      · rw [hi, Function.update_self, Function.update_self]
      · rw [Function.update_of_ne hi, Function.update_of_ne hi]
    dsimp only
    rw [List.drop_append_of_le_length hle, List.map_append, List.map_singleton, hhead, hring]
    exact hpush
  · dsimp only
    rw [List.take_append_of_le_length hle]
    exact h.handled
  · dsimp only
    rw [List.take_append_of_le_length hle]
    exact h.returned k hk
  · dsimp only
    rw [List.take_append_of_le_length hle]
    exact h.valid t w ht hv

variable [DecidableEq B]

/-- One pass of `virtio_disk_intr`, noted. -/
def pass (s : DiskState T B) : DiskState T B :=
  { s with disk := s.disk.intrPass.1, handled := s.handled ++ [s.disk.intrPass.2] }

/-- **A pass of `virtio_disk_intr`** marks the buffer of the next request that was completed. -/
theorem Rings.pass (h : Rings s) (ho : Owners s) (hne : s.disk.usedIdx ≠ s.disk.used.idx) :
    ∃ b, s.disk.intrPass =
        ({ s.disk with
          bufs := Function.update s.disk.bufs b (virtioDiskIntr (s.disk.bufs b))
          usedIdx := s.disk.usedIdx + 1 }, some b) ∧
      Rings s.pass ∧ Owners s.pass := by
  cases hpend : s.finished.drop s.handled.length with
  | nil =>
    have hused := h.used
    rw [hpend] at hused
    exact absurd ((hused.eq_iff ringSize_lt).mpr rfl) hne
  | cons k ks =>
    have hused := h.used
    rw [hpend, List.map_cons] at hused
    obtain ⟨hhead, hpop⟩ := hused.pop
    have hk : k ∈ s.finished.drop s.handled.length := hpend ▸ List.mem_cons_self
    have hlt : s.handled.length < s.finished.length := by
      by_contra hge
      rw [List.drop_eq_nil_of_le (Nat.le_of_not_lt hge)] at hpend
      exact absurd hpend (by simp)
    rw [List.drop_eq_getElem_cons hlt, List.cons.injEq] at hpend
    obtain ⟨hkget, hrest⟩ := hpend
    have htake : s.finished.take (s.handled.length + 1) =
        s.finished.take s.handled.length ++ [k] := by
      rw [List.take_succ_eq_append_getElem hlt, hkget]
    -- the request has not returned, so that its buffer is in `info` at its head
    obtain ⟨t, w, ht, rfl⟩ :=
      (ho.active k (h.lt_of_finished (List.mem_of_mem_drop hk))).resolve_left
        (h.not_returned (h.not_handled hk))
    obtain ⟨i, -, -, hinfo, hreq⟩ := ho.chain t w ht
    have hid : (s.disk.used.ring (slot ringSize s.disk.usedIdx)).id = head32 (i 0) := by
      rw [hreq] at hhead
      exact Option.some.inj hhead
    have hpass : s.disk.intrPass =
        ({ s.disk with
          bufs := Function.update s.disk.bufs w.buf (virtioDiskIntr (s.disk.bufs w.buf))
          usedIdx := s.disk.usedIdx + 1 }, some w.buf) := by
      rw [intrPass, hid, descAt_head32]
      dsimp only
      rw [hinfo 0]
    refine ⟨w.buf, hpass, ?_, ?_⟩
    · rw [DiskState.pass, hpass]
      refine ⟨h.avail, h.consumedLe, h.device, h.heads, ?_, ?_, fun l hl => ?_, fun u v hu hv => ?_⟩
      · dsimp only
        rw [List.length_append, List.length_singleton, hrest]
        exact hpop
      · dsimp only
        rw [List.length_append, List.length_singleton, htake, List.map_append, List.map_singleton,
          hreq, ← h.handled]
        rfl
      · dsimp only
        rw [List.length_append, List.length_singleton, htake]
        exact List.mem_append_left _ (h.returned l hl)
      · dsimp only at hv ⊢
        rw [List.length_append, List.length_singleton, htake]
        by_cases hvw : v.buf = w.buf
        · obtain ⟨-, rfl⟩ := ho.wait_inj hu ht hvw
          exact List.mem_append_right _ (List.mem_singleton_self _)
        · rw [Function.update_of_ne hvw] at hv
          exact List.mem_append_left _ (h.valid u v hu hv)
    · rw [DiskState.pass, hpass]
      exact ho.congr (fun _ => rfl) (fun _ => rfl) rfl (fun _ => rfl) rfl rfl

/-- The loop of `virtio_disk_intr`, noted. -/
def passes (s : DiskState T B) (n : Nat) : DiskState T B :=
  { s with disk := (s.disk.intrLoop n).1, handled := s.handled ++ (s.disk.intrLoop n).2 }

theorem passes_succ (s : DiskState T B) {n : Nat} (hne : s.disk.usedIdx ≠ s.disk.used.idx) :
    s.passes (n + 1) = s.pass.passes n := by
  simp [passes, DiskState.pass, intrLoop, hne]

theorem passes_of_eq (s : DiskState T B) {n : Nat} (heq : s.disk.usedIdx = s.disk.used.idx) :
    s.passes n = s := by
  cases n <;> simp [passes, intrLoop, heq]

/-- **The loop**: it marks the buffers it has found, and changes nothing else of the buffers. -/
theorem Rings.passes : ∀ (n : Nat) {s : DiskState T B}, Rings s → Owners s →
    Rings (s.passes n) ∧ Owners (s.passes n) ∧
      ∀ b, (s.passes n).disk.bufs b =
        if some b ∈ (s.disk.intrLoop n).2 then virtioDiskIntr (s.disk.bufs b) else s.disk.bufs b
  | 0, s, h, ho => by
    have hzero : s.passes 0 = s := by simp [DiskState.passes, intrLoop]
    rw [hzero]
    exact ⟨h, ho, fun b => by simp [intrLoop]⟩
  | n + 1, s, h, ho => by
    by_cases heq : s.disk.usedIdx = s.disk.used.idx
    · rw [passes_of_eq s heq]
      exact ⟨h, ho, fun b => by simp [intrLoop, heq]⟩
    · obtain ⟨c, hpass, h₁, ho₁⟩ := h.pass ho heq
      obtain ⟨hr, ho', hbufs⟩ := Rings.passes n h₁ ho₁
      rw [passes_succ s heq]
      refine ⟨hr, ho', fun b => ?_⟩
      have hloop : (s.disk.intrLoop (n + 1)).2 = some c :: (s.pass.disk.intrLoop n).2 := by
        simp [intrLoop, heq, DiskState.pass, hpass]
      have hbuf : s.pass.disk.bufs b =
          if b = c then virtioDiskIntr (s.disk.bufs b) else s.disk.bufs b := by
        rw [DiskState.pass, hpass]
        dsimp only
        by_cases hbc : b = c
        · rw [hbc, Function.update_self, if_pos rfl]
        · rw [Function.update_of_ne hbc, if_neg hbc]
      have hidem : virtioDiskIntr (virtioDiskIntr (s.disk.bufs b)) =
          virtioDiskIntr (s.disk.bufs b) := by
        simp [virtioDiskIntr, BitVec.or_assoc]
      rw [hbufs, hbuf, hloop]
      by_cases hbc : b = c
      · simp [hbc] at hidem ⊢
        simp [hidem]
      · simp [hbc]

theorem intrPass_used (d : VirtioDisk B) :
    d.intrPass.1.used = d.used ∧ d.intrPass.1.usedIdx = d.usedIdx + 1 := by
  unfold intrPass
  dsimp only
  split <;> exact ⟨rfl, rfl⟩

theorem intrLoop_used : ∀ (n : Nat) (d : VirtioDisk B), (d.intrLoop n).1.used = d.used
  | 0, _ => rfl
  | n + 1, d => by
    rw [intrLoop]
    split
    · rfl
    · exact (intrLoop_used n _).trans (intrPass_used d).1

/-- The loop has ended by its own condition. -/
theorem intrLoop_done : ∀ (n : Nat) (d : VirtioDisk B), (d.used.idx - d.usedIdx).toNat ≤ n →
    (d.intrLoop n).1.usedIdx = d.used.idx
  | 0, d, hn => by
    rw [intrLoop]
    bv_omega
  | n + 1, d, hn => by
    rw [intrLoop]
    split
    case isTrue heq => exact heq
    case isFalse hne =>
      obtain ⟨hused, hidx⟩ := intrPass_used d
      have hrest := intrLoop_done n d.intrPass.1 (by rw [hused, hidx]; bv_omega)
      exact hrest.trans (congrArg VirtqUsed.idx hused)

/-- **An interrupt.** -/
theorem Rings.interrupt (h : Rings s) (ho : Owners s) :
    Rings s.interrupt ∧ Owners s.interrupt := by
  obtain ⟨hr, ho', -⟩ := h.passes (s.disk.used.idx - s.disk.usedIdx).toNat ho
  refine ⟨hr.congr (.refl _) rfl rfl rfl rfl rfl rfl hr.returned fun t w ht => ?_, ?_⟩
  · rwa [DiskState.interrupt, DiskPhase.wakeMarked_wait?] at ht
  · exact ho'.congr (fun _ => DiskPhase.wakeMarked_buf? _ _)
      (fun _ => DiskPhase.wakeMarked_wait? _ _) rfl (fun _ => rfl) rfl rfl

/-- After an interrupt everything that was completed is handled. -/
theorem Rings.interrupt_done (h : Rings s) (ho : Owners s) :
    s.interrupt.handled.length = s.finished.length := by
  have h' := (h.interrupt ho).1
  have hidx : s.interrupt.disk.usedIdx = s.interrupt.disk.used.idx :=
    (intrLoop_done _ s.disk (Nat.le_refl _)).trans
      (congrArg VirtqUsed.idx (intrLoop_used _ s.disk)).symm
  have hnil := (h'.used.eq_iff ringSize_lt).mp hidx
  have hdrop := List.drop_eq_nil_iff.mp (List.map_eq_nil_iff.mp hnil)
  exact Nat.le_antisymm h'.handled_le hdrop

/-- An interrupt marks the buffers of the requests that were completed and not handled. -/
theorem Rings.intr_marks (h : Rings s) (ho : Owners s) :
    s.disk.intr.2 =
      (s.finished.drop s.handled.length).map fun k => (s.submitted[k]?).map Request.buf := by
  have hall := (h.interrupt ho).1.handled
  rw [h.interrupt_done ho] at hall
  have hsplit : s.handled ++ s.disk.intr.2 = s.finished.map fun k =>
      (s.submitted[k]?).map Request.buf := by
    rw [← List.take_length (l := s.finished)]
    exact hall
  rw [← List.take_append_drop s.handled.length s.finished, List.map_append, ← h.handled] at hsplit
  simpa using List.append_cancel_left hsplit

variable [DecidableEq T]

/-- Another process is not affected by a pass of the allocation, but for a wakeup. -/
theorem allocate_wait? (s : DiskState T B) {t u : T} (hu : u ≠ t) (b : B) (write : Bool)
    (idx : Fin 3 → Int) : ((s.allocate t b write idx).phase u).wait? = (s.phase u).wait? := by
  cases hok : (s.disk.tryAlloc b idx).ok with
  | true =>
    rw [allocate_of_ok hok]
    dsimp only
    rw [Function.update_of_ne hu]
  | false =>
    rw [allocate_of_failed hok]
    dsimp only
    rw [Function.update_of_ne hu, DiskPhase.wakeFreed_wait?]

/-- **A pass of the allocation.** -/
theorem Rings.allocate (h : Rings s) (ho : Owners s) {t : T} {b : B} {write asleep : Bool}
    {idx : Fin 3 → Int} (ht : s.phase t = .allocating b write idx asleep) :
    Rings (s.allocate t b write idx) ∧ Owners (s.allocate t b write idx) := by
  have hrings := tryAlloc_sameRings s.disk b idx
  cases hok : (s.disk.tryAlloc b idx).ok with
  | true =>
    have ho' := ho.allocate_ok ht hok
    refine ⟨?_, ho'⟩
    obtain ⟨i, hi, -⟩ := tryAlloc_ok b idx hok
    have heq : s.allocate t b write idx = _ := allocate_of_ok hok
    have hdisk : (s.allocate t b write idx).disk =
        (s.disk.tryAlloc b idx).disk.submit b write (s.disk.tryAlloc b idx).idx := by rw [heq]
    have hsub : (s.allocate t b write idx).submitted =
        s.submitted ++ [⟨b, descAt ((s.disk.tryAlloc b idx).idx 0)⟩] := by rw [heq]
    refine h.submitted ho' hrings hdisk (by rw [heq]) (by rw [heq]) (by rw [heq]) hsub ?_
      (by rw [heq]) (by rw [heq]) (by rw [heq]) fun u w hu => ?_
    · rw [hi 0, descAt_val]
      rfl
    · by_cases hut : u = t
      · subst hut
        rw [heq] at hu
        dsimp only at hu
        rw [Function.update_self] at hu
        exact Or.inl ((Option.some.inj hu) ▸ rfl)
      · rw [allocate_wait? s hut] at hu
        refine Or.inr ⟨fun hbuf => hut ?_, hu⟩
        exact ho.own u t b (hbuf ▸ DiskPhase.buf?_of_wait? hu) (by rw [ht]; rfl)
  | false =>
    refine ⟨?_, ho.allocate_failed ht hok⟩
    rw [allocate_of_failed hok]
    refine h.congr (hrings.trans (rollback_sameRings _ _)) rfl rfl rfl rfl rfl rfl h.returned
      fun u w hu => ?_
    have hwait : (s.phase u).wait? = some w := by
      rw [← hu]
      dsimp only
      rw [update_wait?, DiskPhase.wakeFreed_wait?]
      rw [DiskPhase.wakeFreed_wait?, ht]
      rfl
    exact hwait

/-- **A return**: the request has been handled. -/
theorem Rings.leave (h : Rings s) {t : T} {w : Wait B} (ht : (s.phase t).wait? = some w)
    (hv : (s.disk.bufs w.buf).valid = true) : Rings (s.leave t w) := by
  refine h.congr (finish_sameRings _ _) rfl rfl rfl rfl rfl rfl (fun k hk => ?_) fun u v hu => ?_
  · rcases List.mem_append.mp hk with hk | hk
    · exact h.returned k hk
    · exact List.mem_singleton.mp hk ▸ h.valid t w ht hv
  · by_cases hut : u = t
    · subst hut
      rw [leave_self] at hu
      exact absurd hu (by simp [DiskPhase.wait?])
    · rwa [leave_wait? s hut] at hu

/-- **One step.** -/
theorem Rings.step (h : Rings s) (ho : Owners s) {o : DiskOp T B} (hs : s.step o = some s') :
    Rings s' ∧ Owners s' := by
  cases step_to hs with
  | entered write idx ht hb =>
    refine ⟨?_, ho.enter ht hb write idx⟩
    refine h.congr (.refl _) rfl rfl rfl rfl rfl rfl h.returned fun u w hu => ?_
    rwa [update_wait? (by rw [ht]; rfl)] at hu
  | allocated ht => exact h.allocate ho ht
  | left ht hv =>
    have hwait := DiskPhase.wait?_of_waiting ht
    exact ⟨h.leave hwait hv, ho.leave hwait⟩
  | asleep ht =>
    refine ⟨h.congr (.refl _) rfl rfl rfl rfl rfl rfl h.returned fun u v hu => ?_,
      ho.congr (update_buf? (by rw [ht]; rfl)) (update_wait? (by rw [ht]; rfl)) rfl
        (fun _ => rfl) rfl rfl⟩
    rwa [update_wait? (by rw [ht]; rfl)] at hu
  | woken t =>
    refine ⟨h.congr (.refl _) rfl rfl rfl rfl rfl rfl h.returned fun u v hu => ?_,
      ho.congr (update_buf? (DiskPhase.wakeup_buf? _)) (update_wait? (DiskPhase.wakeup_wait? _)) rfl
        (fun _ => rfl) rfl rfl⟩
    rwa [update_wait? (DiskPhase.wakeup_wait? _)] at hu
  | consumed hne =>
    exact ⟨h.consume hne, ho.congr (fun _ => rfl) (fun _ => rfl) rfl (fun _ => rfl) rfl rfl⟩
  | completed hp status len =>
    exact ⟨h.complete ho hp status len, ho.congr (fun _ => rfl) (fun _ => rfl) rfl
      (fun _ => writeStatus_b _ _ _ _) rfl rfl⟩
  | interrupted => exact h.interrupt ho

/-! ## 3. The contracts -/

/-- A process waits as long as its request is not complete. -/
theorem Rings.step_wait? (h : Rings s) {o : DiskOp T B} (hs : s.step o = some s') {t : T}
    {w : Wait B} (ht : (s.phase t).wait? = some w) (hw : w.req ∉ s.finished) :
    (s'.phase t).wait? = some w := by
  cases step_to hs with
  | entered write idx hu => exact (update_wait? (by rw [hu]; rfl) t).trans ht
  | @allocated u b write idx hu =>
    have htu : t ≠ u := by
      rintro rfl
      rw [hu] at ht
      exact absurd ht (by simp [DiskPhase.wait?])
    exact (allocate_wait? s htu b write idx).trans ht
  | @left u v hu hvalid =>
    have hv := DiskPhase.wait?_of_waiting hu
    have htu : t ≠ u := by
      rintro rfl
      obtain rfl := Option.some.inj (hv.symm.trans ht)
      exact hw (List.mem_of_mem_take (h.valid _ _ hv hvalid))
    exact (leave_wait? s htu v).trans ht
  | asleep hu => exact (update_wait? (by rw [hu]; rfl) t).trans ht
  | woken u => exact (update_wait? (DiskPhase.wakeup_wait? _) t).trans ht
  | consumed => exact ht
  | completed => exact ht
  | interrupted => exact (DiskPhase.wakeMarked_wait? _ _).trans ht

/-- Every descriptor has one owner. -/
structure DescOwned (s : DiskState T B) : Prop where
  /-- The three descriptors of a request are different, and those of two requests. -/
  distinct : ∀ t w, (s.phase t).wait? = some w → ∀ j k, w.idx j = w.idx k → j = k
  disjoint : ∀ t u v w, t ≠ u → (s.phase t).wait? = some v → (s.phase u).wait? = some w →
    ∀ j k, v.idx j ≠ w.idx k
  /-- No step frees a descriptor of a request that is not complete. -/
  kept : ∀ o s', s.step o = some s' → ∀ t w, (s.phase t).wait? = some w → w.req ∉ s.finished →
    (s'.phase t).wait? = some w ∧ ∀ j, (s'.disk.info (descAt (w.idx j))).b = some w.buf
  /-- An attempt that fails has assigned all of `idx`, and frees what it marked. -/
  rolledBack : ∀ b idx, (s.disk.tryAlloc b idx).ok = false →
    (s.disk.tryAlloc b idx).assigned = [0, 1, 2] ∧
      toFree (s.disk.tryAlloc b idx).idx = (s.disk.tryAlloc b idx).marked ∧
      ∀ i, (((s.disk.tryAlloc b idx).disk.rollback (s.disk.tryAlloc b idx).idx).info i).b =
        (s.disk.info i).b

/-- Every request is completed once. -/
structure CompletedOnce (s : DiskState T B) : Prop where
  /-- A process that waits has submitted its request, under its head descriptor. -/
  own : ∀ t w, (s.phase t).wait? = some w →
    ∃ i : DescId, s.submitted[w.req]? = some ⟨w.buf, i⟩ ∧ w.idx 0 = i.val
  /-- No request is completed twice. -/
  once : s.finished.Nodup ∧ ∀ k ∈ s.finished, k < s.submitted.length
  /-- The completions are handled one after the other, each by marking the buffer of its request. -/
  handled : s.handled = (s.finished.take s.handled.length).map fun k =>
    (s.submitted[k]?).map Request.buf
  /-- An interrupt handles all that there are, and marks no other buffer. -/
  marks : ∀ s', s.step .intr = some s' → s'.finished = s.finished ∧
    s'.handled.length = s'.finished.length ∧ ∃ bs, s'.handled = s.handled ++ bs ∧ ∀ b,
      s'.disk.bufs b = if some b ∈ bs then virtioDiskIntr (s.disk.bufs b) else s.disk.bufs b
  /-- The slots the device has not read hold the heads of the requests it has not read. -/
  availSlots : Holds s.disk.avail.ring s.lastAvail s.disk.avail.idx
    ((s.submitted.drop s.consumed).map fun r => head16 r.head)
  /-- The slots the driver has not seen hold the heads of the requests not yet handled. -/
  usedSlots : Holds (fun i => some (s.disk.used.ring i).id) s.disk.usedIdx s.disk.used.idx
    ((s.finished.drop s.handled.length).map fun k => (s.submitted[k]?).map fun r => head32 r.head)
  /-- A process that returns has had its own request completed. -/
  returns : ∀ o s', s.step o = some s' → ∀ t w, (s.phase t).wait? = some w →
    (s'.phase t).wait? ≠ some w → w.req ∈ s.finished

theorem Rings.descOwned (h : Rings s) (ho : Owners s) : DescOwned s where
  distinct := fun t w ht j k hjk => by
    obtain ⟨i, hi, hinj, -⟩ := ho.chain t w ht
    exact hinj (hi.eq_of_val (hjk.trans (hi k)))
  disjoint := fun t u v w hne ht hu j k hjk => hne (ho.desc_inj ht hu hjk)
  kept := fun o s' hs t w ht hw => by
    have hwait := h.step_wait? hs ht hw
    obtain ⟨i, hi, -, hinfo, -⟩ := (h.step ho hs).2.chain t w hwait
    refine ⟨hwait, fun j => ?_⟩
    rw [hi j, descAt_val]
    exact hinfo j
  rolledBack := fun b idx hfail => tryAlloc_failed ho.three_dvd b idx hfail

theorem Rings.completedOnce (h : Rings s) (ho : Owners s) : CompletedOnce s where
  own := fun t w ht => by
    obtain ⟨i, hi, -, -, hreq⟩ := ho.chain t w ht
    exact ⟨i 0, hreq, hi 0⟩
  once := ⟨h.finished_nodup, fun _ => h.lt_of_finished⟩
  handled := h.handled
  marks := fun s' hs => by
    rw [DiskState.step, Option.some.injEq] at hs
    subst hs
    exact ⟨rfl, h.interrupt_done ho, _, rfl, (h.passes _ ho).2.2⟩
  availSlots := h.avail
  usedSlots := h.used
  returns := fun o s' hs t w ht hne => by
    by_contra hw
    exact hne (h.step_wait? hs ht hw)

/-- Both invariants hold in every run. -/
theorem always_rings (bufs : B → Buf) (os : List (DiskOp T B)) :
    Transition.Always step (fun s => Rings s ∧ Owners s) (init bufs) os :=
  Transition.always_of_inv (fun _ _ _ h hs => h.1.step h.2 hs) os _
    ⟨Rings.init bufs, Owners.init bufs⟩

/-- **Every descriptor has one owner, in every run.** -/
theorem always_descOwned (bufs : B → Buf) (os : List (DiskOp T B)) :
    Transition.Always step DescOwned (init bufs) os :=
  Transition.Always.mono (fun _ h => h.1.descOwned h.2) (always_rings bufs os)

/-- **Every request is completed once, in every run.** -/
theorem always_completedOnce (bufs : B → Buf) (os : List (DiskOp T B)) :
    Transition.Always step CompletedOnce (init bufs) os :=
  Transition.Always.mono (fun _ h => h.1.completedOnce h.2) (always_rings bufs os)

end DiskState

end Lithium
