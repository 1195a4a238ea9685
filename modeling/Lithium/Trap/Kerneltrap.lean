/-
# The interrupt that nobody handles

`kerneltrap` of `trap.c`.  An external interrupt is claimed from the PLIC; for the disk the handler
prints a line, completes the interrupt at the PLIC and returns.  `virtio_disk_intr`, which says of
itself that `kerneltrap` calls it, is called from nowhere, so that no interrupt ever completes a
request of the disk.  Section 3 says what the call would do.
-/
import Lithium.Fs.VirtioRings

namespace Lithium

open Circular VirtioDisk

/-! ## 1. `trap.c` and `plic.c` -/

/-- `SCAUSE_INTERRUPT_BIT`. -/
def scauseInterruptBit : BitVec 64 := (1 : BitVec 64) <<< 63

/-- `SCAUSE_EXTERNAL_INTERRUPT`. -/
def scauseExternalInterrupt : BitVec 64 := scauseInterruptBit ||| 9

/-- `SCAUSE_ECALL_USER`. -/
def scauseEcallUser : BitVec 64 := 8

/-- `SCAUSE_ECALL_SUPERVISOR`. -/
def scauseEcallSupervisor : BitVec 64 := 9

/-- `UART0_IRQ`. -/
def uart0Irq : Int := 10

/-- `VIRTIO0_IRQ`. -/
def virtio0Irq : Int := 1

/-- What `kerneltrap` prints before it returns. -/
inductive TrapMessage where
  | uart
  | virtio
  | unknownInterrupt (cause sepc : BitVec 64)

/-- The registers of the trap, the claim register of the PLIC, what has been written to it and
printed, and the driver of the disk. -/
structure TrapState (T B : Type*) where
  scause : BitVec 64
  sepc : BitVec 64
  claim : BitVec 32
  completed : List (BitVec 32)
  console : List TrapMessage
  driver : DiskState T B

/-- The functions of other files that `kerneltrap` calls. -/
structure TrapCalls (T B : Type*) where
  yield : TrapState T B → TrapState T B
  syscall : TrapState T B → TrapState T B

namespace TrapState

variable {T B : Type*}

/-- `plic_claim`. -/
def plicClaim (s : TrapState T B) : Int := s.claim.toInt

/-- `plic_complete`. -/
def plicComplete (s : TrapState T B) (irq : Int) : TrapState T B :=
  { s with completed := s.completed ++ [BitVec.ofInt 32 irq] }

def print (s : TrapState T B) (m : TrapMessage) : TrapState T B :=
  { s with console := s.console ++ [m] }

/-- `kerneltrap`; `none` is the endless loop after an exception. -/
def kerneltrap (calls : TrapCalls T B) (s : TrapState T B) : Option (TrapState T B) :=
  if s.scause &&& scauseInterruptBit ≠ 0 then
    let cause := s.scause &&& ~~~scauseInterruptBit
    if cause = 5 then some (calls.yield s)
    else if cause = 9 then
      let irq := s.plicClaim
      let s :=
        if irq = uart0Irq then s.print .uart
        else if irq = virtio0Irq then s.print .virtio
        else s
      some (if 0 < irq then s.plicComplete irq else s)
    else some (s.print (.unknownInterrupt cause s.sepc))
  else if s.scause = scauseEcallUser ∨ s.scause = scauseEcallSupervisor then
    some (calls.syscall { s with sepc := s.sepc + 4 })
  else none

end TrapState

/-! ## 2. The batch -/

/-- The heads in the entries of the used ring that the driver has not seen. -/
def VirtioDisk.batch {B : Type*} (d : VirtioDisk B) : List DescId :=
  (List.range (d.used.idx - d.usedIdx).toNat).map fun j =>
    descAt (d.used.ring (slot ringSize (d.usedIdx + BitVec.ofNat 16 j))).id.toInt

variable {T B : Type*}

/-- The requests of the batch of `d` are completed in `d'`. -/
structure BatchCompleted (d d' : DiskState T B) : Prop where
  valid : ∀ i ∈ d.disk.batch, ∀ b, (d.disk.info i).b = some b → (d'.disk.bufs b).valid = true
  awake : ∀ i ∈ d.disk.batch, ∀ b, (d.disk.info i).b = some b → ∀ t w asleep,
    d'.phase t = .waiting w asleep → w.buf = b → asleep = false
  consumed : d'.disk.usedIdx = d.disk.used.idx

theorem batch_ne_nil_iff (d : VirtioDisk B) : d.batch ≠ [] ↔ d.usedIdx ≠ d.used.idx := by
  rw [VirtioDisk.batch, Ne, List.map_eq_nil_iff, List.range_eq_nil]
  constructor
  · intro h heq
    exact h (by simp [heq])
  · intro h hzero
    exact h (by bv_omega)

/-- **A disk interrupt leaves the driver as it was.** -/
theorem kerneltrap_virtio (calls : TrapCalls T B) {s : TrapState T B}
    (hcause : s.scause = scauseExternalInterrupt) (hirq : s.plicClaim = virtio0Irq) :
    ∃ s', s.kerneltrap calls = some s' ∧ s'.driver = s.driver := by
  refine ⟨(s.print .virtio).plicComplete virtio0Irq, ?_, rfl⟩
  rw [TrapState.kerneltrap, hcause, hirq]
  rfl

/-- **No disk interrupt completes the waiting requests**, in any state and for any batch. -/
theorem virtio_trap_incomplete (calls : TrapCalls T B) (s : TrapState T B)
    (hcause : s.scause = scauseExternalInterrupt) (hirq : s.plicClaim = virtio0Irq)
    (hbatch : s.driver.disk.batch ≠ []) :
    ∃ s', s.kerneltrap calls = some s' ∧ ¬ BatchCompleted s.driver s'.driver := by
  obtain ⟨s', hs', hdriver⟩ := kerneltrap_virtio calls hcause hirq
  refine ⟨s', hs', fun hdone => ?_⟩
  have hseen := hdone.consumed
  rw [hdriver] at hseen
  exact (batch_ne_nil_iff _).mp hbatch hseen

/-- One process reads a block, and the device completes the request. -/
def oneRead : List (DiskOp Unit Unit) :=
  [.rw () () false fun _ => 0, .resume (), .consume, .complete 0 0 512]

/-- The driver after that. -/
def oneReadDriver : DiskState Unit Unit :=
  (Transition.run DiskState.step (.init fun _ => Buf.zero) oneRead).getD (.init fun _ => Buf.zero)

/-- The trap for the completion. -/
def oneReadTrap : TrapState Unit Unit where
  scause := scauseExternalInterrupt
  sepc := 0x80000000
  claim := 1
  completed := []
  console := []
  driver := oneReadDriver

theorem virtio_trap_incomplete_read :
    ∃ s', oneReadTrap.kerneltrap ⟨id, id⟩ = some s' ∧
      ¬ BatchCompleted oneReadTrap.driver s'.driver :=
  virtio_trap_incomplete ⟨id, id⟩ oneReadTrap rfl (by decide) (by decide +kernel)

/-- The read of one block is completed by the device, the disk interrupt comes, and the request is
as it was. -/
theorem read_not_completed :
    ¬ ∀ (calls : TrapCalls Unit Unit) (s : TrapState Unit Unit),
      Transition.Reachable DiskState.step (.init fun _ => Buf.zero) s.driver →
      s.scause = scauseExternalInterrupt → s.plicClaim = virtio0Irq → s.driver.disk.batch ≠ [] →
      ∃ s', s.kerneltrap calls = some s' ∧ BatchCompleted s.driver s'.driver := by
  intro h
  have hrun : (Transition.run DiskState.step (.init fun _ => Buf.zero) oneRead).isSome = true := by
    decide +kernel
  obtain ⟨d, hd⟩ := Option.isSome_iff_exists.mp hrun
  have hdriver : oneReadTrap.driver = d := by
    unfold oneReadTrap oneReadDriver
    rw [hd]
    rfl
  obtain ⟨s', hs', hdone⟩ := h ⟨id, id⟩ oneReadTrap ⟨oneRead, hdriver ▸ hd⟩ rfl (by decide)
    (by decide +kernel)
  obtain ⟨t, ht, hsame⟩ := kerneltrap_virtio ⟨id, id⟩ (s := oneReadTrap) rfl (by decide)
  obtain rfl := Option.some.inj (hs'.symm.trans ht)
  have hseen := hdone.consumed
  rw [hsame] at hseen
  exact absurd hseen (by decide +kernel)

/-! ## 3. What the missing call would do -/

variable [DecidableEq B]

/-- **`virtio_disk_intr` completes the batch**, in every state the driver can be in. -/
theorem interrupt_batchCompleted {d : DiskState T B} (h : d.Rings) (ho : d.Owners) :
    BatchCompleted d d.interrupt := by
  -- the buffers of the batch are among those the interrupt marks
  have hmarked : ∀ i ∈ d.disk.batch, ∀ b, (d.disk.info i).b = some b → some b ∈ d.disk.intr.2 := by
    intro i hi b hb
    obtain ⟨j, hj, rfl⟩ := List.mem_map.mp hi
    rw [List.mem_range, h.used.sub_toNat DiskState.ringSize_lt] at hj
    have hslot := h.used.slots j hj
    rw [List.length_map] at hj
    rw [List.get_eq_getElem, List.getElem_map] at hslot
    have hk : (d.finished.drop d.handled.length)[j] ∈ d.finished.drop d.handled.length :=
      List.getElem_mem hj
    generalize (d.finished.drop d.handled.length)[j] = k at hslot hk
    obtain ⟨t, w, ht, rfl⟩ :=
      (ho.active k (h.lt_of_finished (List.mem_of_mem_drop hk))).resolve_left
        (h.not_returned (h.not_handled hk))
    obtain ⟨i, -, -, hinfo, hreq⟩ := ho.chain t w ht
    rw [hreq, Option.map_some, Option.some.injEq] at hslot
    rw [hslot, descAt_head32, hinfo 0] at hb
    rw [h.intr_marks ho, List.mem_map]
    exact ⟨w.req, hk, by rw [hreq, ← hb]; rfl⟩
  refine ⟨fun i hi b hb => ?_, fun i hi b hb t w asleep ht hbuf => ?_, ?_⟩
  · have hbufs : d.interrupt.disk.bufs b =
        if some b ∈ d.disk.intr.2 then virtioDiskIntr (d.disk.bufs b) else d.disk.bufs b :=
      (h.passes _ ho).2.2 b
    rw [hbufs, if_pos (hmarked i hi b hb)]
    exact virtioDiskIntr_valid _
  · have hany : d.disk.intr.2.any Option.isSome = true :=
      List.any_eq_true.mpr ⟨some b, hmarked i hi b hb, rfl⟩
    have hphase : (d.phase t).wakeup = .waiting w asleep := by
      rw [← ht, DiskState.interrupt]
      exact (if_pos hany).symm
    cases hp : d.phase t with
    | idle | allocating =>
      rw [hp] at hphase
      exact absurd hphase (by simp [DiskPhase.wakeup])
    | waiting v a =>
      rw [hp] at hphase
      exact (DiskPhase.waiting.inj hphase).2.symm
  · exact DiskState.intrLoop_done _ d.disk (Nat.le_refl _)

end Lithium
