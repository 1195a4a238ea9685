/-
# `context_switch`

The code of `switch_context.S`, run by a processor over memory by bytes, for any number of contexts
that do not overlap.  Between two switches whatever runs may change all registers.

What the code owes to the C side is that its offsets are those of the fields of `struct context`
(`contextSwitch_layout`); the rest is that saving comes before loading, so that a process that
switches to itself gets back what it has just saved.
-/
import Lithium.Lib.SaveArea
import Lithium.Lib.Transition
import Lithium.Proc.Process

namespace Lithium

open SaveArea Transition

/-! ## 1. The code and the structs -/

/-- The registers. -/
inductive Reg where
  | ra | sp | gp | tp | t0 | t1 | t2 | s0 | s1 | a0 | a1 | a2 | a3 | a4 | a5 | a6 | a7
  | s2 | s3 | s4 | s5 | s6 | s7 | s8 | s9 | s10 | s11 | t3 | t4 | t5 | t6
  deriving DecidableEq

/-- `context_switch`. -/
def contextSwitch : List (Instr Reg) :=
  [ .sd .ra 0 .a0,
    .sd .sp 8 .a0,
    .sd .s0 16 .a0,
    .sd .s1 24 .a0,
    .sd .s2 32 .a0,
    .sd .s3 40 .a0,
    .sd .s4 48 .a0,
    .sd .s5 56 .a0,
    .sd .s6 64 .a0,
    .sd .s7 72 .a0,
    .sd .s8 80 .a0,
    .sd .s9 88 .a0,
    .sd .s10 96 .a0,
    .sd .s11 104 .a0,
    .ld .ra 0 .a1,
    .ld .sp 8 .a1,
    .ld .s0 16 .a1,
    .ld .s1 24 .a1,
    .ld .s2 32 .a1,
    .ld .s3 40 .a1,
    .ld .s4 48 .a1,
    .ld .s5 56 .a1,
    .ld .s6 64 .a1,
    .ld .s7 72 .a1,
    .ld .s8 80 .a1,
    .ld .s9 88 .a1,
    .ld .s10 96 .a1,
    .ld .s11 104 .a1,
    .ret .ra ]

/-- The fields of `struct context`, named like the registers they are for. -/
def contextFields : List Reg :=
  [.ra, .sp, .s0, .s1, .s2, .s3, .s4, .s5, .s6, .s7, .s8, .s9, .s10, .s11]

/-- `struct context`: all fields are `uint64`. -/
def contextLayout : List (Reg × Nat) := layout 0 (contextFields.map fun r => (r, 8, 8))

/-- `sizeof(struct context)`. -/
def contextSize : Nat := 112

/-- The fields of `struct proc`, with sizes and alignments. -/
def procFields : List (String × Nat × Nat) :=
  [("state", 4, 4), ("pid", 4, 4), ("parent", 8, 8), ("pagetable", 8, 8), ("sz", 8, 8),
    ("kstack", 8, 8), ("trapframe", 8, 8), ("context", contextSize, 8), ("exit_code", 4, 4),
    ("name", 32, 1)]

/-- `offsetof(struct proc, context)`. -/
def procContext : Nat := 48

/-- `sizeof(struct proc)`. -/
def procSize : Nat := 200

example : (layout 0 procFields).lookup "context" = some procContext := by decide

/-- Contexts in memory that do not overlap. -/
structure Contexts (C : Type*) where
  base : C → Word
  disjoint : ∀ c d, c ≠ d → ∀ i, i < contextSize → ∀ j, j < contextSize →
    base c + BitVec.ofNat 64 i ≠ base d + BitVec.ofNat 64 j

/-- The contexts of `proc_table`. -/
def tableContexts (table : Word) : Contexts ProcRef where
  base i := table + BitVec.ofNat 64 (procSize * i.val + procContext)
  disjoint i j hij m hm n hn heq := by
    rw [BitVec.add_assoc, BitVec.add_assoc, ← BitVec.ofNat_add, ← BitVec.ofNat_add,
      BitVec.add_right_inj] at heq
    have hnat := congrArg BitVec.toNat heq
    have hi : i.val < 64 := i.isLt
    have hj : j.val < 64 := j.isLt
    have hne : i.val ≠ j.val := fun e => hij (Fin.ext e)
    rw [contextSize] at hm hn
    rw [BitVec.toNat_ofNat, BitVec.toNat_ofNat, procSize, procContext,
      Nat.mod_eq_of_lt (by omega), Nat.mod_eq_of_lt (by omega)] at hnat
    omega

/-! ## 2. Runs -/

variable {C : Type*} [DecidableEq C]

/-- The processor, and the registers that each context was last switched out with. -/
structure SwitchState (C : Type*) where
  cpu : Cpu Reg
  out : C → Option (Reg → Word)

/-- What happens next. -/
inductive SwitchOp (C : Type*) where
  /-- The registers change. -/
  | work (regs : Reg → Word)
  /-- `context_switch(old, new)`. -/
  | switch (old new : C)

namespace SwitchState

/-- The processor at the first instruction of `context_switch(old, new)`. -/
def call (cpu : Cpu Reg) (old new : Word) : Cpu Reg :=
  { cpu with regs := Function.update (Function.update cpu.regs .a0 old) .a1 new }

/-- `context_switch(old, new)`, up to its return. -/
def switch (K : Contexts C) (s : SwitchState C) (old new : C) : SwitchState C where
  cpu := run (call s.cpu (K.base old) (K.base new)) contextSwitch
  out := Function.update s.out old (some s.cpu.regs)

/-- One step. -/
def step (K : Contexts C) (s : SwitchState C) : SwitchOp C → Option (SwitchState C)
  | .work regs => some { s with cpu := { s.cpu with regs := regs } }
  | .switch old new => some (s.switch K old new)

/-- No context has been switched out. -/
def init (cpu : Cpu Reg) : SwitchState C := ⟨cpu, fun _ => none⟩

/-- What `context_switch(old, new)` promises. -/
structure Switches (K : Contexts C) (s : SwitchState C) (old new : C) : Prop where
  /-- The registers are those that `new` was last switched out with, which is now if it is `old`. -/
  restored : ∀ regs, (s.switch K old new).out new = some regs → ∀ r ∈ contextFields,
    (s.switch K old new).cpu.regs r = regs r
  /-- If it never was, they are what its fields hold. -/
  loaded : s.out new = none → old ≠ new → ∀ f ∈ contextLayout,
    (s.switch K old new).cpu.regs f.1
      = loadDouble s.cpu.mem (K.base new + BitVec.ofNat 64 f.2)
  /-- It goes on behind the call that switched `new` out. -/
  returns : (s.switch K old new).cpu.pc = (s.switch K old new).cpu.regs .ra &&& ~~~1
  /-- Memory is as it was outside of `old`. -/
  frame : ∀ x, (∀ i, i < contextSize → x ≠ K.base old + BitVec.ofNat 64 i) →
    (s.switch K old new).cpu.mem x = s.cpu.mem x
  /-- So are all other contexts. -/
  others : ∀ c, c ≠ old → ∀ i, i < contextSize →
    (s.switch K old new).cpu.mem (K.base c + BitVec.ofNat 64 i)
      = s.cpu.mem (K.base c + BitVec.ofNat 64 i)

/-- Every switch of a run keeps its promise. -/
def Kept (K : Contexts C) (s : SwitchState C) : SwitchOp C → Prop
  | .work _ => True
  | .switch old new => Switches K s old new

/-! ## 3. One switch -/

/-- **The offsets of the code are those of `struct context`**, field by field, for saving and for
loading. -/
theorem contextSwitch_layout :
    contextSwitch = saves .a0 contextLayout ++ (loads .a1 contextLayout ++ [.ret .ra]) := rfl

theorem contextLayout_apart : Apart contextLayout := ⟨by decide, by decide⟩

theorem contextLayout_inside : ∀ f ∈ contextLayout, f.2 + 8 ≤ contextSize := by decide

theorem contextLayout_fields : contextLayout.map Prod.fst = contextFields := rfl

/-- The arguments are in registers that no context has. -/
theorem call_regs (cpu : Cpu Reg) (old new : Word) {r : Reg} (hr : r ∈ contextFields) :
    (call cpu old new).regs r = cpu.regs r := by
  have hne : ∀ r ∈ contextFields, r ≠ .a0 ∧ r ≠ .a1 := by decide
  exact (Function.update_of_ne (hne r hr).2 _ _).trans (Function.update_of_ne (hne r hr).1 _ _)

theorem call_a0 (cpu : Cpu Reg) (old new : Word) : (call cpu old new).regs .a0 = old := by
  dsimp only [call]
  rw [Function.update_of_ne (by decide : Reg.a0 ≠ Reg.a1), Function.update_self]

theorem call_a1 (cpu : Cpu Reg) (old new : Word) : (call cpu old new).regs .a1 = new := by
  dsimp only [call]
  rw [Function.update_self]

/-- Where the code loads and stores. -/
theorem call_address_a0 (cpu : Cpu Reg) (old new : Word) (off : Nat) :
    (call cpu old new).address off .a0 = old + BitVec.ofNat 64 off := by
  rw [Cpu.address, call_a0]

variable (K : Contexts C) (s : SwitchState C) (old new : C)

theorem switch_out_self : (s.switch K old new).out old = some s.cpu.regs :=
  Function.update_self _ _ _

theorem switch_out_of_ne {c : C} (hc : c ≠ old) : (s.switch K old new).out c = s.out c :=
  Function.update_of_ne hc _ _

/-- Memory once the registers are saved. -/
def savedMem (cpu : Cpu Reg) (old new : Word) : Mem :=
  (run (call cpu old new) (saves .a0 contextLayout)).mem

theorem switch_mem :
    (s.switch K old new).cpu.mem = savedMem s.cpu (K.base old) (K.base new) := by
  dsimp only [switch]
  rw [contextSwitch_layout, SaveArea.run_append, SaveArea.run_append, savedMem]
  exact run_loads_mem _ _ _

/-- The registers are loaded from memory as it is once they are saved. -/
theorem switch_regs {f : Reg × Nat} (hf : f ∈ contextLayout) :
    (s.switch K old new).cpu.regs f.1
      = loadDouble (savedMem s.cpu (K.base old) (K.base new))
          (K.base new + BitVec.ofNat 64 f.2) := by
  have haddr : (run (call s.cpu (K.base old) (K.base new)) (saves .a0 contextLayout)).address
      f.2 .a1 = K.base new + BitVec.ofNat 64 f.2 := by
    rw [Cpu.address, run_saves_regs, call_a1]
  dsimp only [switch]
  rw [contextSwitch_layout, SaveArea.run_append, SaveArea.run_append, savedMem, ← haddr]
  exact run_loads_regs (by decide) (by decide) hf

/-- The registers are in the fields of `old`. -/
theorem savedMem_old (cpu : Cpu Reg) (old new : Word) {f : Reg × Nat} (hf : f ∈ contextLayout) :
    loadDouble (savedMem cpu old new) (old + BitVec.ofNat 64 f.2) = cpu.regs f.1 := by
  have hfield : f.1 ∈ contextFields := by
    rw [← contextLayout_fields]
    exact List.mem_map_of_mem hf
  rw [savedMem, ← call_address_a0 cpu old new, run_saves_load contextLayout_apart hf,
    call_regs cpu old new hfield]

/-- Nothing else is touched. -/
theorem savedMem_frame (cpu : Cpu Reg) (old new : Word) {x : Word}
    (hx : ∀ i, i < contextSize → x ≠ old + BitVec.ofNat 64 i) :
    savedMem cpu old new x = cpu.mem x := by
  refine run_saves_mem fun f hf => ?_
  rw [call_address_a0]
  by_contra hnear
  have hin := contextLayout_inside f hf
  refine hx (f.2 + (x - (old + BitVec.ofNat 64 f.2)).toNat) (by omega) ?_
  rw [BitVec.ofNat_add, ← BitVec.add_assoc, BitVec.ofNat_toNat, BitVec.setWidth_eq,
    BitVec.add_comm, BitVec.sub_add_cancel]

variable {K s old new}

omit [DecidableEq C] in
theorem savedMem_other {c : C} (hc : c ≠ old) {i : Nat} (hi : i < contextSize) :
    savedMem s.cpu (K.base old) (K.base new) (K.base c + BitVec.ofNat 64 i)
      = s.cpu.mem (K.base c + BitVec.ofNat 64 i) :=
  savedMem_frame _ _ _ fun j hj => K.disjoint c old hc i hi j hj

omit [DecidableEq C] in
theorem loadDouble_other {c : C} (hc : c ≠ old) {f : Reg × Nat} (hf : f ∈ contextLayout) :
    loadDouble (savedMem s.cpu (K.base old) (K.base new)) (K.base c + BitVec.ofNat 64 f.2)
      = loadDouble s.cpu.mem (K.base c + BitVec.ofNat 64 f.2) := by
  refine loadDouble_congr fun i hi => ?_
  have hin := contextLayout_inside f hf
  rw [BitVec.add_assoc, ← BitVec.ofNat_add]
  exact savedMem_other hc (by omega)

/-- Each context that was switched out has the registers of that time. -/
def Saved (K : Contexts C) (s : SwitchState C) : Prop :=
  ∀ c regs, s.out c = some regs → ∀ f ∈ contextLayout,
    loadDouble s.cpu.mem (K.base c + BitVec.ofNat 64 f.2) = regs f.1

/-- **A switch** saves the registers, in `old`, and keeps what the other contexts have. -/
theorem Saved.switch (h : Saved K s) (old new : C) : Saved K (s.switch K old new) := by
  intro c regs hout f hf
  rw [switch_mem]
  by_cases hc : c = old
  · rw [hc, switch_out_self, Option.some.injEq] at hout
    rw [hc, savedMem_old _ _ _ hf, hout]
  · rw [switch_out_of_ne K s old new hc] at hout
    rw [loadDouble_other hc hf, h c regs hout f hf]

/-- **A switch keeps its promise.** -/
theorem Saved.switches (h : Saved K s) (old new : C) : Switches K s old new where
  restored regs hout r hr := by
    rw [← contextLayout_fields] at hr
    obtain ⟨f, hf, rfl⟩ := List.mem_map.mp hr
    rw [switch_regs K s old new hf, ← switch_mem K s old new]
    exact h.switch old new new regs hout f hf
  loaded _ hne f hf := by rw [switch_regs K s old new hf, loadDouble_other hne.symm hf]
  returns := by
    have hlast : (s.switch K old new).cpu
        = exec (run (run (call s.cpu (K.base old) (K.base new)) (saves .a0 contextLayout))
            (loads .a1 contextLayout)) (.ret .ra) := by
      rw [SwitchState.switch, contextSwitch_layout, SaveArea.run_append, SaveArea.run_append]
      rfl
    rw [hlast]
    rfl
  frame x hx := by rw [switch_mem, savedMem_frame _ _ _ hx]
  others c hc i hi := by rw [switch_mem, savedMem_other hc hi]

theorem Saved.step {op : SwitchOp C} {s' : SwitchState C} (h : Saved K s)
    (hs : step K s op = some s') : Saved K s' := by
  cases op with
  | work regs =>
    obtain rfl := Option.some.inj hs
    exact h
  | switch old new =>
    obtain rfl := Option.some.inj hs
    exact h.switch old new

/-! ## 4. Whole runs -/

/-- **Every switch keeps its promise**, in every run. -/
theorem eachStep_kept (K : Contexts C) (cpu : Cpu Reg) (ops : List (SwitchOp C)) :
    EachStep (step K) (Kept K) (init cpu) ops := by
  refine eachStep_iff_reachable.mpr (fun s op s' hreach _ => ?_) ops
  have h : Saved K s := reachable_inv (fun _ _ _ h hs => h.step hs)
    (fun _ _ hout => by cases hout) hreach
  cases op with
  | work regs => trivial
  | switch old new => exact h.switches old new

/-- **Context switching preserves the registers**: for any number of contexts that do not overlap,
any registers and memory at first, and any run of switches and changes of the registers. -/
theorem contextSwitch_preserves (K : Contexts C) (cpu : Cpu Reg) (ops : List (SwitchOp C)) :
    contextSwitch = saves .a0 contextLayout ++ (loads .a1 contextLayout ++ [.ret .ra]) ∧
    EachStep (step K) (Kept K) (init cpu) ops :=
  ⟨contextSwitch_layout, eachStep_kept K cpu ops⟩

/-- The processes of `proc_table`, wherever it is. -/
theorem procTable_kept (table : Word) (cpu : Cpu Reg) (ops : List (SwitchOp ProcRef)) :
    EachStep (step (tableContexts table)) (Kept (tableContexts table)) (init cpu) ops :=
  eachStep_kept (tableContexts table) cpu ops

end SwitchState

end Lithium
