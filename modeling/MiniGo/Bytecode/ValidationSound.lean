/-
Accepted register code reads initialized slots only (`runtime/bytecode/
microcode_validation.go`, `runtime/register_frame.go`).

The code runs without its labels. `beginMicroInstruction` clears the slots that
the last instruction releases and those that the new one releases on entry, but
only when the program counter has changed: an instruction that is resumed after
a suspension, or that jumps to itself, begins without clearing anything.
-/
import MiniGo.Bytecode.Validation

namespace MiniGo.Bytecode

open Result Operation RegisterFlow List

/-- The slots of a frame: `slotPC`, the releases of `slotOperands` and
`tempInitialized`. -/
structure SlotFrame where
  pc : Nat
  slotPC : Option Nat := none
  slotRelease : List Nat := []
  initialized : Finset Nat := ∅

/-- `beginMicroInstruction`: the slots that are initialized when the instruction
reads its inputs. -/
def SlotFrame.begin (frame : SlotFrame) (flow : RegisterFlow) : Finset Nat :=
  if frame.slotPC = some frame.pc then frame.initialized
  else flow.enter (frame.initialized \ frame.slotRelease.toFinset)

/-- The program counters that may follow an instruction. -/
def FollowedBy (code : MicroCode) (pc : Nat) (operation : Operation) (next : Nat) :
    Prop :=
  operation.fallsThrough = true ∧ next = pc + 1 ∨
    ∃ label ∈ operation.targets, labelPC code.operations label = some next

/-- A step of a frame through its code. -/
inductive SlotStep (code : MicroCode) : SlotFrame → SlotFrame → Prop
  | advance {frame : SlotFrame} {instruction : MicroInstruction} {next : Nat} :
      code.executable? frame.pc = some instruction →
      FollowedBy code frame.pc instruction.operation next →
      SlotStep code frame
        { pc := next
          slotPC := some frame.pc
          slotRelease := (code.flow instruction).release
          initialized := (code.flow instruction).write (frame.begin (code.flow instruction)) }
  | suspend {frame : SlotFrame} {instruction : MicroInstruction} :
      code.executable? frame.pc = some instruction →
      SlotStep code frame
        { pc := frame.pc
          slotPC := some frame.pc
          slotRelease := (code.flow instruction).release
          initialized := frame.begin (code.flow instruction) }

/-- The indices that an instruction uses are in range. -/
structure InRange (code : MicroCode) (constants : List Constant)
    (locals : List Local) (instruction : MicroInstruction) : Prop where
  operands : instruction.operands < code.operands.length
  inputs : ∀ input ∈ (code.flow instruction).inputs, match input with
    | .slot index => index < code.types.length
    | .constant index => index < constants.length
    | .localVar index => index < locals.length
  outputs : ∀ output ∈ (code.flow instruction).outputs, match output with
    | .slot index => index < code.types.length
    | .localVar index => index < locals.length
  release : ∀ slot ∈ (code.flow instruction).release, slot < code.types.length
  releaseBefore : ∀ slot ∈ (code.flow instruction).releaseBefore, slot < code.types.length
  targets : ∀ label ∈ instruction.operation.targets,
    ∃ pc ≤ executableCount code.operations, labelPC code.operations label = some pc

variable {code : MicroCode} {constants : List Constant} {locals : List Local}
  {rows : List (List Nat)}

section Checks

variable {validateInstruction : Operation → Except String Unit} {pc : Nat}

variable {instruction : MicroInstruction}

variable {instrs : List MicroInstruction} {op : Operation} {flow : RegisterFlow} {off : Nat}

theorem validateInstructions_at
    (hv : validateInstructions validateInstruction code constants locals off
      instrs = .ok ()) (hi : instrs[pc]? = some instruction) :
    validateOperands validateInstruction code constants locals (off + pc) instruction = .ok () := by
  induction instrs generalizing off pc with
  | nil => cases hi
  | cons head tail ih =>
    obtain ⟨_, hh, ht⟩ := bind_eq_ok.mp hv
    cases pc with
    | zero =>
      cases hi
      exact hh
    | succ pc =>
      have hr := ih ht hi
      rwa [Nat.add_assoc, Nat.add_comm 1] at hr

theorem validateInputs_mem {inputs : List Operand}
    (hv : validateInputs code constants locals pc inputs = .ok ()) :
    ∀ input ∈ inputs, validateInput code constants locals pc input = .ok () := by
  induction inputs with
  | nil => simp
  | cons head tail ih =>
    obtain ⟨_, hh, ht⟩ := bind_eq_ok.mp hv
    rw [forall_mem_cons]
    exact ⟨hh, ih ht⟩

theorem validateOutputs_mem {outputs pre : List Output}
    (hv : validateOutputs code locals pc op flow pre outputs = .ok ()) :
    ∀ output ∈ outputs, validateOutputRange code locals pc op flow.outputs.length output =
        .ok () := by
  induction outputs generalizing pre with
  | nil => simp
  | cons head tail ih =>
    obtain ⟨_, hh, ht⟩ := bind_eq_ok.mp hv
    rw [forall_mem_cons]
    split_ifs at ht
    · cases ht
    · cases ht
    · exact ⟨hh, ih ht⟩

theorem validateReleases_mem {text : String} {slots pre : List Nat}
    (hv : validateReleases code pc text pre slots = .ok ()) :
    ∀ slot ∈ slots, slot < code.types.length := by
  induction slots generalizing pre with
  | nil => simp
  | cons head tail ih =>
    rw [validateReleases] at hv
    rw [forall_mem_cons]
    split_ifs at hv with hr
    · cases hv
    · cases hv
    · exact ⟨by omega, ih hv⟩

/-- What the first loop has checked of an instruction. -/
structure Checked (code : MicroCode) (constants : List Constant)
    (locals : List Local) (pc : Nat) (instruction : MicroInstruction) : Prop where
  operands : instruction.operands < code.operands.length
  arity : ((code.flow instruction).inputs.length,
    (code.flow instruction).outputs.length) = instruction.operation.arity
  inputs : ∀ input ∈ (code.flow instruction).inputs,
    validateInput code constants locals pc input = .ok ()
  outputs : ∀ output ∈ (code.flow instruction).outputs,
    validateOutputRange code locals pc instruction.operation
      (code.flow instruction).outputs.length output = .ok ()
  release : ∀ slot ∈ (code.flow instruction).release, slot < code.types.length
  releaseBefore : ∀ slot ∈ (code.flow instruction).releaseBefore, slot < code.types.length
  label : validateLabel code pc (code.flow instruction) instruction.operation = .ok ()

theorem validateOperands_checked
    (hv : validateOperands validateInstruction code constants locals pc instruction = .ok ()) :
    Checked code constants locals pc instruction := by
  unfold validateOperands at hv
  cases hf : code.operands[instruction.operands]? with
  | none =>
    rw [hf] at hv
    cases hv
  | some flow =>
    rw [hf] at hv
    obtain ⟨_, _, hv⟩ := bind_eq_ok.mp hv
    split_ifs at hv with ha
    · cases hv
    · obtain ⟨_, hi, hv⟩ := bind_eq_ok.mp hv
      obtain ⟨_, ho, hv⟩ := bind_eq_ok.mp hv
      obtain ⟨_, hr, hv⟩ := bind_eq_ok.mp hv
      obtain ⟨_, hl, hb⟩ := bind_eq_ok.mp hv
      have hs : code.flow instruction = flow := by rw [MicroCode.flow, hf]; rfl
      rw [← hs] at ha hi ho hr hl hb
      exact ⟨(List.getElem?_eq_some_iff.mp hf).1, not_not.mp ha,
        validateInputs_mem hi, validateOutputs_mem ho,
        validateReleases_mem hr, validateReleases_mem hb, hl⟩

/-- The first loop accepts every instruction. -/
def AllChecked (code : MicroCode) (constants : List Constant) (locals : List Local) :
    Prop :=
  ∀ (pc : Nat) (instruction : MicroInstruction), code.instructions[pc]? = some instruction →
      Checked code constants locals pc instruction

theorem operations_getElem? (pc : Nat) :
    code.operations[pc]? = (code.instructions[pc]?).map (·.operation) :=
  getElem?_map

theorem validateLabel_label {name : String}
    (hv : validateLabel code pc flow (.label name) = .ok ()) :
    flow.release = [] ∧ flow.releaseBefore = [] ∧ .label name ∉ code.operations.take pc := by
  rw [validateLabel] at hv
  by_cases hr : flow.release ≠ [] ∨ flow.releaseBefore ≠ []
  · rw [if_pos hr] at hv
    cases hv
  · rw [if_neg hr] at hv
    by_cases hd : label name ∈ code.operations.take pc
    · rw [if_pos hd] at hv
      cases hv
    · simp only [not_or, not_not] at hr
      exact ⟨hr.1, hr.2, hd⟩

theorem AllChecked.labelsUnique (hchecked : AllChecked code constants locals) :
    LabelsUnique code.operations := by
  have hla : ∀ name first second, Defines code.operations name first →
      Defines code.operations name second → first ≤ second := by
    intro name first second hf hs
    rw [Defines, operations_getElem?, Option.map_eq_some_iff] at hf
    obtain ⟨instruction, hi, hl⟩ := hf
    have hv := (hchecked first instruction hi).label
    rw [hl] at hv
    by_contra hlt
    refine (validateLabel_label hv).2.2 (mem_iff_getElem?.mpr ⟨second, ?_⟩)
    rw [getElem?_take_of_lt (by omega)]
    exact hs
  intro name first second hf hs
  exact Nat.le_antisymm (hla name first second hf hs) (hla name second first hs hf)

theorem allSuccessors_at (hrows : allSuccessors code off instrs = .ok rows)
    (hi : instrs[pc]? = some instruction) :
    ∃ row, rows[pc]? = some row ∧ successors code (off + pc) instruction.operation = .ok row := by
  induction instrs generalizing off pc rows with
  | nil => cases hi
  | cons head tail ih =>
    obtain ⟨row, hro, hr⟩ := bind_eq_ok.mp hrows
    obtain ⟨others, ho, rfl⟩ := map_eq_ok.mp hr
    cases pc with
    | zero =>
      cases hi
      exact ⟨row, rfl, hro⟩
    | succ pc =>
      obtain ⟨found, hf, hs⟩ := ih ho hi
      refine ⟨found, hf, ?_⟩
      rwa [Nat.add_assoc, Nat.add_comm 1] at hs

theorem targetPositions_mem {labels : List String} {tgts : List Nat}
    (ht : targetPositions code pc labels = .ok tgts) :
    ∀ label ∈ labels, ∃ target ∈ tgts, labelPosition code.operations label = some target := by
  induction labels generalizing tgts with
  | nil => simp
  | cons label labels ih =>
    rw [targetPositions] at ht
    cases hl : labelPosition code.operations label with
    | none =>
      rw [hl] at ht
      cases ht
    | some target =>
      rw [hl] at ht
      obtain ⟨others, hot, rfl⟩ := map_eq_ok.mp ht
      rw [forall_mem_cons]
      refine ⟨⟨target, mem_cons_self, hl⟩, fun other ho => ?_⟩
      obtain ⟨found, hf, hpos⟩ := ih hot other ho
      exact ⟨found, mem_cons_of_mem _ hf, hpos⟩

theorem successors_mem {row : List Nat} (hr : successors code pc op = .ok row) :
    (op.fallsThrough = true → pc + 1 < code.instructions.length → pc + 1 ∈ row) ∧
      ∀ label ∈ op.targets, ∃ target ∈ row, labelPosition code.operations label = some target := by
  obtain ⟨tgts, ht, rfl⟩ := map_eq_ok.mp hr
  refine ⟨fun hf hlen => by simp [hf, hlen], fun label hl => ?_⟩
  obtain ⟨target, htg, hpos⟩ := targetPositions_mem ht label hl
  exact ⟨target, mem_append_right _ htg, hpos⟩

/-- A label of accepted code is found at a position and a program counter. -/
theorem AllChecked.labelPC_eq (hchecked : AllChecked code constants locals)
    {label : String} {pos : Nat}
    (hpos : labelPosition code.operations label = some pos) :
    pos < code.instructions.length ∧ Defines code.operations label pos ∧
      labelPC code.operations label = some (executionPC code.operations pos) := by
  obtain ⟨found, hd, -⟩ := findLabel_eq_some hpos
  have huq := hchecked.labelsUnique
  rw [labelPosition_of_unique huq hd] at hpos
  cases hpos
  have hlen := (List.getElem?_eq_some_iff.mp hd).1
  rw [MicroCode.operations, List.length_map] at hlen
  exact ⟨hlen, hd, labelPC_of_unique huq hd⟩

theorem AllChecked.inRange (hchecked : AllChecked code constants locals)
    (hrows : allSuccessors code 0 code.instructions = .ok rows)
    (hi : code.instructions[pc]? = some instruction) :
    InRange code constants locals instruction := by
  have hfs := hchecked pc instruction hi
  refine ⟨hfs.operands, fun input hin => ?_, fun output ho => ?_,
    hfs.release, hfs.releaseBefore, fun label hl => ?_⟩
  · have hv := hfs.inputs input hin
    cases input with
    | slot idx | localVar idx =>
      simp only [validateInput] at hv
      split_ifs at hv with hr
      · cases hv
      · exact Nat.lt_of_not_le hr
    | constant idx =>
      simp only [validateInput] at hv
      cases hc : constants[idx]? with
      | none =>
        rw [hc] at hv
        cases hv
      | some constant => exact (List.getElem?_eq_some_iff.mp hc).1
  · have hv := hfs.outputs output ho
    cases output with
    | slot idx =>
      simp only [validateOutputRange] at hv
      split_ifs at hv with hr
      · cases hv
      · exact Nat.lt_of_not_le hr
    | localVar idx =>
      simp only [validateOutputRange] at hv
      split_ifs at hv with hr
      · cases hv
      · simp only [Bool.or_eq_true, decide_eq_true_eq, not_or] at hr
        exact Nat.lt_of_not_le hr.2
  · obtain ⟨row, -, hro⟩ := allSuccessors_at hrows hi
    obtain ⟨tgt, -, hpos⟩ := (successors_mem hro).2 label hl
    obtain ⟨hlen, -, hla⟩ := hchecked.labelPC_eq hpos
    refine ⟨executionPC code.operations tgt, ?_, hla⟩
    have hall : executionPC code.operations code.instructions.length =
        executableCount code.operations := by
      rw [executionPC, take_of_length_le (by simp [MicroCode.operations])]
    rw [← hall]
    exact executionPC_mono code.operations (Nat.le_of_lt hlen)

end Checks

section Analysis

variable {first second : Finset Nat} {initialized : Finset Nat} {state : Finset Nat}
  {frame : SlotFrame}

theorem RegisterFlow.enter_mono (flow : RegisterFlow)
    (hsub : first ⊆ second) : flow.enter first ⊆ flow.enter second :=
  Finset.sdiff_subset_sdiff hsub subset_rfl

theorem RegisterFlow.write_mono (flow : RegisterFlow)
    (hsub : first ⊆ second) : flow.write first ⊆ flow.write second :=
  Finset.union_subset_union hsub subset_rfl

variable {pc : Nat}

theorem transfer_eq_ok {flow : RegisterFlow} {next : Finset Nat}
    (ht : transfer pc flow state = .ok next) :
    (∀ slot ∈ flow.inputSlots, slot ∈ flow.enter state) ∧
      next = flow.write (flow.enter state) \ flow.release.toFinset := by
  unfold transfer at ht
  cases hf : flow.inputSlots.find? (· ∉ flow.enter state) with
  | some slot =>
    rw [hf] at ht
    cases ht
  | none =>
    rw [hf] at ht
    cases ht
    refine ⟨fun slot hs => ?_, rfl⟩
    simpa using find?_eq_none.mp hf slot hs

/-- The rest of a line from a position ends in states that cover it. -/
def LineFrom (code : MicroCode) (rows : List (List Nat)) (states : Nat → Option (Finset Nat))
    (pc : Nat) (state : Finset Nat) : Prop :=
  ∃ length last out, scanLine code rows length pc state = .ok (last, out) ∧
    ∀ target ∈ rows[last]?.getD [], ∃ held, states target = some held ∧ held ⊆ out

/-- The analysis vouches for a position with these slots initialized. -/
def Covered (code : MicroCode) (rows : List (List Nat))
    (states : Nat → Option (Finset Nat)) (pc : Nat) (initialized : Finset Nat) : Prop :=
  ∃ state ⊆ initialized, LineFrom code rows states pc state

variable {states : Nat → Option (Finset Nat)}

theorem lineFrom_of_stable (hstable : Worklist.Stable (lineFlow code rows) states pc state) :
    LineFrom code rows states pc state := by
  obtain ⟨tgts, next, hf, ht⟩ := hstable
  obtain ⟨⟨last, out⟩, hs, hl⟩ := map_eq_ok.mp hf
  cases hl
  exact ⟨_, last, out, hs, ht⟩

variable (hstable : ∀ node state, states node = some state →
  Worklist.Stable (lineFlow code rows) states node state)
include hstable

/-- One instruction of a line: its inputs are there, and its successors are
covered by what it leaves. -/
theorem LineFrom.step (hl : LineFrom code rows states pc state) :
    let flow := code.flowAt pc
    (∀ slot ∈ flow.inputSlots, slot ∈ flow.enter state) ∧ ∀ next ∈ rows[pc]?.getD [],
        Covered code rows states next (flow.write (flow.enter state) \ flow.release.toFinset) := by
  intro flow
  obtain ⟨length, last, out, hs, hj⟩ := hl
  unfold scanLine at hs
  obtain ⟨after, ht, hr⟩ := bind_eq_ok.mp hs
  obtain ⟨hi, rfl⟩ := transfer_eq_ok ht
  refine ⟨hi, fun next hnext => ?_⟩
  have he : ∀ {after : Finset Nat}, Except.ok (pc, after) = (.ok (last, out) : Except String _) →
      Covered code rows states next after := by
    intro after heq
    cases heq
    obtain ⟨held, hheld, hsub⟩ := hj next hnext
    exact ⟨held, hsub, lineFrom_of_stable (hstable next held hheld)⟩
  cases length with
  | zero => exact he hr
  | succ length =>
    split_ifs at hr with hc
    · rw [hc.1] at hnext
      obtain rfl : next = pc + 1 := by simpa using hnext
      exact ⟨_, subset_rfl, length, last, out, hr, hj⟩
    · exact he hr

variable (hchecked : AllChecked code constants locals)
  (hrows : allSuccessors code 0 code.instructions = .ok rows)
include hchecked hrows

/-- A label changes nothing, so what covers it covers the next position. -/
theorem Covered.label {instruction : MicroInstruction}
    (hi : code.instructions[pc]? = some instruction)
    (hl : instruction.operation.isLabel = true) (hlen : pc + 1 < code.instructions.length)
    (hc : Covered code rows states pc initialized) :
    Covered code rows states (pc + 1) initialized := by
  obtain ⟨state, hsub, hli⟩ := hc
  obtain ⟨-, hnext⟩ := hli.step hstable
  obtain ⟨row, hro, hs⟩ := allSuccessors_at hrows hi
  rw [Nat.zero_add] at hs
  cases hop : instruction.operation with
  | label name =>
    have hfs := hchecked pc instruction hi
    have he := hfs.arity
    have hre := hfs.label
    rw [hop] at he hre
    obtain ⟨hrel, hb, -⟩ := validateLabel_label hre
    simp only [arity, Prod.mk.injEq, length_eq_zero_iff] at he
    have hf : code.flowAt pc = {} := by
      have hsa : code.flowAt pc = code.flow instruction := by
        simp [MicroCode.flowAt, hi]
      cases hfl : code.flow instruction
      simp_all
    have hmem : pc + 1 ∈ rows[pc]?.getD [] := by
      rw [hro]
      exact (successors_mem hs).1 (by rw [hop]; rfl) hlen
    obtain ⟨held, hheld, hr⟩ := hnext (pc + 1) hmem
    refine ⟨held, hheld.trans ?_, hr⟩
    rw [hf]
    simpa [write, enter, outputSlots] using hsub
  | _ => simp [hop, isLabel] at hl

theorem Covered.walk (offset : Nat) (hlen : pc + offset < code.instructions.length)
    (hsa : executionPC code.operations (pc + offset) = executionPC code.operations pc)
    (hc : Covered code rows states pc initialized) :
    Covered code rows states (pc + offset) initialized := by
  induction offset with
  | zero => exact hc
  | succ offset ih =>
    have hf := executionPC_mono code.operations (Nat.le_add_right pc offset)
    have hs := executionPC_mono code.operations (Nat.le_add_right (pc + offset) 1)
    have hlt : pc + offset < code.instructions.length := by omega
    have hg : code.operations[pc + offset]? = some (code.instructions[pc + offset]).operation := by
      rw [operations_getElem?, getElem?_eq_getElem hlt]
      rfl
    have hw := executionPC_succ hg
    rw [Nat.add_assoc] at hw hs
    refine Covered.label hstable hchecked hrows (getElem?_eq_getElem hlt) ?_
      (by omega) (ih hlt (by omega))
    have hz : (code.instructions[pc + offset]).operation.weight = 0 := by omega
    unfold weight at hz
    split_ifs at hz with hl
    exact hl

/-- The analysis vouches for the instruction that a frame is about to run. -/
def Vouched (code : MicroCode) (rows : List (List Nat))
    (states : Nat → Option (Finset Nat)) (frame : SlotFrame) : Prop :=
  ∀ position instruction, code.instructions[position]? = some instruction →
    instruction.operation.isLabel = false →
    executionPC code.operations position = frame.pc →
      ∃ state, LineFrom code rows states position state ∧
        (code.flow instruction).enter state ⊆ frame.begin (code.flow instruction)

/-- What covers a position vouches for a frame that goes on there. -/
theorem vouched_of_covered {start : Nat} (hs : start < code.instructions.length →
      Covered code rows states start (frame.initialized \ frame.slotRelease.toFinset))
    (hpc : executionPC code.operations start = frame.pc) :
    Vouched code rows states frame := by
  intro position instruction hpos hl hsa
  have hlen := (List.getElem?_eq_some_iff.mp hpos).1
  have hle : start ≤ position := by
    -- a position before the start that is executable has a smaller counter
    by_contra hlt
    have hb : position + 1 ≤ start := Nat.lt_of_not_le hlt
    have hnext := executionPC_mono code.operations hb
    have hg : code.operations[position]? = some instruction.operation := by
      rw [operations_getElem?, hpos]
      rfl
    have hw := executionPC_succ hg
    rw [weight, hl] at hw
    simp only [Bool.false_eq_true, if_false] at hw
    omega
  obtain ⟨offset, rfl⟩ := Nat.exists_eq_add_of_le hle
  obtain ⟨state, hsub, hli⟩ := Covered.walk hstable hchecked hrows offset hlen
    (hsa.trans hpc.symm) (hs (by omega))
  refine ⟨state, hli, ?_⟩
  unfold SlotFrame.begin
  split_ifs
  · exact (Finset.sdiff_subset.trans hsub).trans Finset.sdiff_subset
  · exact enter_mono _ hsub

theorem Vouched.step {next : SlotFrame} (hv : Vouched code rows states frame)
    (hst : SlotStep code frame next) : Vouched code rows states next := by
  cases hst with
  | @advance instruction nextPC hru hfo =>
    obtain ⟨pos, hpos, hl, hpc⟩ := MicroCode.position_of_executable? hru
    obtain ⟨state, hli, hb⟩ := hv pos instruction hpos hl hpc
    obtain ⟨-, hnext⟩ := hli.step hstable
    obtain ⟨row, hro, hsu⟩ := allSuccessors_at hrows hpos
    rw [Nat.zero_add] at hsu
    have hsa : code.flowAt pos = code.flow instruction := by
      simp [MicroCode.flowAt, hpos]
    have hc : ∀ start ∈ row, Covered code rows states start
        ((code.flow instruction).write (frame.begin (code.flow instruction)) \
          (code.flow instruction).release.toFinset) := by
      intro start hs
      rw [hro] at hnext
      obtain ⟨held, hheld, hr⟩ := hnext start hs
      rw [hsa] at hheld
      refine ⟨held, hheld.trans (Finset.sdiff_subset_sdiff ?_ subset_rfl), hr⟩
      exact write_mono _ hb
    rcases hfo with ⟨hfa, rfl⟩ | ⟨label, ht, hla⟩
    · refine vouched_of_covered hstable hchecked hrows (fun hlen => hc (pos + 1) ?_) ?_
      · exact (successors_mem hsu).1 hfa hlen
      · have hg : code.operations[pos]? = some instruction.operation := by
          rw [operations_getElem?, hpos]
          rfl
        rw [executionPC_succ hg, hpc, weight, hl]
        rfl
    · obtain ⟨start, hs, hpl⟩ := (successors_mem hsu).2 label ht
      obtain ⟨hlen, -, hf⟩ := hchecked.labelPC_eq hpl
      rw [hla] at hf
      exact vouched_of_covered hstable hchecked hrows
        (fun _ => hc start hs) (Option.some.inj hf).symm
  | @suspend instruction hru =>
    intro pos other hpos hl hpc
    have ho := MicroCode.executable?_executionPC hpos hl
    rw [hpc, hru] at ho
    cases ho
    obtain ⟨state, hli, hb⟩ := hv pos instruction hpos hl hpc
    refine ⟨state, hli, ?_⟩
    rwa [SlotFrame.begin, if_pos rfl]

theorem vouched_of_run (hz : states 0 = some ∅)
    (hr : Relation.ReflTransGen (SlotStep code) { pc := 0 } frame) :
    Vouched code rows states frame := by
  induction hr with
  | refl =>
    have he : executionPC code.operations 0 = 0 := rfl
    refine vouched_of_covered hstable hchecked hrows (fun _ => ?_) he
    exact ⟨∅, Finset.empty_subset _, lineFrom_of_stable (hstable 0 ∅ hz)⟩
  | tail _ hs ih => exact ih.step hstable hchecked hrows hs

end Analysis

theorem analysisStart_valid (flow : Worklist.Flow Nat (Finset Nat) String) :
    analysisStart.Valid flow := by
  refine ⟨⟨fun node => by simp [analysisStart], by simp [analysisStart],
    by simp [analysisStart]⟩, fun node state hs hn => ?_⟩
  have hz : node ≠ 0 := by
    rintro rfl
    exact hn mem_cons_self
  simp [analysisStart, hz] at hs

variable {blocks : List BasicBlock} {steps : Nat}

/-- What acceptance establishes. -/
theorem validateMicroCode_accepted {validateInstruction : Operation → Except String Unit}
    (ha : validateMicroCode validateInstruction code blocks constants locals
      steps = some (.ok ())) :
    AllChecked code constants locals ∧ ∃ rows, allSuccessors code 0 code.instructions = .ok rows ∧
        (code.instructions ≠ [] → ∃ states, states 0 = some ∅ ∧
          ∀ node state, states node = some state →
            Worklist.Stable (lineFlow code rows) states node state) := by
  unfold validateMicroCode at ha
  cases hch : (validateInstructions validateInstruction code constants locals 0
      code.instructions >>= fun _ =>
      validateTypes 0 code.types >>= fun _ =>
      validateBlocks code blocks >>= fun _ =>
      allSuccessors code 0 code.instructions) with
  | error text =>
    rw [hch] at ha
    cases ha
  | ok rows =>
    rw [hch] at ha
    obtain ⟨_, hi, hr⟩ := bind_eq_ok.mp hch
    obtain ⟨_, _, hr⟩ := bind_eq_ok.mp hr
    obtain ⟨_, _, hrows⟩ := bind_eq_ok.mp hr
    refine ⟨fun pc instruction hin => ?_, rows, hrows, fun hc => ?_⟩
    · have hv := validateInstructions_at hi hin
      rw [Nat.zero_add] at hv
      exact validateOperands_checked hv
    · dsimp only at ha
      rw [if_neg hc] at ha
      split_ifs at ha with hl
      · cases ha
      · obtain ⟨res, hs, hre⟩ := Option.map_eq_some_iff.mp ha
        cases res with
        | error text => cases hre
        | ok states =>
          obtain ⟨hb, hstable⟩ :=
            Worklist.solve_stable (analysisStart_valid _) hs
          obtain ⟨held, hheld, hle⟩ := hb 0 ∅ rfl
          refine ⟨states, ?_, hstable⟩
          rw [hheld, Finset.subset_empty.mp hle]

/-- In every run of accepted code an instruction reads initialized slots only,
and the indices it uses are in range. -/
theorem validateMicroCode_sound {validateInstruction : Operation → Except String Unit}
    {code : MicroCode} {constants : List Constant}
    {locals : List Local}
    (haccepted : validateMicroCode validateInstruction code blocks constants locals
      steps = some (.ok ()))
    {frame : SlotFrame} (hrun : Relation.ReflTransGen (SlotStep code) { pc := 0 } frame)
    {instruction : MicroInstruction}
    (hinstruction : code.executable? frame.pc = some instruction) :
    (∀ slot ∈ (code.flow instruction).inputSlots, slot ∈ frame.begin (code.flow instruction)) ∧
      InRange code constants locals instruction := by
  obtain ⟨hchecked, rows, hrows, hanalysis⟩ := validateMicroCode_accepted haccepted
  obtain ⟨position, hposition, hlabel, hpc⟩ :=
    MicroCode.position_of_executable? hinstruction
  have hcode : code.instructions ≠ [] := by
    intro hempty
    rw [hempty] at hposition
    cases hposition
  obtain ⟨states, hzero, hstable⟩ := hanalysis hcode
  have hvouched := vouched_of_run hstable hchecked hrows hzero hrun
  obtain ⟨state, hline, hbegin⟩ := hvouched position instruction hposition hlabel hpc
  have hsame : code.flowAt position = code.flow instruction := by
    simp [MicroCode.flowAt, hposition]
  refine ⟨fun slot hslot => hbegin ?_, hchecked.inRange hrows hposition⟩
  have hinputs := (hline.step hstable).1
  rw [hsame] at hinputs
  exact hinputs slot hslot

/-- A counter in slot 0 that is tested in a loop; the body writes slot 1 and
releases it at the entry of the test. -/
def loopCode : MicroCode where
  types := [.builtin .bool, .builtin .bool]
  instructions :=
    [{ operation := .zero (.builtin .bool), operands := 0 },
     { operation := .label "loop", operands := 1 },
     { operation := .jumpIf "end" false, operands := 2 },
     { operation := .zero (.builtin .bool), operands := 3 },
     { operation := .jump "loop", operands := 1 },
     { operation := .label "end", operands := 1 },
     { operation := .returnValues 1, operands := 4 }]
  operands :=
    [{ outputs := [.slot 0] }, {}, { inputs := [.slot 0], releaseBefore := [1] },
     { outputs := [.slot 1] }, { inputs := [.slot 0] }]

theorem loopCode_sound :
    let frame : SlotFrame :=
      { pc := 1, slotPC := some 0, slotRelease := [], initialized := {0} }
    (∀ slot ∈ [0], slot ∈ frame.begin { inputs := [.slot 0], releaseBefore := [1] }) ∧
      InRange loopCode [] [] { operation := .jumpIf "end" false, operands := 2 } := by
  have haccepted : validateMicroCode (fun _ => .ok ()) loopCode [] [] [] 10 = some (.ok ()) := by
    decide +kernel
  have hrun : Relation.ReflTransGen (SlotStep loopCode) { pc := 0 }
      { pc := 1, slotPC := some 0, slotRelease := [], initialized := {0} } := by
    have hfirst : loopCode.executable? (SlotFrame.pc { pc := 0 }) =
        some { operation := .zero (.builtin .bool), operands := 0 } := rfl
    exact .single (SlotStep.advance hfirst (.inl ⟨rfl, rfl⟩))
  exact validateMicroCode_sound haccepted hrun rfl

end MiniGo.Bytecode
