/-
What fused instructions do, compared with the instructions they replace.

At each site of each pass the members of the site are run one after the other in
the old code, and the fused instruction in the new. The two agree on the locals,
on the temporaries that the new code still has, on where control goes, on the
panic and on the cost, exactly when the site and the frame meet a condition.
-/
import MiniGo.Emit.FusionSites

namespace MiniGo.Emit

open MiniGo.Bytecode MiniGo.Runtime Operation FusionPass Rewrite MicroCode UpdateBranch Option

/-- The declared types of a function as the loader sees them. -/
def staticTypes (ctx : FusionContext) (code : MicroCode) : StaticTypes where
  localType index := ctx.locals[index]?.getD {}
  constantType index := ctx.constants[index]?.getD {}
  slotType index := code.types[index]?.getD {}

theorem staticTypes_operandType {ctx : FusionContext} {code : MicroCode}
    {operand : Operand} {type : TypeRef}
    (h : slotOperandType ctx code operand = some type) :
    (staticTypes ctx code).operandType operand = type := by
  cases operand <;>
    simp_all [slotOperandType, StaticTypes.operandType, staticTypes]

/-- The runtime that executes the code: it knows the compiler's types, and
identical types have the same underlying primitive. -/
structure Executes (machine : RegisterMachine) (ctx : FusionContext) : Prop where
  types : machine.types = ctx.types
  identical : ∀ left right, ctx.identical left right = true →
    ctx.types.primitive left = ctx.types.primitive right
  laws : machine.Laws

section Execution

variable (machine : RegisterMachine) (static : StaticTypes) (code : MicroCode)

/-- `clearSlotValue` on a list of temporaries. -/
def clearSlots {World : Type} (released : List Nat) (frame : Frame World) :
    Frame World :=
  { frame with
    slots := fun slot => if slot ∈ released then none else frame.slots slot }

def mapFrame {World : Type} (change : Frame World → Frame World) :
    Outcome World → Outcome World
  | .next pc frame => .next pc (change frame)
  | .fault fault frame => .fault fault (change frame)

/-- One instruction with the releases around it (`beginMicroInstruction`). -/
def stepInstruction (pc : Nat) (instruction : MicroInstruction)
    (frame : Frame machine.World) : Outcome machine.World :=
  mapFrame (clearSlots (code.flow instruction).release)
    (executeInstruction machine static (labelPC code.operations) pc
      instruction.operation (code.flow instruction)
      (clearSlots (code.flow instruction).releaseBefore frame))

/-- A number of instructions one after the other, with the cost that they are
charged; an instruction is charged before it runs. -/
def runFor : Nat → Nat → Frame machine.World → Nat × Outcome machine.World
  | 0, pc, frame => (0, .next pc frame)
  | count + 1, pc, frame =>
    match code.executable? pc with
    | none => (0, .next pc frame)
    | some instruction =>
      match stepInstruction machine static code pc instruction frame with
      | .next pc frame =>
        let rest := runFor count pc frame
        (instruction.logicalCost + rest.1, rest.2)
      | .fault fault frame =>
        (instruction.logicalCost, .fault fault frame)

variable {machine static code}

theorem clearSlots_nil {World : Type} (frame : Frame World) : clearSlots [] frame = frame := by
  simp [clearSlots]

variable {pc : Nat} {instr : MicroInstruction} {frame : Frame machine.World}

theorem stepInstruction_unreleased (hr : (code.flow instr).release = [])
    (hb : (code.flow instr).releaseBefore = []) :
    stepInstruction machine static code pc instr frame =
      executeInstruction machine static (labelPC code.operations) pc
        instr.operation (code.flow instr) frame := by
  rw [stepInstruction, hr, hb, clearSlots_nil]
  cases executeInstruction machine static (labelPC code.operations) pc
    instr.operation (code.flow instr) frame <;>
    simp [mapFrame, clearSlots_nil]

section

variable (hinstruction : code.executable? pc = some instr)
include hinstruction

variable {after : Frame machine.World}

/-- An instruction that goes on. -/
theorem runFor_next {count next : Nat}
    (hs : stepInstruction machine static code pc instr frame = .next next after) :
    runFor machine static code (count + 1) pc frame =
      (instr.logicalCost + (runFor machine static code count next after).1,
        (runFor machine static code count next after).2) := by
  simp [runFor, hinstruction, hs]

/-- An instruction that fails. -/
theorem runFor_fault {count : Nat} {fault : Fault}
    (hs : stepInstruction machine static code pc instr frame = .fault fault after) :
    runFor machine static code (count + 1) pc frame = (instr.logicalCost, .fault fault after) := by
  simp [runFor, hinstruction, hs]

/-- One instruction on its own. -/
theorem runFor_one : runFor machine static code 1 pc frame = (instr.logicalCost,
        stepInstruction machine static code pc instr frame) := by
  unfold runFor
  simp only [hinstruction]
  cases stepInstruction machine static code pc instr frame <;> rfl

end

end Execution

section Typed

variable {mach : RegisterMachine} {static : StaticTypes} {frame : Frame mach.World}

variable {oper oriented : Operator} {opd left right other : Operand}

theorem compareOrdering_inverse (hi : inverseComparisonOperator oper = some oriented)
    (ordering : Option Ordering) :
    compareOrdering oper (ordering.map Ordering.swap) =
      compareOrdering oriented ordering := by
  cases oper <;> simp only [inverseComparisonOperator, some.injEq,
    reduceCtorEq] at hi <;> subst hi <;>
    rcases ordering with _ | _ | _ | _ <;> rfl

theorem isComparison_oriented (ho : isComparison oper = true)
    (hor : orientComparison opd oper left right =
      some (oriented, other)) : isComparison oriented = true := by
  rcases orientComparison_eq_some hor with ⟨-, -, rfl⟩ | ⟨-, -, hi⟩
  · exact ho
  · cases oper <;> simp only [inverseComparisonOperator, some.injEq,
      reduceCtorEq] at hi <;> subst hi <;> rfl

/-- A comparison decides as the oriented one does. -/
theorem evalOperands_oriented (laws : mach.Laws)
    {val otherValue : VmValue} {ordering : Option Ordering}
    (hop : isComparison oper = true)
    (hori : orientComparison opd oper left right = some (oriented, other))
    (hva : OperandTyped mach static frame opd val)
    (ho : OperandTyped mach static frame other otherValue)
    (hor : compareNumbers mach val otherValue = some ordering) :
    evalOperands mach static frame oper left right =
      .ok (newBoolValue (compareOrdering oriented ordering)) := by
  rcases orientComparison_eq_some hori with ⟨rfl, rfl, rfl⟩ | ⟨rfl, rfl, hi⟩
  · exact evalOperands_comparison mach static hop hva ho hor
  · rw [evalOperands_comparison mach static hop ho hva
      (compareNumbers_swap laws hor), compareOrdering_inverse hi]

end Typed

section Agreement

/-- Two frames are the same but for a temporary. -/
structure FramesAgree {World : Type} (temporary : Option Nat)
    (first second : Frame World) : Prop where
  cells : first.cells = second.cells
  slots : ∀ slot, some slot ≠ temporary → first.slots slot = second.slots slot
  packed : first.packed = second.packed
  resolved : first.resolved = second.resolved
  world : first.world = second.world

/-- Two outcomes, of the old and of the new code, are the same: both go on at
the same place or fail in the same way, with the same frame. -/
def OutcomesAgree {World : Type} (rewrite : Rewrite)
    (operations : List Operation) (temporary : Option Nat) :
    Outcome World → Outcome World → Prop
  | .next pc frame, .next pc' frame' =>
    rewrite.Corresponds operations pc pc' ∧ FramesAgree temporary frame frame'
  | .fault fault frame, .fault fault' frame' =>
    fault = fault' ∧ FramesAgree temporary frame frame'
  | _, _ => False

/-- The position at which the members of a site start. -/
def Site.entry (site : Site) : Nat :=
  site.members.headD 0

variable (machine : RegisterMachine) (ctx : FusionContext) (code : MicroCode)
  (pass : FusionPass) (site : Site) (frame : Frame machine.World)

/-- The members of a site, run one after the other, and the fused instruction
agree on the cost and on the outcome. -/
def SiteAgrees : Prop :=
  let original := runFor machine (staticTypes ctx code) code site.members.length
    (executionPC code.operations site.entry) frame
  let fused := runFor machine (staticTypes ctx code) (pass.run ctx code) 1
    ((pass.rewrite ctx code).newPC code.operations site.entry) frame
  original.1 = fused.1 ∧ OutcomesAgree (pass.rewrite ctx code) code.operations site.temporary
      original.2 fused.2

/-- The numbers that a site reads are of their declared types. -/
def SiteTyped : Prop :=
  match site.fused.operation, site.fused.flow.inputs with
  | .updateCompareBranch _, inputs =>
    ∀ operand ∈ inputs, ∃ value, OperandTyped machine (staticTypes ctx code) frame operand value
  | .lenCompareBranch _, [_, other] =>
    ∃ value, OperandTyped machine (staticTypes ctx code) frame other value
  | _, _ => True

/-- How a comparison of two numbers decides. -/
def comparesAs (operator : Operator) (left right : VmValue) : Bool :=
  (compareNumbers machine left right).elim false (compareOrdering operator)

/-- A comparison of the updated local with itself decides the same with the old
value of the local, or it does not matter how it decides. -/
def SelfComparisonStable (payload : UpdateComparison) (index : Nat)
    (step : Operand) : Prop :=
  ∀ current stepValue, readOperand machine (staticTypes ctx code) frame (.localVar index) =
      .ok current →
    readOperand machine (staticTypes ctx code) frame step = .ok stepValue →
    let updated := updatedNumber machine payload.update current stepValue
    comparesAs machine payload.comparison updated updated =
        comparesAs machine payload.comparison updated current ∨
      labelPC (pass.run ctx code).operations payload.label =
        some ((pass.rewrite ctx code).newPC code.operations site.entry + 1)

/-- The condition under which a fused instruction does what its members do. -/
def SiteCondition : Prop :=
  match site.fused.operation, site.fused.flow.inputs with
  | .updateCompareBranch payload, [.localVar index, step, other] =>
    (other = .localVar index →
      SelfComparisonStable machine ctx code pass site frame payload index step) ∧
    (FastReady machine (staticTypes ctx code) frame index step other →
      ∀ lane, frame.cells index = .direct lane → lane.type = (staticTypes ctx code).localType index)
  | .indexConvert _, [object, index] =>
    ∃ loaded, loadedValue machine (staticTypes ctx code) frame object index = .ok loaded
  | .lenCompareBranch _, [object, _] =>
    ∃ length, measuredLength machine (staticTypes ctx code) frame object = .ok length
  | _, _ => True

end Agreement

section Positions

variable {ctx : FusionContext} {code : MicroCode} {pass : FusionPass} {site : Site}

variable {position : Nat}

theorem newPC_removed {op : Operation} (ho : code.operations[position]? = some op)
    (hr : (pass.rewrite ctx code).removed position = true) :
    (pass.rewrite ctx code).newPC code.operations (position + 1) =
      (pass.rewrite ctx code).newPC code.operations position := by
  rw [newPC_succ ho, emitted, hr]
  simp [executableCount_map_label]

/-- The fused instruction is one instruction of the new code. -/
theorem newPC_position (hs : site ∈ pass.sites ctx code) :
    (pass.rewrite ctx code).newPC code.operations (site.position + 1) =
      (pass.rewrite ctx code).newPC code.operations site.position + 1 := by
  obtain ⟨op, ho, -⟩ := (site_placed hs).position
  rw [newPC_succ ho, emitted, position_not_removed hs, rewrite_override hs]
  simp [executableCount_map_label, weight, (site_placed hs).fused]

/-- The fused instruction runs at the place of its position. -/
theorem executable?_fused (hs : site ∈ pass.sites ctx code) :
    ∃ instruction, (pass.run ctx code).executable?
        ((pass.rewrite ctx code).newPC code.operations site.position) = some instruction ∧
      instruction.operation = site.fused.operation ∧
      instruction.cost = site.fused.cost ∧
      (pass.run ctx code).flow instruction = site.fused.flow := by
  obtain ⟨operation, ho, -⟩ := (site_placed hs).position
  obtain ⟨origin, hor, -⟩ := map_eq_some_iff.mp ((List.getElem?_map).symm.trans ho)
  have hk : (pass.rewrite ctx code).keep code site.position origin =
      ({ origin with operation := site.fused.operation, cost := site.fused.cost },
        site.fused.flow) := by
    rw [keep, rewrite_override hs]
  obtain ⟨kept, hke, hop, hc, hf⟩ := executable?_rewriteMicroCode hor
    (position_not_removed hs) (by rw [hk]; exact (site_placed hs).fused)
  rw [hk] at hop hc hf
  rw [run_eq_rewrite hs]
  exact ⟨kept, hke, hop, hc, hf⟩

/-- The run of a fused instruction. -/
theorem runFor_fused {machine : RegisterMachine} {static : StaticTypes}
    {frame : Frame machine.World} (hc : CodeWellFormed code)
    (hs : site ∈ pass.sites ctx code) (hco : site.fused.cost ≠ 0) :
    runFor machine static (pass.run ctx code) 1
        ((pass.rewrite ctx code).newPC code.operations site.position) frame =
      (site.fused.cost, executeInstruction machine static (labelPC (pass.run ctx code).operations)
        ((pass.rewrite ctx code).newPC code.operations site.position)
        site.fused.operation site.fused.flow frame) := by
  obtain ⟨instruction, he, ho, hi, hf⟩ :=
    executable?_fused hs
  have hfi := site_fits hc hs
  rw [runFor_one he, stepInstruction_unreleased (by rw [hf]; exact hfi.release)
    (by rw [hf]; exact hfi.releaseBefore), ho, hf]
  simp [MicroInstruction.logicalCost, hi, hco]

theorem logicalCost_ne_zero (instruction : MicroInstruction) : instruction.logicalCost ≠ 0 := by
  unfold MicroInstruction.logicalCost
  split <;> simp_all

theorem length_operations (code : MicroCode) :
    code.operations.length = code.instructions.length := by
  simp [operations]

theorem position_lt {instruction : MicroInstruction}
    (h : code.instructions[position]? = some instruction) :
    position < code.operations.length := by
  rw [length_operations]
  exact (List.getElem?_eq_some_iff.mp h).1

/-- A member of a site runs at its place of the old code. -/
theorem step_member (machine : RegisterMachine) (static : StaticTypes)
    (frame : Frame machine.World) (hc : CodeWellFormed code)
    {instruction : MicroInstruction}
    (hpos : code.instructions[position]? = some instruction)
    (hl : instruction.operation.isLabel = false) :
    code.executable? (executionPC code.operations position) = some instruction ∧
      stepInstruction machine static code (executionPC code.operations position) instruction frame =
        executeInstruction machine static (labelPC code.operations)
          (executionPC code.operations position) instruction.operation
          (code.flow instruction) frame ∧
      executionPC code.operations (position + 1) = executionPC code.operations position + 1 := by
  have hr := hc.releases _ (List.mem_of_getElem? hpos)
  refine ⟨executable?_executionPC hpos hl, stepInstruction_unreleased hr.1 hr.2, ?_⟩
  rw [executionPC_succ (operations_getElem? hpos)]
  simp [weight, hl]

end Positions

section UpdateSites

variable {machine : RegisterMachine} {ctx : FusionContext} {code : MicroCode}
  {frame : Frame machine.World} {firstPC branchPC : Nat}

theorem kind_of_sameOperandType {operand : Operand} {type : TypeRef}
    {val : VmValue} (he : Executes machine ctx)
    (hs : sameOperandType ctx code operand type = true)
    (hty : OperandTyped machine (staticTypes ctx code) frame operand val) :
    val.scalarKind = machine.kindOf type := by
  obtain ⟨found, hf, hi⟩ : ∃ found, slotOperandType ctx code operand = some found ∧
        ctx.identical found type = true := by
    unfold sameOperandType at hs
    cases hf : slotOperandType ctx code operand with
    | none => simp [hf] at hs
    | some found => exact ⟨found, rfl, by simpa [hf] using hs⟩
  rw [hty.number.1, hty.type, staticTypes_operandType hf]
  simp only [RegisterMachine.kindOf, he.types]
  rw [he.identical found type hi]

/-- The numbers in the operands of an update and a comparison. -/
structure UpdateBranch.Values (parts : UpdateBranch ctx code firstPC branchPC)
    (frame : Frame machine.World) (current stepValue otherValue : VmValue) :
    Prop where
  stepKind : stepValue.scalarKind = current.scalarKind
  otherKind : otherValue.scalarKind = current.scalarKind
  current : OperandTyped machine (staticTypes ctx code) frame (.localVar parts.update.index) current
  step : OperandTyped machine (staticTypes ctx code) frame parts.update.step stepValue
  other : OperandTyped machine (staticTypes ctx code) frame parts.other otherValue

theorem UpdateBranch.values_of_typed (he : Executes machine ctx)
    (parts : UpdateBranch ctx code firstPC branchPC)
    (hty : ∀ operand ∈ [Operand.localVar parts.update.index, parts.update.step, parts.other], ∃ val,
        OperandTyped machine (staticTypes ctx code) frame operand val) :
    ∃ current stepValue otherValue, parts.Values frame current stepValue otherValue := by
  obtain ⟨current, hc⟩ := hty (.localVar parts.update.index) (by simp)
  obtain ⟨stepValue, hs⟩ := hty parts.update.step (by simp)
  obtain ⟨otherValue, ho⟩ := hty parts.other (by simp)
  have hk : current.scalarKind = machine.kindOf parts.update.type := by
    rw [hc.number.1, hc.type]
    simp [StaticTypes.operandType, staticTypes, parts.isUpdate.type]
  exact ⟨current, stepValue, otherValue,
    (kind_of_sameOperandType he parts.isUpdate.step hs).trans hk.symm,
    (kind_of_sameOperandType he parts.sameType ho).trans hk.symm,
    hc, hs, ho⟩

variable {parts : UpdateBranch ctx code firstPC branchPC} {current stepValue otherValue : VmValue}

/-- The number that the update stores. -/
def UpdateBranch.updated (machine : RegisterMachine)
    (parts : UpdateBranch ctx code firstPC branchPC)
    (current stepValue : VmValue) : VmValue :=
  updatedNumber machine parts.update.operator current stepValue

/-- The frame after the update. -/
def UpdateBranch.after (machine : RegisterMachine)
    (parts : UpdateBranch ctx code firstPC branchPC)
    (frame : Frame machine.World) (current stepValue : VmValue) :
    Frame machine.World :=
  frame.setCell parts.update.index ((frame.cells parts.update.index).publish
    (parts.updated machine current stepValue))

/-- The other operand of the comparison after the update. -/
def UpdateBranch.otherAfter (machine : RegisterMachine)
    (parts : UpdateBranch ctx code firstPC branchPC)
    (current stepValue otherValue : VmValue) : VmValue :=
  if parts.other = .localVar parts.update.index then
    parts.updated machine current stepValue
  else otherValue

theorem execute_update (hv : parts.Values frame current stepValue otherValue)
    (labels : String → Option Nat) (pc : Nat) :
    executeInstruction machine (staticTypes ctx code) labels pc
        parts.first.operation (code.flow parts.first) frame =
      .next (pc + 1) (parts.after machine frame current stepValue) := by
  unfold executeInstruction
  rw [parts.isUpdate.operation, parts.isUpdate.inputs, parts.isUpdate.outputs]
  dsimp only
  rw [evalOperands_update machine _ parts.isUpdate.operator hv.current hv.step hv.stepKind]
  rfl

theorem comparesAs_eq {operator : Operator} {left right : VmValue} {ordering : Option Ordering}
    (h : compareNumbers machine left right = some ordering) :
    comparesAs machine operator left right = compareOrdering operator ordering := by
  simp [comparesAs, h]

section

variable (hv : parts.Values frame current stepValue otherValue)
include hv

theorem UpdateBranch.Values.updated_number :
    IsNumber machine (parts.updated machine current stepValue) :=
  updatedNumber_number machine hv.current.number

theorem UpdateBranch.Values.updated_kind :
    (parts.updated machine current stepValue).scalarKind = current.scalarKind :=
  updatedNumber_kind machine hv.current.number.2

theorem UpdateBranch.Values.updated_type : (parts.updated machine current stepValue).type =
      (staticTypes ctx code).localType parts.update.index :=
  (updatedNumber_type machine _ _ _).trans hv.current.type

theorem execute_comparison (he : Executes machine ctx) (hc : CodeWellFormed code)
    (labels : String → Option Nat) (pc : Nat) :
    executeInstruction machine (staticTypes ctx code) labels pc
        parts.second.operation (code.flow parts.second)
        (parts.after machine frame current stepValue) =
      .next (if comparesAs machine parts.operator (parts.updated machine current stepValue)
            (parts.otherAfter machine current stepValue otherValue) = parts.comparison.when
          then (labels parts.comparison.label).getD 0 else pc + 1)
        (parts.after machine frame current stepValue) := by
  have hu : OperandTyped machine (staticTypes ctx code)
      (parts.after machine frame current stepValue)
      (.localVar parts.update.index) (parts.updated machine current stepValue) :=
    operandTyped_publish hv.updated_type hv.updated_number (updatedNumber_data machine _ _ _)
  have ho : OperandTyped machine (staticTypes ctx code)
      (parts.after machine frame current stepValue) parts.other
      (parts.otherAfter machine current stepValue otherValue) := by
    unfold otherAfter
    split
    · next hs =>
      rw [hs]
      exact hu
    · next hd => exact hv.other.setCell _ hd
  have hk : (parts.otherAfter machine current stepValue otherValue).scalarKind =
        (parts.updated machine current stepValue).scalarKind := by
    unfold otherAfter
    split
    · rfl
    · rw [hv.otherKind, hv.updated_kind]
  obtain ⟨ordering, hor⟩ :=
    compareNumbers_same machine hv.updated_number.2 hk
  have hop := hc.operators parts.comparison (List.mem_of_getElem?
    (parts.operation ▸ operations_getElem? parts.branchAt))
  rw [parts.operation, executeInstruction_compareBranch parts.inputs,
    evalOperands_oriented he.laws hop parts.orient hu ho
    hor, comparesAs_eq hor]
  simp [branch, bind, Except.bind]

theorem execute_fused_update (he : Executes machine ctx) (hc : CodeWellFormed code)
    (labels : String → Option Nat) (pc : Nat) (label : String) (when : Bool) (cost : Nat) :
    executeInstruction machine (staticTypes ctx code) labels pc
        (parts.fused label when cost).operation
        (parts.fused label when cost).flow frame =
      .next (if comparesAs machine parts.operator
            (parts.updated machine current stepValue) otherValue = when
          then (labels label).getD 0 else pc + 1)
        (frame.setCell parts.update.index (fusedCell machine
          (staticTypes ctx code) frame parts.update.index parts.update.step
          parts.other (parts.updated machine current stepValue))) := by
  have hk : otherValue.scalarKind = (parts.updated machine current stepValue).scalarKind := by
    rw [hv.otherKind, hv.updated_kind]
  obtain ⟨ordering, hor⟩ :=
    compareNumbers_same machine hv.updated_number.2 hk
  have ho := hc.operators parts.comparison (List.mem_of_getElem?
    (parts.operation ▸ operations_getElem? parts.branchAt))
  have hr : updateComparison machine (staticTypes ctx code) frame
      (parts.payload label when) parts.update.index parts.update.step
      parts.other = (frame.setCell parts.update.index (fusedCell machine
          (staticTypes ctx code) frame parts.update.index parts.update.step
          parts.other (parts.updated machine current stepValue)),
          .ok (compareOrdering parts.operator ordering)) :=
    updateComparison_typed parts.isUpdate.operator
      (isComparison_oriented ho parts.orient) hv.current hv.step
      hv.other hv.stepKind hv.otherKind hor he.laws
  change branch _ _ _ label when (updateComparison ..) = _
  rw [hr, comparesAs_eq hor]
  rfl

end

variable {idx : Nat} {next : Nat}

/-- The cell that the update leaves is the one that the fused instruction leaves,
unless the latter keeps another type in the local's lane. -/
theorem publish_eq_fusedCell_iff {static : StaticTypes} {step other : Operand} {val : VmValue}
    (ht : val.type = static.localType idx) :
    (frame.cells idx).publish val = fusedCell machine static frame idx step other val ↔
      (FastReady machine static frame idx step other →
        ∀ lane, frame.cells idx = .direct lane → lane.type = static.localType idx) := by
  unfold fusedCell
  cases hc : frame.cells idx with
  | shared stored => simp
  | direct lane =>
    by_cases hr : FastReady machine static frame idx step other
    · simp [hr, Cell.publish, Lane.update, ← ht, eq_comm]
    · simp [hr]

theorem framesAgree_setCell {World : Type} {frame : Frame World} {first second : Cell} :
    FramesAgree none (frame.setCell idx first) (frame.setCell idx second) ↔ first = second := by
  constructor
  · intro ha
    have := congrFun ha.cells idx
    simpa [Frame.setCell] using this
  · rintro rfl
    exact ⟨rfl, fun _ _ => rfl, rfl, rfl, rfl⟩

variable {pass : FusionPass} {target : Nat} {site : Site}

theorem corresponds_iff {position pc : Nat} (hpos : position ≤ code.operations.length) :
    (pass.rewrite ctx code).Corresponds code.operations (executionPC code.operations position) pc ↔
      pc = (pass.rewrite ctx code).newPC code.operations position := by
  have hc : (pass.rewrite ctx code).Corresponds code.operations
      (executionPC code.operations position)
      ((pass.rewrite ctx code).newPC code.operations position) :=
    ⟨position, hpos, rfl, rfl⟩
  constructor
  · intro ho
    exact Rewrite.Corresponds.unique rewrite_keepsLabels ho hc
  · rintro rfl
    exact hc

/-- Two ways of deciding between two places lead to the same place. -/
theorem branch_corresponds_iff {first second : Bool} (when : Bool)
    (ht : target ≤ code.operations.length)
    (hnext : next ≤ code.operations.length) :
    (pass.rewrite ctx code).Corresponds code.operations
        (if first = when then executionPC code.operations target
          else executionPC code.operations next)
        (if second = when then
            (pass.rewrite ctx code).newPC code.operations target
          else (pass.rewrite ctx code).newPC code.operations next) ↔
      first = second ∨ (pass.rewrite ctx code).newPC code.operations target =
        (pass.rewrite ctx code).newPC code.operations next := by
  by_cases hs : first = second
  · subst hs
    split <;> simp [corresponds_iff, ht, hnext]
  · have ho : second = !first := by
      cases first <;> cases second <;> simp_all
    subst ho
    cases first <;> cases when <;>
      simp [corresponds_iff, ht, hnext, eq_comm]

/-- What the two update passes have in common: the members store the updated
number and go to one of two places, and the fused instruction goes to the
corresponding places of the new code. -/
structure UpdateSite (machine : RegisterMachine) (pass : FusionPass)
    (site : Site) (parts : UpdateBranch ctx code firstPC branchPC)
    (label : String) (when : Bool) (target next : Nat) : Prop where
  mem : site ∈ pass.sites ctx code
  fused : ∃ cost, cost ≠ 0 ∧ site.fused = parts.fused label when cost
  temporary : site.temporary = none
  targetLe : target ≤ code.operations.length
  nextLe : next ≤ code.operations.length
  entry : (pass.rewrite ctx code).newPC code.operations site.entry =
    (pass.rewrite ctx code).newPC code.operations site.position
  original : ∀ (frame : Frame machine.World) (current stepValue otherValue),
    parts.Values frame current stepValue otherValue →
    runFor machine (staticTypes ctx code) code site.members.length
        (executionPC code.operations site.entry) frame =
      (site.fused.cost, .next (if comparesAs machine parts.operator
              (parts.updated machine current stepValue)
              (parts.otherAfter machine current stepValue otherValue) = parts.comparison.when
          then executionPC code.operations target
          else executionPC code.operations next)
        (parts.after machine frame current stepValue))
  branches : ∀ matched : Bool, (if matched = when then
        (labelPC (pass.run ctx code).operations label).getD 0
      else (pass.rewrite ctx code).newPC code.operations site.position + 1) =
    if matched = parts.comparison.when then
        (pass.rewrite ctx code).newPC code.operations target
      else (pass.rewrite ctx code).newPC code.operations next
  sameBranch : labelPC (pass.run ctx code).operations label =
      some ((pass.rewrite ctx code).newPC code.operations site.position + 1) ↔
    (pass.rewrite ctx code).newPC code.operations target =
      (pass.rewrite ctx code).newPC code.operations next

theorem updateSite_agrees_iff {label : String} {when : Bool}
    (he : Executes machine ctx) (hc : CodeWellFormed code)
    (hs : UpdateSite machine pass site parts label when target next)
    (hty : SiteTyped machine ctx code site frame) :
    SiteAgrees machine ctx code pass site frame ↔
      SiteCondition machine ctx code pass site frame := by
  obtain ⟨cost, hco, hf⟩ := hs.fused
  rw [SiteTyped, hf] at hty
  obtain ⟨current, stepValue, otherValue, hv⟩ :=
    parts.values_of_typed he hty
  have hru : runFor machine (staticTypes ctx code) (pass.run ctx code) 1
      ((pass.rewrite ctx code).newPC code.operations site.position) frame = _ :=
    runFor_fused hc hs.mem (by rw [hf]; exact hco)
  rw [hf, execute_fused_update hv he hc, hs.branches] at hru
  rw [SiteAgrees, hs.entry, hru, hs.original frame _ _ _ hv]
  simp only [hs.temporary, OutcomesAgree, after,
    framesAgree_setCell, publish_eq_fusedCell_iff hv.updated_type,
    branch_corresponds_iff _ hs.targetLe hs.nextLe, hf, true_and]
  rw [SiteCondition, hf]
  refine and_congr ?_ Iff.rfl
  by_cases ho : parts.other = .localVar parts.update.index
  · have hold : otherValue = current := by
      have hr := hv.other.read
      rw [ho, hv.current.read] at hr
      exact (Except.ok.inj hr).symm
    simp only [otherAfter, ho, ↓reduceIte, hold, forall_true_left]
    constructor
    · intro hst val step hva hste
      rw [hv.current.read] at hva
      rw [hv.step.read] at hste
      cases hva
      cases hste
      rw [hs.entry]
      exact hst.imp id hs.sameBranch.mpr
    · intro hst
      have := hst current stepValue hv.current.read hv.step.read
      rw [hs.entry] at this
      exact this.imp id hs.sameBranch.mp
  · simp [otherAfter, ho]

theorem UpdateBranch.label_defined (hc : CodeWellFormed code)
    (parts : UpdateBranch ctx code firstPC branchPC) :
    ∃ target, Defines code.operations parts.comparison.label target := by
  refine List.getElem?_of_mem (target_mem hc parts.branchAt ?_)
  rw [parts.operation]
  simp [targets]

theorem labelPC_run {position : Nat} {op : Operation} {name : String} (hc : CodeWellFormed code)
    (hs : site ∈ pass.sites ctx code)
    (hpos : code.operations[position]? = some op)
    (hmem : (name, position) ∈ pass.inserted ctx code ∨ op = .label name) :
    labelPC (pass.run ctx code).operations name =
      some ((pass.rewrite ctx code).newPC code.operations position) := by
  have he := (label_mem_emitted hpos).mpr hmem
  rw [run_eq_rewrite hs, rewriteMicroCode_operations]
  exact labelPC_emittedFrom hpos he fun other origin =>
    label_only hc.labels hpos he

theorem runFor_updateBranch (he : Executes machine ctx) (hc : CodeWellFormed code) {pc : Nat}
    {parts : UpdateBranch ctx code pc (pc + 1)}
    (ht : Defines code.operations parts.comparison.label target)
    (hv : parts.Values frame current stepValue otherValue) :
    runFor machine (staticTypes ctx code) code 2 (executionPC code.operations pc) frame =
      (parts.first.logicalCost + parts.second.logicalCost, .next
        (if comparesAs machine parts.operator (parts.updated machine current stepValue)
              (parts.otherAfter machine current stepValue otherValue) = parts.comparison.when
          then executionPC code.operations target
          else executionPC code.operations (pc + 2))
        (parts.after machine frame current stepValue)) := by
  obtain ⟨hfst, hfs, hf⟩ := step_member machine (staticTypes ctx code) frame hc parts.firstAt
    (by rw [parts.isUpdate.operation]; rfl)
  obtain ⟨hsn, hss, hs⟩ := step_member machine (staticTypes ctx code)
    (parts.after machine frame current stepValue) hc parts.branchAt (by rw [parts.operation]; rfl)
  rw [execute_update hv, ← hf] at hfs
  rw [execute_comparison hv he hc, labelPC_of_unique hc.labels ht, ← hs] at hss
  rw [runFor_next hfst hfs, runFor_next hsn hss]
  rfl

theorem updateCompareBranch_updateSite (he : Executes machine ctx) (hc : CodeWellFormed code)
    (hs : site ∈ updateCompareBranch.sites ctx code) :
    ∃ (pc : Nat) (parts : UpdateBranch ctx code pc (pc + 1)) (target : Nat),
      UpdateSite machine .updateCompareBranch site parts parts.comparison.label
        parts.comparison.when target (pc + 2) := by
  obtain ⟨pc, - | ⟨parts⟩⟩ := site_origin hs
  obtain ⟨target, ht⟩ := parts.label_defined hc
  have hl := labelPC_run hc hs ht (.inr rfl)
  have hpos := newPC_position hs
  refine ⟨pc, parts, target, hs, ⟨_, by simp [logicalCost_ne_zero], rfl⟩, rfl, ?_, ?_, ?_, ?_,
    ?_, ?_⟩
  · exact Nat.le_of_lt (List.getElem?_eq_some_iff.mp ht).1
  · have := position_lt parts.branchAt
    omega
  · exact (newPC_removed (operations_getElem? parts.firstAt) (rewrite_removed hs)).symm
  · intro frame current stepValue otherValue hv
    exact runFor_updateBranch he hc ht hv
  · intro matched
    rw [hl, ← hpos]
    rfl
  · rw [hl, ← hpos]
    exact some_inj

/-- Labels do not count. -/
theorem executionPC_labels {ops : List Operation} {first second : Nat} (hle : first ≤ second)
    (hl : ((ops.drop first).take (second - first)).all isLabel = true) :
    executionPC ops second = executionPC ops first := by
  have hc : ∀ labels : List Operation, labels.all isLabel = true → executableCount labels = 0 := by
    intro labels hall
    induction labels with
    | nil => rfl
    | cons head tail ih =>
      rw [List.all_cons, Bool.and_eq_true] at hall
      simp [ih hall.2, weight, hall.1]
  obtain ⟨off, rfl⟩ := Nat.exists_eq_add_of_le hle
  rw [Nat.add_sub_cancel_left] at hl
  rw [executionPC, List.take_add, executableCount_append, hc _ hl]
  rfl

/-- The run of the update, the jump back and the comparison. -/
theorem runFor_latch (he : Executes machine ctx)
    (hc : CodeWellFormed code) {inserted : List (String × Nat)}
    {jumpPC : Nat} {found : LatchParts ctx code inserted jumpPC}
    (hhd : Defines code.operations found.header found.headerPC)
    (hexi : Defines code.operations found.parts.comparison.label found.exitPC)
    (hv : found.parts.Values frame current stepValue otherValue) :
    runFor machine (staticTypes ctx code) code 3 (executionPC code.operations (jumpPC - 1)) frame =
      (found.parts.first.logicalCost + found.parts.second.logicalCost +
          found.jump.logicalCost, .next
        (if comparesAs machine found.parts.operator (found.parts.updated machine current stepValue)
              (found.parts.otherAfter machine current stepValue otherValue) =
                found.parts.comparison.when
          then executionPC code.operations found.exitPC
          else executionPC code.operations (found.headerPC + 2))
        (found.parts.after machine frame current stepValue)) := by
  have hju : jumpPC - 1 + 1 = jumpPC := by
    have := found.headerBefore
    omega
  obtain ⟨hfst, hfs, hf⟩ := step_member machine (staticTypes ctx code) frame hc found.parts.firstAt
    (by rw [found.parts.isUpdate.operation]; rfl)
  obtain ⟨hjum, hj, -⟩ := step_member machine
    (staticTypes ctx code) (found.parts.after machine frame current stepValue)
    hc found.jumpAt (by rw [found.jumpOperation]; rfl)
  obtain ⟨hsn, hss, hs⟩ := step_member machine
    (staticTypes ctx code) (found.parts.after machine frame current stepValue)
    hc found.parts.branchAt (by rw [found.parts.operation]; rfl)
  have hb : executionPC code.operations (found.headerPC + 1) =
      executionPC code.operations found.headerPC := by
    rw [executionPC_succ hhd]
    rfl
  rw [execute_update hv, ← hf, hju] at hfs
  rw [found.jumpOperation, executeInstruction_jump,
    labelPC_of_unique hc.labels hhd, getD_some, ← hb]
    at hj
  rw [execute_comparison hv he hc, labelPC_of_unique hc.labels hexi, ← hs] at hss
  rw [runFor_next hfst hfs, runFor_next hjum hj, runFor_next hsn hss]
  simp only [runFor, getD_some, Prod.mk.injEq, and_true]
  omega

theorem loopLatch_updateSite (hexe : Executes machine ctx) (hc : CodeWellFormed code)
    (hs : site ∈ loopLatch.sites ctx code) :
    ∃ (inserted : List (String × Nat)) (jumpPC : Nat)
      (found : LatchParts ctx code inserted jumpPC) (label : String),
      UpdateSite machine .loopLatch site found.parts label
        (!found.parts.comparison.when) found.exitPC (found.headerPC + 2) := by
  obtain ⟨_, @⟨latch, inserted, jumpPC, hla, hfr, found, hbodyPC⟩⟩ := site_origin hs
  have hhd : Defines code.operations found.header found.headerPC := by
    refine lookupLabel_defines hfr (target_mem hc found.jumpAt ?_) found.headerAt
    rw [found.jumpOperation]
    simp [targets]
  have hexi : Defines code.operations found.parts.comparison.label found.exitPC := by
    refine lookupLabel_defines hfr (target_mem hc found.parts.branchAt ?_) found.exitAt
    rw [found.parts.operation]
    simp [targets]
  obtain ⟨op, ho, hb⟩ := latch_target hla
  have hl := labelPC_run hc hs ho hb
  rw [hbodyPC] at hl
  have he : found.exitPC ≤ code.operations.length :=
    Nat.le_of_lt (List.getElem?_eq_some_iff.mp hexi).1
  have hf : (loopLatch.rewrite ctx code).newPC code.operations (jumpPC - 1) + 1 =
      (loopLatch.rewrite ctx code).newPC code.operations found.exitPC := by
    have hr := newPC_removed (operations_getElem? found.jumpAt) (rewrite_removed hs)
    have hpos := newPC_position hs
    have hj : jumpPC - 1 + 1 = jumpPC := by
      have := found.headerBefore
      omega
    rw [← hpos, hj, ← hr]
    exact newPC_congr rewrite_keepsLabels found.exitAfter he
      (executionPC_labels found.exitAfter found.onlyLabels).symm
  refine ⟨inserted, jumpPC, found, latch.bodyLabel, hs, ⟨_, by simp [logicalCost_ne_zero], rfl⟩,
    rfl, he, ?_, rfl, ?_, ?_, ?_⟩
  · have := position_lt found.parts.branchAt
    omega
  · intro frame current stepValue otherValue hv
    exact runFor_latch hexe hc hhd hexi hv
  · intro matched
    rw [hl, hf, getD_some]
    cases matched <;> cases found.parts.comparison.when <;> rfl
  · rw [hl, hf, some_inj]
    exact eq_comm

end UpdateSites

section ProducerSites

variable {machine : RegisterMachine} {ctx : FusionContext} {code : MicroCode}
  {frame : Frame machine.World} {pass : FusionPass} {site : Site} {pc : Nat}

/-- The frame after the producer. -/
def ProducerPair.after (parts : ProducerPair code pc)
    (frame : Frame machine.World) (value : VmValue) : Frame machine.World :=
  writeOutput machine frame value (.slot parts.temporary)

theorem ProducerPair.after_agrees (parts : ProducerPair code pc)
    (frame : Frame machine.World) (val : VmValue) :
    FramesAgree (some parts.temporary) (parts.after frame val) frame := by
  refine ⟨rfl, fun slot hs => ?_, rfl, rfl, rfl⟩
  have hne : slot ≠ parts.temporary := fun heq => hs (congrArg some heq)
  simp [ProducerPair.after, writeOutput, hne]

theorem ProducerPair.read_after (parts : ProducerPair code pc)
    (static : StaticTypes) (frame : Frame machine.World) (value : VmValue) :
    readOperand machine static (parts.after frame value) (.slot parts.temporary) = .ok value := by
  simp [readOperand, ProducerPair.after, writeOutput]

variable {first second : Frame machine.World} {temporary : Option Nat}

theorem writeOutput_agrees (ha : FramesAgree temporary first second) (val : VmValue)
    (output : Output) :
    FramesAgree temporary (writeOutput machine first val output)
      (writeOutput machine second val output) := by
  cases output with
  | localVar index =>
    refine ⟨?_, ha.slots, ha.packed, ha.resolved, ha.world⟩
    simp [writeOutput, Frame.setCell, ha.cells]
  | slot index =>
    refine ⟨ha.cells, fun slot hs => ?_, ha.packed, ha.resolved, ha.world⟩
    simp only [writeOutput, Function.update_apply]
    split
    · rfl
    · exact ha.slots slot hs

theorem produce_agrees {rewrite : Rewrite} {ops : List Operation}
    {pc pc' : Nat} (ha : FramesAgree temporary first second)
    (hpc : rewrite.Corresponds ops (pc + 1) (pc' + 1))
    (outputs : List Output) (res : Except Fault VmValue) :
    OutcomesAgree rewrite ops temporary (produce machine first pc outputs res)
      (produce machine second pc' outputs res) := by
  unfold produce
  split
  · exact ⟨hpc, writeOutput_agrees ha _ _⟩
  · exact ⟨rfl, ha⟩
  · exact ⟨rfl, ha⟩

/-- A fused pair charges too much if its producer fails; otherwise its consumer decides. -/
theorem pair_agrees_iff {fused : Override} {res : Except Fault VmValue}
    (hc : CodeWellFormed code) (parts : ProducerPair code pc)
    (hs : {
      members := [pc, pc + 1], position := pc + 1, removed := pc, fused
      temporary := some parts.temporary } ∈ pass.sites ctx code)
    (hcos : fused.cost = parts.first.logicalCost + parts.second.logicalCost)
    (hp : parts.first.operation.isLabel = false)
    (hco : parts.second.operation.isLabel = false)
    (hr : executeInstruction machine (staticTypes ctx code) (labelPC code.operations)
        (executionPC code.operations pc) parts.first.operation (code.flow parts.first) frame =
      produce machine frame (executionPC code.operations pc) (code.flow parts.first).outputs res) :
    SiteAgrees machine ctx code pass {
        members := [pc, pc + 1], position := pc + 1, removed := pc, fused
        temporary := some parts.temporary } frame ↔ ∃ val, res = .ok val ∧
      OutcomesAgree (pass.rewrite ctx code) code.operations (some parts.temporary)
        (executeInstruction machine (staticTypes ctx code) (labelPC code.operations)
          (executionPC code.operations (pc + 1)) parts.second.operation
          (code.flow parts.second) (parts.after frame val))
        (executeInstruction machine (staticTypes ctx code) (labelPC (pass.run ctx code).operations)
          ((pass.rewrite ctx code).newPC code.operations (pc + 1)) fused.operation fused.flow
          frame) := by
  have he := newPC_removed (operations_getElem? parts.firstAt) (rewrite_removed hs)
  have hru := @runFor_fused _ _ _ _ machine (staticTypes ctx code) frame hc hs
    (by simp [hcos, logicalCost_ne_zero])
  obtain ⟨hfst, hfs, hf⟩ := step_member machine (staticTypes ctx code) frame hc parts.firstAt hp
  rw [hr, parts.outputs] at hfs
  rw [SiteAgrees, show Site.entry _ = pc from rfl, ← he, hru, hcos]
  cases res with
  | error fault =>
    have hse := logicalCost_ne_zero parts.second
    rw [show List.length _ = 2 from rfl, runFor_fault hfst hfs]
    refine iff_of_false ?_ (by rintro ⟨_, hva, -⟩; cases hva)
    rintro ⟨hsa, -⟩
    omega
  | ok val =>
    obtain ⟨hsn, hss, -⟩ := step_member machine
      (staticTypes ctx code) (parts.after frame val) hc parts.secondAt hco
    have hfs : stepInstruction machine (staticTypes ctx code) code
        (executionPC code.operations pc) parts.first frame =
          .next (executionPC code.operations (pc + 1)) (parts.after frame val) := by
      rw [hfs, hf]
      rfl
    rw [show List.length _ = 2 from rfl, runFor_next hfst hfs, runFor_one hsn, hss]
    simp

theorem indexConvert_agrees_iff (hc : CodeWellFormed code)
    (hs : site ∈ indexConvert.sites ctx code) :
    SiteAgrees machine ctx code .indexConvert site frame ↔
      SiteCondition machine ctx code .indexConvert site frame := by
  obtain ⟨pc, - | - | ⟨parts, hload, hconvert, hi, hsr⟩⟩ := site_origin hs
  obtain ⟨-, -, hse⟩ := step_member machine (staticTypes ctx code) frame hc
    parts.secondAt (by rw [hconvert]; rfl)
  rw [pair_agrees_iff hc parts hs rfl (by rw [hload]; rfl) (by rw [hconvert]; rfl)
    (by rw [hload]; exact executeInstruction_loadIndex hi), SiteCondition]
  refine exists_congr fun loaded => and_iff_left_of_imp fun hl => ?_
  rw [executeInstruction_indexConvert rfl, hl]
  unfold executeInstruction
  rw [hconvert, hsr]
  dsimp only
  rw [parts.read_after]
  refine produce_agrees (parts.after_agrees frame loaded) ?_ _ _
  rw [← hse]
  refine ⟨pc + 2, ?_, rfl, (newPC_position hs).symm⟩
  have := position_lt parts.secondAt
  omega

/-- After a length is taken its temporary holds it as a number. -/
theorem ProducerPair.typed_length (hc : CodeWellFormed code)
    (parts : ProducerPair code pc) (hlen : parts.first.operation = .len)
    (frame : Frame machine.World) (length : BitVec 64) :
    OperandTyped machine (staticTypes ctx code)
      (parts.after frame (newSignedVMValue (.builtin .int) length))
      (.slot parts.temporary) (newSignedVMValue (.builtin .int) length) := by
  have ht := hc.lengths _ (List.mem_of_getElem? parts.firstAt) hlen _ parts.outputs
  have hi : machine.types.primitive (.builtin .int) = .int :=
    machine.types.ofPrimitive _ rfl
  refine ⟨parts.read_after _ _ _, ?_, ⟨?_, ?_⟩, ?_⟩
  · simp [StaticTypes.operandType, staticTypes, ht, newSignedVMValue]
  · simp [RegisterMachine.kindOf, newSignedVMValue, hi, primitiveScalarKind]
  · simp [newSignedVMValue]
  · intro bits hb
    simp only [integerOperand, ProducerPair.after, writeOutput,
      Function.update_self, map_some] at hb
    split at hb
    · exact (some.inj hb).symm
    · cases hb

theorem ProducerPair.typed_after (parts : ProducerPair code pc)
    {static : StaticTypes} {operand : Operand} {value : VmValue}
    (hty : OperandTyped machine static frame operand value)
    (ho : operand ≠ .slot parts.temporary) (stored : VmValue) :
    OperandTyped machine static (parts.after frame stored) operand value := by
  have hs : readOperand machine static (parts.after frame stored) operand =
        readOperand machine static frame operand ∧
      integerOperand machine (parts.after frame stored) operand =
        integerOperand machine frame operand := by
    cases operand with
    | localVar index => exact ⟨rfl, rfl⟩
    | constant constant => exact ⟨rfl, rfl⟩
    | slot slot =>
      have hne : slot ≠ parts.temporary := fun heq => ho (heq ▸ rfl)
      simp [readOperand, integerOperand, ProducerPair.after, writeOutput, hne]
  exact ⟨hs.1.trans hty.read, hty.type, hty.number,
    fun bits hb => hty.bits bits (hs.2.symm.trans hb)⟩

theorem lenCompareBranch_agrees_iff (he : Executes machine ctx) (hc : CodeWellFormed code)
    (hs : site ∈ lenCompareBranch.sites ctx code)
    (hty : SiteTyped machine ctx code site frame) :
    SiteAgrees machine ctx code .lenCompareBranch site frame ↔
      SiteCondition machine ctx code .lenCompareBranch site frame := by
  obtain ⟨pc, - | - | - | @⟨_, cmp, operator, obj, _, _, other, _, parts, hlen, hcm,
    hob, hi, hor, hotherType, hin⟩⟩ := site_origin hs
  have ha := newPC_position hs
  obtain ⟨-, -, hse⟩ := step_member machine (staticTypes ctx code) frame hc
    parts.secondAt (by rw [hcm]; rfl)
  obtain ⟨target, ht⟩ : ∃ target, Defines code.operations cmp.label target := by
    refine List.getElem?_of_mem (target_mem hc parts.secondAt ?_)
    rw [hcm]
    simp [targets]
  have hl := labelPC_run hc hs ht (.inr rfl)
  obtain ⟨otherValue, ho⟩ : ∃ value, OperandTyped machine
      (staticTypes ctx code) frame other value := hty
  rw [pair_agrees_iff hc parts hs rfl (by rw [hlen]; rfl) (by rw [hcm]; rfl)
    (by rw [hlen]; exact executeInstruction_len hob), SiteCondition]
  cases hlength : measuredLength machine (staticTypes ctx code) frame obj with
  | error fault =>
    refine iff_of_false (by rintro ⟨_, hva, -⟩; cases hva) ?_
    rintro ⟨_, hok⟩
    cases hlength.symm.trans hok
  | ok length =>
    refine iff_of_true ⟨_, rfl, ?_⟩ ⟨length, hlength⟩
    have hp : 0 ≤ length.toInt := by
      unfold measuredLength at hlength
      cases hr : readOperand machine (staticTypes ctx code) frame obj with
      | error fault => simp [hr, bind, Except.bind] at hlength
      | ok value =>
        rw [hr] at hlength
        exact he.laws.lengthValue _ value length hlength
    have hot : isInteger otherValue.scalarKind = true := by
      rw [ho.number.1, ho.type, staticTypes_operandType hotherType,
        RegisterMachine.kindOf, he.types]
      exact hin
    obtain ⟨ordering, hord, hco⟩ :=
      compareLengthValue_eq machine operator hp hot
    have hop := hc.operators cmp (List.mem_of_getElem? (hcm ▸ operations_getElem? parts.secondAt))
    rw [hcm, executeInstruction_compareBranch hi, evalOperands_oriented he.laws hop hor
        (parts.typed_length hc hlen frame length)
        (parts.typed_after ho (other_ne_temporary parts hi hor) _) hord,
      executeInstruction_lenCompareBranch rfl, ho.read, hlength]
    simp only [bind, Except.bind, truthy_newBoolValue, hco, branch,
      labelPC_of_unique hc.labels ht, hl, ← hse, ← ha, getD_some]
    refine ⟨(branch_corresponds_iff cmp.when ?_ ?_).mpr (.inl rfl), parts.after_agrees frame _⟩
    · exact Nat.le_of_lt (List.getElem?_eq_some_iff.mp ht).1
    · have := position_lt parts.secondAt
      omega

end ProducerSites

section Passes

variable {machine : RegisterMachine} {ctx : FusionContext} {code : MicroCode}
  {frame : Frame machine.World} {pass : FusionPass} {site : Site}

/-- One pass: a fused instruction does what its members do under the condition
of its site. -/
theorem site_agrees_iff (he : Executes machine ctx) (hc : CodeWellFormed code)
    (hs : site ∈ pass.sites ctx code) (hty : SiteTyped machine ctx code site frame) :
    SiteAgrees machine ctx code pass site frame ↔
      SiteCondition machine ctx code pass site frame := by
  cases pass with
  | loopLatch =>
    obtain ⟨_, _, _, _, hu⟩ := loopLatch_updateSite he hc hs
    exact updateSite_agrees_iff he hc hu hty
  | updateCompareBranch =>
    obtain ⟨_, _, _, hu⟩ := updateCompareBranch_updateSite he hc hs
    exact updateSite_agrees_iff he hc hu hty
  | indexConvert => exact indexConvert_agrees_iff hc hs
  | lenCompareBranch => exact lenCompareBranch_agrees_iff he hc hs hty

/-- The first two members of a site stand next to each other. -/
theorem entry_executable (hs : site ∈ pass.sites ctx code) :
    (∃ first, code.operations[site.entry]? = some first ∧ first.isLabel = false) ∧
      ∃ second, code.operations[site.entry + 1]? = some second ∧ second.isLabel = false := by
  obtain ⟨removed, hrem, hremoves⟩ := (site_placed hs).removed
  obtain ⟨replaced, hrep, hrepl⟩ := (site_placed hs).position
  have hre := removes_not_label hremoves
  have hr := replaces_not_label hrepl
  obtain ⟨pc, ho⟩ := site_origin hs
  cases ho with
  | @loopLatch _ _ jumpPC hl hfr found hbodyPC =>
    have hb := found.headerBefore
    have hj : jumpPC - 1 + 1 = jumpPC := by omega
    refine ⟨⟨replaced, hrep, hr⟩, removed, ?_, hre⟩
    show code.operations[jumpPC - 1 + 1]? = some removed
    rw [hj]
    exact hrem
  | updateCompareBranch | indexConvert | lenCompareBranch =>
    exact ⟨⟨removed, hrem, hre⟩, replaced, hrep, hr⟩

/-- No branch leads between the first two members of a site. -/
theorem label_not_inside (hs : site ∈ pass.sites ctx code) {name : String}
    {pc : Nat} (hl : labelPC code.operations name = some pc) :
    pc ≠ executionPC code.operations (site.entry + 1) := by
  obtain ⟨⟨first, hfs, hf⟩, second, hsn, hse⟩ := entry_executable hs
  obtain ⟨position, hd, hpc⟩ := findLabel_eq_some hl
  have hpc : pc = executionPC code.operations position := by
    rw [hpc, Nat.zero_add]
    rfl
  have hfi := executionPC_succ hfs
  have hsec := executionPC_succ hsn
  simp only [weight, hf, hse, Bool.false_eq_true, ↓reduceIte] at hfi hsec
  rcases Nat.lt_trichotomy position (site.entry + 1) with hlt | heq | hlt
  · have := executionPC_mono code.operations (Nat.le_of_lt_succ hlt)
    omega
  · rw [Defines, heq, hsn] at hd
    cases hd
    cases hse
  · have : executionPC code.operations (site.entry + 1 + 1) ≤
        executionPC code.operations position := executionPC_mono _ hlt
    omega

theorem Executes.forPass (he : Executes machine ctx)
    (boundaries : FusionPass → Nat → Bool) (pass : FusionPass) :
    Executes machine (ctx.forPass boundaries pass) :=
  ⟨he.types, he.identical, he.laws⟩

/-- The code that a later pass receives is well formed. -/
theorem fuse_wellFormed (hc : CodeWellFormed code)
    (boundaries : FusionPass → Nat → Bool) (passes : List FusionPass) :
    CodeWellFormed (fuse ctx code boundaries passes) := by
  induction passes generalizing code with
  | nil => exact hc
  | cons pass rest ih => exact ih (run_wellFormed hc)

/-- Instruction fusion. At every site that a pass rewrites in the code it
receives, no branch leads into the middle of the site, the temporary that is no
longer written is no longer read, and the fused instruction agrees with the
members exactly under the condition of the site. -/
theorem fuseHotPathInstructions_agrees_iff (hexecutes : Executes machine ctx)
    (hcode : CodeWellFormed code) (boundaries : FusionPass → Nat → Bool)
    (before after : List FusionPass)
    (hpasses : before ++ pass :: after = fusionPasses)
    (hsite : site ∈ pass.sites (ctx.forPass boundaries pass) (fuse ctx code boundaries before))
    (htyped : SiteTyped machine (ctx.forPass boundaries pass)
      (fuse ctx code boundaries before) site frame) :
    let stage := fuse ctx code boundaries before
    let stageCtx := ctx.forPass boundaries pass
    fuseHotPathInstructions ctx code boundaries =
        fuse ctx (pass.run stageCtx stage) boundaries after ∧
      (∀ name pc, labelPC stage.operations name = some pc →
        pc ≠ executionPC stage.operations (site.entry + 1)) ∧
      (∀ slot, site.temporary = some slot →
        ∀ instruction ∈ (pass.run stageCtx stage).instructions, Operand.slot slot ∉
            ((pass.run stageCtx stage).flow instruction).inputs) ∧
      (SiteAgrees machine stageCtx stage pass site frame ↔
        SiteCondition machine stageCtx stage pass site frame) := by
  have hstage : CodeWellFormed (fuse ctx code boundaries before) :=
    fuse_wellFormed hcode boundaries before
  exact ⟨by rw [fuseHotPathInstructions, ← hpasses]; simp [fuse],
    fun name pc hlabel => label_not_inside hsite hlabel,
    fun slot htemporary instruction hinstruction =>
      temporary_unread hsite htemporary hinstruction,
    site_agrees_iff (hexecutes.forPass boundaries pass) hstage hsite htyped⟩

section Counting

/-- A machine on numbers only: the constant is 1 and nothing else is defined. -/
def countingMachine : RegisterMachine where
  World := Unit
  types := {
    primitive := fun type =>
      if type.kind = .primitive then type.primitive else .invalid
    ofPrimitive := fun type htype => by simp [htype] }
  constantValueAt _ := .ok (newSignedVMValue (.builtin .int) 1)
  zeroValue type := newSignedVMValue type 0
  underlyingOperand value := value
  floatArithmetic _ _ left _ := left
  compareFloat _ _ := none
  evalOther _ _ _ _ := .error (.error "not a number")
  coerceAssignable _ value := .ok value
  lengthValue _ _ := .ok 0
  indexValue _ _ _ := .error (.error "not indexable")
  convertValue _ _ value := .ok value
  perform _ _ frame := .fault (.error "not modelled") frame

def countingContext : FusionContext where
  locals := [.builtin .int]
  constants := [.builtin .int]
  types := countingMachine.types
  identical left right := left = right
  isByteSequence _ := false
  boundary _ := false

/-- A counter that is increased and then compared with an operand. -/
def countingCode (other : Operand) : MicroCode where
  instructions := [{ operation := .binary .add, operands := 0 },
    { operation := .compareBranch {
        operator := .notEqual, type := .builtin .int, label := "exit"
        when := true }, operands := 1 },
    { operation := .returnValues 0, operands := 2 },
    { operation := .label "exit", operands := 2 },
    { operation := .returnValues 0, operands := 2 }]
  operands := [{ inputs := [.localVar 0, .constant 0], outputs := [.localVar 0] },
    { inputs := [.localVar 0, other] }, {}]

def countingFrame : Frame countingMachine.World where
  cells _ := .direct ⟨.builtin .int, 5, .signed, true⟩
  slots _ := none
  packed _ := false
  resolved _ := true
  world := ()

def countingSite (other : Operand) : Site where
  members := [0, 1]
  position := 1
  removed := 0
  fused := {
    operation := .updateCompareBranch {
      update := .add, comparison := .notEqual, type := .builtin .int
      label := "exit", when := true }
    flow := { inputs := [.localVar 0, .constant 0, other] }
    cost := 2 }

theorem countingMachine_executes : Executes countingMachine countingContext where
  types := rfl
  identical left right hs := by
    have hs : left = right := by simpa [countingContext] using hs
    rw [hs]
  laws := {
    coerceAssignable := fun _ _ _ _ => rfl
    compareFloat_swap := fun _ _ => rfl
    lengthValue := fun _ _ length hlen => by
      cases hlen
      decide }

theorem countingCode_wellFormed (other : Operand) : CodeWellFormed (countingCode other) where
  labels := by
    rw [labelsUnique_iff_pairwise]
    simp [countingCode, operations]
  targets := by
    simp [countingCode, operations, targets]
  operators := by
    simp [countingCode, operations, isComparison]
  releases := by
    simp [countingCode, flow]
  lengths := by
    simp [countingCode]

theorem countingSite_mem (other : Operand) (ho : other = .localVar 0 ∨ other = .constant 0) :
    countingSite other ∈ updateCompareBranch.sites
      (countingContext.forPass (fun _ _ => false) .updateCompareBranch)
      (fuse countingContext (countingCode other) (fun _ _ => false) [.loopLatch]) := by
  rcases ho with rfl | rfl <;> decide

theorem countingFrame_local (code : MicroCode) :
    OperandTyped countingMachine (staticTypes countingContext code) countingFrame
      (.localVar 0) (newSignedVMValue (.builtin .int) 5) where
  read := rfl
  type := rfl
  number := ⟨rfl, by decide⟩
  bits := by simp [integerOperand, countingFrame, newSignedVMValue]

theorem countingFrame_constant (code : MicroCode) :
    OperandTyped countingMachine (staticTypes countingContext code) countingFrame
      (.constant 0) (newSignedVMValue (.builtin .int) 1) where
  read := rfl
  type := rfl
  number := ⟨rfl, by decide⟩
  bits := by simp [integerOperand, countingFrame, countingMachine, newSignedVMValue]

theorem countingFrame_typed (code : MicroCode) {other : Operand}
    (ho : other = .localVar 0 ∨ other = .constant 0) :
    SiteTyped countingMachine countingContext code (countingSite other)
      countingFrame := by
  intro operand hop
  have hop : operand = .localVar 0 ∨ operand = .constant 0 := by
    simp only [countingSite, List.mem_cons, List.not_mem_nil, or_false] at hop
    rcases hop with rfl | rfl | rfl
    · exact .inl rfl
    · exact .inr rfl
    · exact ho
  rcases hop with rfl | rfl
  · exact ⟨_, countingFrame_local code⟩
  · exact ⟨_, countingFrame_constant code⟩

/-- A counter that is increased and then compared with itself: the members
compare the new value with itself, the fused instruction with the old value. -/
theorem fuseHotPathInstructions_compares_with_old_value :
    let boundaries : FusionPass → Nat → Bool := fun _ _ => false
    let code := countingCode (.localVar 0)
    let stage := fuse countingContext code boundaries [.loopLatch]
    let site := countingSite (.localVar 0)
    [loopLatch] ++ .updateCompareBranch :: [.indexConvert, .lenCompareBranch] = fusionPasses ∧
      CodeWellFormed code ∧ Executes countingMachine countingContext ∧
      site ∈ updateCompareBranch.sites
        (countingContext.forPass boundaries .updateCompareBranch) stage ∧
      SiteTyped countingMachine countingContext stage site countingFrame ∧
      ¬SiteAgrees countingMachine (countingContext.forPass boundaries .updateCompareBranch) stage
        .updateCompareBranch site countingFrame := by
  refine ⟨rfl, countingCode_wellFormed _, countingMachine_executes,
    countingSite_mem _ (.inl rfl), countingFrame_typed _ (.inl rfl), ?_⟩
  rw [site_agrees_iff (countingMachine_executes.forPass _ _)
    (fuse_wellFormed (countingCode_wellFormed _) _ _)
    (countingSite_mem _ (.inl rfl)) (countingFrame_typed _ (.inl rfl))]
  rintro ⟨hstable, -⟩
  have hdecided := hstable rfl (newSignedVMValue (.builtin .int) 5)
    (newSignedVMValue (.builtin .int) 1) rfl rfl
  revert hdecided
  decide

/-- A counter that is increased and then compared with a constant. -/
theorem fuseHotPathInstructions_agrees_countingCode :
    SiteAgrees countingMachine (countingContext.forPass (fun _ _ => false) .updateCompareBranch)
      (fuse countingContext (countingCode (.constant 0)) (fun _ _ => false) [.loopLatch])
      .updateCompareBranch (countingSite (.constant 0)) countingFrame := by
  have hsite := fuseHotPathInstructions_agrees_iff countingMachine_executes
    (countingCode_wellFormed (.constant 0)) (fun _ _ => false) [.loopLatch]
    [.indexConvert, .lenCompareBranch] rfl
    (countingSite_mem (.constant 0) (.inr rfl))
    (countingFrame_typed _ (.inr rfl))
  refine hsite.2.2.2.mpr ⟨by simp, fun _ lane hlane => ?_⟩
  cases hlane
  rfl

end Counting

end Passes

end MiniGo.Emit
