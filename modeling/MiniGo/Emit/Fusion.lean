/-
Fusion of adjacent instructions (`compiler/emit/microcode_fusions.go`).

Each of the four passes looks for a fixed sequence of instructions and replaces
it by one instruction with the sum of their costs. A pass is given by the list
of its sites; what it does to the code at each position follows from them.
-/
import MiniGo.Emit.Rewrite

namespace MiniGo.Emit

open MiniGo.Bytecode

/-- What the passes know of a function besides its code: the types of its locals
and of the constants, the type table's queries, and the positions where a source
point or a scope begins or ends (`sourceBoundaries`). -/
structure FusionContext where
  locals : List TypeRef
  constants : List TypeRef
  types : NumericTypes
  identical : TypeRef → TypeRef → Bool
  isByteSequence : TypeRef → Bool
  boundary : Nat → Bool

variable (ctx : FusionContext) (code : MicroCode)

/-- `slotOperandType`. -/
def slotOperandType : Operand → Option TypeRef
  | .slot index => code.types[index]?
  | .localVar index => ctx.locals[index]?
  | .constant index => ctx.constants[index]?

/-- `sameOperandType`. -/
def sameOperandType (operand : Operand) (expected : TypeRef) : Bool :=
  (slotOperandType ctx code operand).any (ctx.identical · expected)

def FusionContext.scalarKind (type : TypeRef) : ScalarKind :=
  primitiveScalarKind (ctx.types.primitive type)

/-- `mergeSlotReleases`. -/
def mergeSlotReleases (first second : List Nat) (omitted : Option Nat) :
    List Nat :=
  ((first ++ second).filter fun slot => some slot ≠ omitted).eraseDups

/-- `inverseComparisonOperator`. -/
def inverseComparisonOperator : Operator → Option Operator
  | .equal => some .equal
  | .notEqual => some .notEqual
  | .less => some .greater
  | .lessEqual => some .greaterEqual
  | .greater => some .less
  | .greaterEqual => some .lessEqual
  | _ => none

/-- `slotUseCounts` of one slot. -/
def slotUseCount (slot : Nat) : Nat :=
  (code.instructions.map fun instruction =>
    (code.flow instruction).inputs.count (.slot slot)).sum

/-- One place where a pass rewrites the code. -/
structure Site where
  /-- The positions of the members, in the order in which they run. -/
  members : List Nat
  /-- The position whose instruction becomes the fused one. -/
  position : Nat
  /-- The position whose instruction is dropped. -/
  removed : Nat
  fused : Override
  /-- The temporary that the sequence no longer writes. -/
  temporary : Option Nat := none
deriving Repr, DecidableEq

/-- A comparison of one operand with another: the operator that has the first on
its left, and the other operand. -/
def orientComparison (operand : Operand) (operator : Operator)
    (left right : Operand) : Option (Operator × Operand) :=
  if left = operand then some (operator, right)
  else if right = operand then
    (inverseComparisonOperator operator).map (·, left)
  else none

/-- The numeric update that both update passes look for: a private local plus or
minus an operand of the local's type, stored in the local. -/
structure Update where
  index : Nat
  operator : Operator
  step : Operand
  type : TypeRef

def updateAt (instruction : MicroInstruction) : Option Update := do
  let .binary operator := instruction.operation | none
  let flow := code.flow instruction
  let ([.localVar current, step], [.localVar index]) :=
    (flow.inputs, flow.outputs) | none
  let type ← ctx.locals[index]?
  guard (current = index ∧ (operator = .add ∨ operator = .sub))
  guard (isInteger (ctx.scalarKind type) || ctx.scalarKind type = .float)
  guard (sameOperandType ctx code step type)
  pure { index, operator, step, type }

/-- The register flow of an `update_compare_branch`. -/
def updateFlow (update : Update) (other : Operand)
    (first second : RegisterFlow) : RegisterFlow where
  inputs := [.localVar update.index, update.step, other]
  release := mergeSlotReleases first.release second.release none
  releaseBefore :=
    mergeSlotReleases first.releaseBefore second.releaseBefore none

/-- The site of `fuseUpdateCompareBranch` at a position. -/
def updateCompareBranchAt (pc : Nat) : Option Site := do
  let first ← code.instructions[pc]?
  let second ← code.instructions[pc + 1]?
  let update ← updateAt ctx code first
  let .compareBranch comparison := second.operation | none
  guard !(ctx.boundary (pc + 1))
  let [left, right] := (code.flow second).inputs | none
  let (operator, other) ← orientComparison (.localVar update.index) comparison.operator left right
  guard (sameOperandType ctx code other update.type)
  pure {
    members := [pc, pc + 1]
    position := pc + 1
    removed := pc
    fused := {
      operation := .updateCompareBranch {
        update := update.operator, comparison := operator, type := update.type
        label := comparison.label, when := comparison.when }
      flow := updateFlow update other (code.flow first) (code.flow second)
      cost := first.logicalCost + second.logicalCost } }

/-- The site of `fuseIndexConvert` at a position. -/
def indexConvertAt (pc : Nat) : Option Site := do
  let load ← code.instructions[pc]?
  let convert ← code.instructions[pc + 1]?
  let (.loadIndex, .convert target) := (load.operation, convert.operation) | none
  guard !(ctx.boundary (pc + 1))
  let loadFlow := code.flow load
  let convertFlow := code.flow convert
  let ([object, index], [.slot temporary], [.slot source]) :=
    (loadFlow.inputs, loadFlow.outputs, convertFlow.inputs) | none
  guard (source = temporary ∧ slotUseCount code temporary = 1)
  let objectType ← slotOperandType ctx code object
  guard (ctx.isByteSequence objectType && isInteger (ctx.scalarKind target))
  pure {
    members := [pc, pc + 1]
    position := pc + 1
    removed := pc
    fused := {
      operation := .indexConvert target
      flow := {
        inputs := [object, index]
        outputs := convertFlow.outputs
        release := mergeSlotReleases loadFlow.release convertFlow.release (some temporary)
        releaseBefore := mergeSlotReleases loadFlow.releaseBefore
          convertFlow.releaseBefore (some temporary) }
      cost := load.logicalCost + convert.logicalCost }
    temporary := some temporary }

/-- The site of `fuseLenCompareBranch` at a position. -/
def lenCompareBranchAt (pc : Nat) : Option Site := do
  let length ← code.instructions[pc]?
  let compare ← code.instructions[pc + 1]?
  let (.len, .compareBranch comparison) :=
    (length.operation, compare.operation) | none
  guard !(ctx.boundary (pc + 1))
  let lengthFlow := code.flow length
  let compareFlow := code.flow compare
  let ([object], [.slot temporary], [left, right]) :=
    (lengthFlow.inputs, lengthFlow.outputs, compareFlow.inputs) | none
  guard (slotUseCount code temporary = 1)
  let (operator, other) ← orientComparison (.slot temporary) comparison.operator left right
  guard (ctx.types.primitive comparison.type = .int)
  let otherType ← slotOperandType ctx code other
  guard (isInteger (ctx.scalarKind otherType))
  pure {
    members := [pc, pc + 1]
    position := pc + 1
    removed := pc
    fused := {
      operation := .lenCompareBranch {
        operator, type := .builtin .int
        label := comparison.label, when := comparison.when }
      flow := {
        inputs := [object, other]
        release := mergeSlotReleases lengthFlow.release compareFlow.release (some temporary)
        releaseBefore := mergeSlotReleases lengthFlow.releaseBefore
          compareFlow.releaseBefore (some temporary) }
      cost := length.logicalCost + compare.logicalCost }
    temporary := some temporary }

section LoopLatch

/-- The labels of the code and those that the pass has put before positions. -/
def lookupLabel (inserted : List (String × Nat)) (name : String) : Option Nat :=
  (inserted.lookup name).or (labelPosition code.operations name)

/-- `base`, `base.1`, `base.2`, … -/
def labelCandidate (base : String) (suffix : Nat) : String :=
  if suffix = 0 then base else base ++ "." ++ toString suffix

/-- The first candidate that no label has. -/
def freshLabel (inserted : List (String × Nat)) (base : String) :
    Nat → Nat → Option String
  | 0, _ => none
  | fuel + 1, suffix =>
    let name := labelCandidate base suffix
    if (lookupLabel code inserted name).isSome then
      freshLabel inserted base fuel (suffix + 1)
    else some name

/-- The label of a loop body: the one that stands there, or a new one. -/
def bodyLabelAt (inserted : List (String × Nat)) (headerPC : Nat) :
    Option (String × Bool) :=
  match code.operations[headerPC + 2]? with
  | some (.label name) => some (name, false)
  | _ =>
    (freshLabel code inserted (".fused.loop.body." ++ toString headerPC)
      (code.instructions.length + inserted.length + 1) 0).map (·, true)

/-- A back edge that can be folded into the loop's comparison. -/
structure Latch where
  site : Site
  bodyPC : Nat
  bodyLabel : String
  /-- The body label is new and stands before the body. -/
  isNew : Bool

/-- The site of `fuseLoopLatch` at a jump. -/
def loopLatchAt (inserted : List (String × Nat)) (jumpPC : Nat) :
    Option Latch := do
  let jump ← code.instructions[jumpPC]?
  let .jump header := jump.operation | none
  let headerPC ← lookupLabel code inserted header
  guard (headerPC + 1 < jumpPC)
  let condition ← code.instructions[headerPC + 1]?
  let .compareBranch comparison := condition.operation | none
  let exitPC ← lookupLabel code inserted comparison.label
  guard (jumpPC < exitPC)
  guard ((code.operations.drop (jumpPC + 1)).take (exitPC - (jumpPC + 1)) |>.all Operation.isLabel)
  let first ← code.instructions[jumpPC - 1]?
  let update ← updateAt ctx code first
  let [left, right] := (code.flow condition).inputs | none
  let (operator, other) ← orientComparison (.localVar update.index) comparison.operator left right
  guard (sameOperandType ctx code other update.type)
  guard (!update.step.isSlot && !other.isSlot)
  let (bodyLabel, isNew) ← bodyLabelAt code inserted headerPC
  pure {
    site := {
      members := [jumpPC - 1, jumpPC, headerPC + 1]
      position := jumpPC - 1
      removed := jumpPC
      fused := {
        operation := .updateCompareBranch {
          update := update.operator, comparison := operator, type := update.type
          label := bodyLabel, when := !comparison.when }
        flow := updateFlow update other (code.flow first) (code.flow condition)
        cost := first.logicalCost + condition.logicalCost + jump.logicalCost } }
    bodyPC := headerPC + 2, bodyLabel, isNew }

/-- The labels that a list of latches puts into the code, the latest first. -/
def insertedLabels (latches : List Latch) : List (String × Nat) :=
  (latches.filter (·.isNew)).map fun latch => (latch.bodyLabel, latch.bodyPC)

/-- The loop of `fuseLoopLatch`, with the latches found so far, the latest
first. -/
def collectLatches : List Nat → List Latch → List Latch
  | [], found => found
  | jumpPC :: rest, found =>
    collectLatches rest ((loopLatchAt ctx code (insertedLabels found) jumpPC).toList ++ found)

def loopLatches : List Latch :=
  if code.instructions.length < 5 then []
  else collectLatches ctx code (List.range' 2 (code.instructions.length - 2)) []

end LoopLatch

inductive FusionPass where
  | loopLatch | updateCompareBranch | indexConvert | lenCompareBranch
deriving Repr, DecidableEq

def FusionPass.sites : FusionPass → List Site
  | .loopLatch => (loopLatches ctx code).map (·.site)
  | .updateCompareBranch =>
    (List.range code.instructions.length).filterMap (updateCompareBranchAt ctx code)
  | .indexConvert =>
    (List.range code.instructions.length).filterMap (indexConvertAt ctx code)
  | .lenCompareBranch =>
    (List.range code.instructions.length).filterMap (lenCompareBranchAt ctx code)

/-- The labels that a pass inserts, in the order in which it met them. -/
def FusionPass.inserted : FusionPass → List (String × Nat)
  | .loopLatch => (insertedLabels (loopLatches ctx code)).reverse
  | _ => []

def FusionPass.rewrite (pass : FusionPass) : Rewrite where
  removed pc := (pass.sites ctx code).any (·.removed = pc)
  overrides pc :=
    ((pass.sites ctx code).find? (·.position = pc)).map (·.fused)
  insertions pc :=
    ((pass.inserted ctx code).filter (·.2 = pc)).map (·.1)

/-- One pass over the code. -/
def FusionPass.run (pass : FusionPass) : MicroCode :=
  if (pass.sites ctx code).isEmpty then code
  else rewriteMicroCode code (pass.rewrite ctx code)

/-- The passes of `fuseHotPathInstructions` in their order. -/
def fusionPasses : List FusionPass :=
  [.loopLatch, .updateCompareBranch, .indexConvert, .lenCompareBranch]

/-- The context of one pass: the source boundaries move with the code. -/
def FusionContext.forPass (boundaries : FusionPass → Nat → Bool)
    (pass : FusionPass) : FusionContext :=
  { ctx with boundary := boundaries pass }

/-- Some passes one after the other. -/
def fuse (boundaries : FusionPass → Nat → Bool) (passes : List FusionPass) :
    MicroCode :=
  passes.foldl (fun code pass => pass.run (ctx.forPass boundaries pass) code) code

/-- `fuseHotPathInstructions`. -/
def fuseHotPathInstructions (boundaries : FusionPass → Nat → Bool) : MicroCode :=
  fuse ctx code boundaries fusionPasses

end MiniGo.Emit
