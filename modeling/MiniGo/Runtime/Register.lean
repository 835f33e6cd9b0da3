/-
Register instructions on numbers (`runtime/instruction.go`, `operators.go`,
`comparison.go`, `register_frame.go`).

A frame keeps a private numeric local in lanes of its own: type, bits, kind and
a flag. Binary and comparing instructions first try to read both operands as
raw bits and fall back to general values. What lies outside the numbers
(lengths, indexing, conversions, the operations on other values) belongs to a
`RegisterMachine`.
-/
import MiniGo.Bytecode.MicroCode
import MiniGo.Runtime.Equality

namespace MiniGo.Runtime

open Bytecode

/-- `vmValue.Data` of a value that is not in the heap. -/
inductive Detached where
  | nil
  | scalar
  | bool (value : Bool)
  | other (payload : String)
deriving Repr, DecidableEq

/-- `vmValue`. -/
structure VmValue where
  type : TypeRef
  data : Detached
  scalar : BitVec 64 := 0
  scalarKind : ScalarKind := .none
deriving Repr, DecidableEq

/-- `newSignedVMValue`. -/
def newSignedVMValue (type : TypeRef) (value : BitVec 64) : VmValue :=
  { type, data := .scalar, scalar := value, scalarKind := .signed }

/-- `newUnsignedVMValue`. -/
def newUnsignedVMValue (type : TypeRef) (value : BitVec 64) : VmValue :=
  { type, data := .scalar, scalar := value, scalarKind := .unsigned }

/-- `newFloatVMValue`. -/
def newFloatVMValue (type : TypeRef) (value : BitVec 64) : VmValue :=
  { type, data := .scalar, scalar := value, scalarKind := .float }

/-- `newBoolValue`. -/
def newBoolValue (value : Bool) : VmValue :=
  { type := .builtin .bool, data := .bool value,
    scalar := if value then 1 else 0 }

/-- `truthy`; a value without a payload counts as false, and the text of the error names the
type. -/
def truthy (value : VmValue) : Except Fault Bool :=
  if value.type = .builtin .bool then .ok (value.scalar ≠ 0)
  else
    match value.data with
    | .bool result => .ok result
    | .nil => .ok false
    | _ => .error (.error ("expected Bool condition, got " ++ value.type.text))

variable (types : NumericTypes)

/-- The width to which a result of a scalar kind is cut: of a builtin type only
when it has that kind, of another type whatever its underlying number is. -/
def resultBits (kind : ScalarKind) (type : TypeRef) : Nat :=
  if type.kind = .primitive then
    if primitiveScalarKind type.primitive = kind then primitiveBits type.primitive
    else 64
  else
    primitiveBits (types.primitive type)

/-- `normalizeSignedValue`. -/
def normalizeSignedValue (type : TypeRef) (value : BitVec 64) : VmValue :=
  newSignedVMValue type ((value.truncate (resultBits types .signed type)).signExtend 64)

/-- `normalizeUnsignedValue`. -/
def normalizeUnsignedValue (type : TypeRef) (value : BitVec 64) : VmValue :=
  newUnsignedVMValue type ((value.truncate (resultBits types .unsigned type)).zeroExtend 64)

/-- `compareOrdering`; an ordering of `none` is that of an unordered pair. -/
def compareOrdering (operator : Operator) (ordering : Option Ordering) : Bool :=
  match operator with
  | .less => ordering = some .lt
  | .greater => ordering = some .gt
  | .lessEqual => ordering = some .lt || ordering = some .eq
  | .greaterEqual => ordering = some .gt || ordering = some .eq
  | .equal => ordering = some .eq
  | .notEqual => ordering ≠ some .eq
  | _ => false

/-- `compareInt64`. -/
def compareInt64 (left right : BitVec 64) : Ordering :=
  compare left.toInt right.toInt

/-- `compareUint64`. -/
def compareUint64 (left right : BitVec 64) : Ordering :=
  compare left.toNat right.toNat

def isComparison : Operator → Bool
  | .equal | .notEqual | .less | .greater | .lessEqual | .greaterEqual => true
  | _ => false

/-- The arithmetic of two signed operands in `evalIntegerBinary`. -/
def evalSignedBinary (operator : Operator) (type : TypeRef)
    (left right : BitVec 64) : Option (Except Fault VmValue) :=
  let normalize value := some (.ok (normalizeSignedValue types type value))
  match operator with
  | .add => normalize (left + right)
  | .sub => normalize (left - right)
  | .mul => normalize (left * right)
  | .div =>
    if right = 0 then some (.error (.guestPanic "division by zero"))
    else normalize (left.sdiv right)
  | .mod =>
    if right = 0 then some (.error (.guestPanic "division by zero"))
    else normalize (left.srem right)
  | .bitAnd => normalize (left &&& right)
  | .bitOr => normalize (left ||| right)
  | .bitXor => normalize (left ^^^ right)
  | .bitClear => normalize (left &&& ~~~right)
  | .shiftLeft =>
    if right.toInt < 0 then some (.error (.guestPanic "negative shift amount"))
    else normalize (left <<< right)
  | .shiftRight =>
    if right.toInt < 0 then some (.error (.guestPanic "negative shift amount"))
    else normalize (left.sshiftRight right.toNat)
  | _ =>
    if isComparison operator then
      some (.ok (newBoolValue (compareOrdering operator (some (compareInt64 left right)))))
    else none

/-- The arithmetic of two unsigned operands in `evalIntegerBinary`. -/
def evalUnsignedBinary (operator : Operator) (type : TypeRef)
    (left right : BitVec 64) : Option (Except Fault VmValue) :=
  let normalize value := some (.ok (normalizeUnsignedValue types type value))
  match operator with
  | .add => normalize (left + right)
  | .sub => normalize (left - right)
  | .mul => normalize (left * right)
  | .div =>
    if right = 0 then some (.error (.guestPanic "division by zero"))
    else normalize (left / right)
  | .mod =>
    if right = 0 then some (.error (.guestPanic "division by zero"))
    else normalize (left % right)
  | .bitAnd => normalize (left &&& right)
  | .bitOr => normalize (left ||| right)
  | .bitXor => normalize (left ^^^ right)
  | .bitClear => normalize (left &&& ~~~right)
  | .shiftLeft => normalize (left <<< right)
  | .shiftRight => normalize (left >>> right)
  | _ =>
    if isComparison operator then
      some (.ok (newBoolValue (compareOrdering operator (some (compareUint64 left right)))))
    else none

/-- `evalIntegerBinary`; `none` when it does not handle the operands. -/
def evalIntegerBinary (operator : Operator) (type : TypeRef)
    (leftKind : ScalarKind) (left : BitVec 64) (rightKind : ScalarKind)
    (right : BitVec 64) : Option (Except Fault VmValue) :=
  let isShift := operator = .shiftLeft ∨ operator = .shiftRight
  match leftKind, rightKind with
  | .signed, .signed => evalSignedBinary types operator type left right
  | .signed, .unsigned =>
    if operator = .shiftLeft then
      some (.ok (normalizeSignedValue types type (left <<< right)))
    else if operator = .shiftRight then
      some (.ok (normalizeSignedValue types type (left.sshiftRight right.toNat)))
    else none
  | .unsigned, .unsigned => evalUnsignedBinary types operator type left right
  | .unsigned, .signed =>
    if isShift then
      if right.toInt < 0 then
        some (.error (.guestPanic "negative shift amount"))
      else evalUnsignedBinary types operator type left right
    else none
  | _, _ => none

/-- The storage of a private numeric local: an entry of `directTypes`,
`directScalars`, `directKinds` and `directInitialized`. -/
structure Lane where
  type : TypeRef := {}
  scalar : BitVec 64 := 0
  scalarKind : ScalarKind := .none
  initialized : Bool := false
deriving Repr, DecidableEq

/-- `slot`: a local in the frame's own lanes, or a cell of another kind with the
value it holds. -/
inductive Cell where
  | direct (lane : Lane)
  | shared (value : Option VmValue)
deriving Repr, DecidableEq

/-- What instructions on numbers see of a frame. -/
structure Frame (World : Type) where
  cells : Nat → Cell
  slots : Nat → Option VmValue
  /-- The temporaries whose bytes are read as an integer. -/
  packed : Nat → Bool
  /-- The constants that have been resolved before. -/
  resolved : Nat → Bool
  world : World

/-- The declared types that the loader consults. -/
structure StaticTypes where
  localType : Nat → TypeRef
  constantType : Nat → TypeRef
  slotType : Nat → TypeRef

def StaticTypes.operandType (static : StaticTypes) : Operand → TypeRef
  | .slot index => static.slotType index
  | .constant index => static.constantType index
  | .localVar index => static.localType index

/-- How an instruction ends. -/
inductive Outcome (World : Type) where
  | next (pc : Nat) (frame : Frame World)
  | fault (fault : Fault) (frame : Frame World)

/-- The runtime around the register instructions. -/
structure RegisterMachine where
  World : Type
  types : NumericTypes
  constantValueAt : Nat → Except Fault VmValue
  zeroValue : TypeRef → VmValue
  underlyingOperand : VmValue → VmValue
  floatArithmetic : Operator → PrimitiveKind → BitVec 64 → BitVec 64 → BitVec 64
  compareFloat : BitVec 64 → BitVec 64 → Option Ordering
  evalOther : World → Operator → VmValue → VmValue → Except Fault VmValue
  coerceAssignable : TypeRef → VmValue → Except Fault VmValue
  lengthValue : World → VmValue → Except Fault (BitVec 64)
  indexValue : World → VmValue → VmValue → Except Fault VmValue
  convertValue : World → TypeRef → VmValue → Except Fault VmValue
  perform : Operation → RegisterFlow → Frame World → Outcome World

section Values

variable (machine : RegisterMachine)

/-- `numericOperandValue`. -/
def numericOperandValue (value : VmValue) (primitive : PrimitiveKind) :
    VmValue :=
  if primitive ≠ .invalid then { value with type := .builtin primitive }
  else machine.underlyingOperand value

/-- `compareIntegerValues`, and `compareFloat` for two floats; `none` when the
operands are neither. -/
def compareNumbers (left right : VmValue) : Option (Option Ordering) :=
  match left.scalarKind, right.scalarKind with
  | .signed, .signed => some (some (compareInt64 left.scalar right.scalar))
  | .unsigned, .unsigned => some (some (compareUint64 left.scalar right.scalar))
  | .signed, .unsigned =>
    some (some (if left.scalar.toInt < 0 then .lt
      else compareUint64 left.scalar right.scalar))
  | .unsigned, .signed =>
    some (some (if right.scalar.toInt < 0 then .gt
      else compareUint64 left.scalar right.scalar))
  | .float, .float => some (machine.compareFloat left.scalar right.scalar)
  | _, _ => none

/-- The part of `evalBinary` behind `evalIntegerBinary`. -/
def evalGeneral (world : machine.World) (operator : Operator)
    (resultType : TypeRef) (left right : VmValue) : Except Fault VmValue :=
  if isComparison operator then
    match compareNumbers machine left right with
    | some ordering => .ok (newBoolValue (compareOrdering operator ordering))
    | none => machine.evalOther world operator left right
  else if left.scalarKind = .float ∧ right.scalarKind = .float ∧
      (operator = .add ∨ operator = .sub) then
    .ok (newFloatVMValue resultType (machine.floatArithmetic operator
      (machine.types.primitive left.type) left.scalar right.scalar))
  else
    machine.evalOther world operator left right

/-- `evalBinary`. -/
def evalBinary (world : machine.World) (operator : Operator)
    (left right : VmValue) (leftPrimitive rightPrimitive : PrimitiveKind) :
    Except Fault VmValue :=
  let leftValue :=
    if left.type.kind ≠ .primitive then
      numericOperandValue machine left leftPrimitive
    else left
  let rightValue :=
    if right.type.kind ≠ .primitive then
      numericOperandValue machine right rightPrimitive
    else right
  match evalIntegerBinary machine.types operator leftValue.type
      leftValue.scalarKind leftValue.scalar rightValue.scalarKind
      rightValue.scalar with
  | some (.ok out) =>
    .ok (if out.scalarKind ≠ .none then { out with type := left.type } else out)
  | some (.error fault) => .error fault
  | none => evalGeneral machine world operator left.type leftValue rightValue

/-- `compareLengthValue`. -/
def compareLengthValue (operator : Operator) (length : BitVec 64)
    (right : VmValue) : Except Fault Bool :=
  match right.scalarKind with
  | .signed =>
    .ok (compareOrdering operator (some (compareInt64 length right.scalar)))
  | .unsigned =>
    .ok (compareOrdering operator (some (compareUint64 length right.scalar)))
  | _ => .error (.error ("invalid integer operands Int and " ++ right.type.text))

end Values

section Access

variable (machine : RegisterMachine) (static : StaticTypes)

/-- `slot.load`. -/
def Cell.load (declared : TypeRef) : Cell → VmValue
  | .direct lane =>
    if lane.initialized then
      { type := lane.type
        data := if lane.type = .builtin .bool then .bool (lane.scalar ≠ 0)
          else .scalar
        scalar := lane.scalar, scalarKind := lane.scalarKind }
    else machine.zeroValue declared
  | .shared value => value.getD (machine.zeroValue declared)

/-- `slot.publish`. -/
def Cell.publish (value : VmValue) : Cell → Cell
  | .direct _ => .direct ⟨value.type, value.scalar, value.scalarKind, true⟩
  | .shared _ => .shared (some value)

/-- `slot.store`. -/
def Cell.store (declared : TypeRef) (value : VmValue) (cell : Cell) :
    Except Fault Cell :=
  if declared = value.type ∧ declared.kind ∈ [TypeKind.void, .primitive, .map,
      .pointer, .waitable, .function] then
    .ok (cell.publish value)
  else do
    let normalized ← machine.coerceAssignable declared value
    pure (cell.publish normalized)

def Frame.setCell {World : Type} (frame : Frame World) (index : Nat)
    (cell : Cell) : Frame World :=
  { frame with cells := Function.update frame.cells index cell }

/-- The value that `pop` yields for an operand. -/
def readOperand (frame : Frame machine.World) : Operand → Except Fault VmValue
  | .constant index => machine.constantValueAt index
  | .localVar index =>
    .ok ((frame.cells index).load machine (static.localType index))
  | .slot index =>
    .ok ((frame.slots index).getD { type := static.slotType index, data := .other "" })

/-- `integerOperand`. -/
def integerOperand (frame : Frame machine.World) : Operand → Option (BitVec 64)
  | .constant index =>
    if frame.resolved index then
      match machine.constantValueAt index with
      | .ok value => if value.scalarKind ≠ .none then some value.scalar else none
      | .error _ => none
    else none
  | .localVar index =>
    match frame.cells index with
    | .direct lane => some lane.scalar
    | .shared _ => none
  | .slot index =>
    if frame.packed index then (frame.slots index).map (·.scalar) else none

/-- `push` on an instruction's output. -/
def writeOutput (frame : Frame machine.World) (value : VmValue) :
    Output → Frame machine.World
  | .localVar index =>
    frame.setCell index ((frame.cells index).publish value)
  | .slot index =>
    { frame with slots := Function.update frame.slots index (some value) }

/-- The primitive that the loader notes for an input (`numericInputs`). -/
def numericInput (operand : Operand) : PrimitiveKind :=
  let primitive := machine.types.primitive (static.operandType operand)
  match primitive with
  | .bool | .string | .error | .function => .invalid
  | _ => primitive

end Access

section Evaluate

variable (machine : RegisterMachine) (static : StaticTypes)

/-- The value of a binary or comparing instruction: the fast path over the raw
bits, or the general one. -/
def evalOperands (frame : Frame machine.World) (operator : Operator)
    (left right : Operand) : Except Fault VmValue :=
  let leftPrimitive := numericInput machine static left
  let rightPrimitive := numericInput machine static right
  let leftKind := primitiveScalarKind leftPrimitive
  let rightKind := primitiveScalarKind rightPrimitive
  let general : Except Fault VmValue := do
    let rightValue ← readOperand machine static frame right
    let leftValue ← readOperand machine static frame left
    evalBinary machine frame.world operator leftValue rightValue leftPrimitive rightPrimitive
  if isInteger leftKind && isInteger rightKind then
    match integerOperand machine frame left, integerOperand machine frame right with
    | some leftBits, some rightBits =>
      (evalIntegerBinary machine.types operator (static.operandType left)
        leftKind leftBits rightKind rightBits).getD general
    | _, _ => general
  else general

/-- The lane update of a fused instruction: the type lane keeps its value. -/
def Lane.update (lane : Lane) (value : VmValue) : Lane :=
  { lane with
    scalar := value.scalar, scalarKind := value.scalarKind, initialized := true }

/-- The fast path of `preparedUpdateCompareBranch`; `none` when the instruction
falls back to the general path. -/
def fastUpdateComparison (frame : Frame machine.World)
    (payload : UpdateComparison) (index : Nat) (step other : Operand) :
    Option (Except Fault (Frame machine.World × Bool)) := do
  let operand := Operand.localVar index
  let kind := primitiveScalarKind (numericInput machine static operand)
  guard (isInteger kind && isInteger (primitiveScalarKind (numericInput machine static step)) &&
    isInteger (primitiveScalarKind (numericInput machine static other)))
  let current ← integerOperand machine frame operand
  let update ← integerOperand machine frame step
  let comparison ← integerOperand machine frame other
  let type := static.localType index
  match evalIntegerBinary machine.types payload.update type kind current kind update with
  | some (.error fault) => some (.error fault)
  | some (.ok updated) =>
    match evalIntegerBinary machine.types payload.comparison type kind
        updated.scalar kind comparison, frame.cells index with
    | some (.error fault), _ => some (.error fault)
    | some (.ok matched), .direct lane =>
      some ((truthy matched).map (frame.setCell index (.direct (lane.update updated)), ·))
    | _, _ => none
  | none => none

/-- The general path of `preparedUpdateCompareBranch`; a fault comes with the
frame it leaves. -/
def generalUpdateComparison (frame : Frame machine.World)
    (payload : UpdateComparison) (index : Nat) (step other : Operand) :
    Frame machine.World × Except Fault Bool :=
  let operand := Operand.localVar index
  let primitive := numericInput machine static operand
  let updated : Except Fault (VmValue × VmValue × Cell) := do
    let comparisonValue ← readOperand machine static frame other
    let updateValue ← readOperand machine static frame step
    let currentValue ← readOperand machine static frame operand
    let updated ← evalBinary machine frame.world payload.update currentValue
      updateValue primitive (numericInput machine static step)
    let cell ← (frame.cells index).store machine (static.localType index) updated
    pure (updated, comparisonValue, cell)
  match updated with
  | .error fault => (frame, .error fault)
  | .ok (updated, comparisonValue, cell) =>
    (frame.setCell index cell,
      evalBinary machine frame.world payload.comparison updated comparisonValue
        primitive (numericInput machine static other) >>= truthy)

/-- `preparedUpdateCompareBranch`. -/
def updateComparison (frame : Frame machine.World) (payload : UpdateComparison)
    (index : Nat) (step other : Operand) :
    Frame machine.World × Except Fault Bool :=
  match fastUpdateComparison machine static frame payload index step other with
  | some (.ok (frame, matched)) => (frame, .ok matched)
  | some (.error fault) => (frame, .error fault)
  | none => generalUpdateComparison machine static frame payload index step other

end Evaluate

section Execute

variable (machine : RegisterMachine) (static : StaticTypes) (labels : String → Option Nat)

/-- A branch that is taken when the condition has the wanted value. -/
def branch (pc : Nat) (label : String) (when : Bool)
    (result : Frame machine.World × Except Fault Bool) :
    Outcome machine.World :=
  match result with
  | (frame, .ok matched) =>
    .next (if matched = when then (labels label).getD 0 else pc + 1) frame
  | (frame, .error fault) => .fault fault frame

/-- The end of an instruction with one result. -/
def produce (frame : Frame machine.World) (pc : Nat) (outputs : List Output)
    (result : Except Fault VmValue) : Outcome machine.World :=
  match result, outputs with
  | .ok value, [output] => .next (pc + 1) (writeOutput machine frame value output)
  | .ok _, _ => .fault (.error "operand overflow") frame
  | .error fault, _ => .fault fault frame

/-- `executeInstruction` at a program counter. -/
def executeInstruction (pc : Nat) (operation : Operation) (flow : RegisterFlow)
    (frame : Frame machine.World) : Outcome machine.World :=
  match operation, flow.inputs with
  | .binary operator, [left, right] =>
    produce machine frame pc flow.outputs (evalOperands machine static frame operator left right)
  | .compareBranch comparison, [left, right] =>
    branch machine labels pc comparison.label comparison.when (frame,
      evalOperands machine static frame comparison.operator left right >>= truthy)
  | .updateCompareBranch payload, [.localVar index, step, other] =>
    branch machine labels pc payload.label payload.when
      (updateComparison machine static frame payload index step other)
  | .len, [object] =>
    produce machine frame pc flow.outputs (do
      let value ← readOperand machine static frame object
      let length ← machine.lengthValue frame.world value
      pure (newSignedVMValue (.builtin .int) length))
  | .lenCompareBranch comparison, [object, other] =>
    branch machine labels pc comparison.label comparison.when (frame, do
      let otherValue ← readOperand machine static frame other
      let value ← readOperand machine static frame object
      let length ← machine.lengthValue frame.world value
      compareLengthValue comparison.operator length otherValue)
  | .loadIndex, [object, index] =>
    produce machine frame pc flow.outputs (do
      let indexOperand ← readOperand machine static frame index
      let value ← readOperand machine static frame object
      machine.indexValue frame.world value indexOperand)
  | .convert type, [operand] =>
    produce machine frame pc flow.outputs (do
      let value ← readOperand machine static frame operand
      machine.convertValue frame.world type value)
  | .indexConvert type, [object, index] =>
    produce machine frame pc flow.outputs (do
      let indexOperand ← readOperand machine static frame index
      let value ← readOperand machine static frame object
      let loaded ← machine.indexValue frame.world value indexOperand
      machine.convertValue frame.world type loaded)
  | .jump target, _ => .next ((labels target).getD 0) frame
  | operation, _ => machine.perform operation flow frame

variable {machine static labels} {pc : Nat} {flow : RegisterFlow} {frame : Frame machine.World}

variable {cmp : Comparison} {object index : Operand}

theorem executeInstruction_compareBranch {left right : Operand} (hi : flow.inputs = [left, right]) :
    executeInstruction machine static labels pc (.compareBranch cmp) flow frame =
      branch machine labels pc cmp.label cmp.when (frame,
        evalOperands machine static frame cmp.operator left right >>= truthy) := by
  unfold executeInstruction
  rw [hi]

/-- The value of a `load_index`. -/
def loadedValue (machine : RegisterMachine) (static : StaticTypes)
    (frame : Frame machine.World) (object index : Operand) :
    Except Fault VmValue := do
  let indexOperand ← readOperand machine static frame index
  let value ← readOperand machine static frame object
  machine.indexValue frame.world value indexOperand

theorem executeInstruction_loadIndex (hi : flow.inputs = [object, index]) :
    executeInstruction machine static labels pc .loadIndex flow frame =
      produce machine frame pc flow.outputs (loadedValue machine static frame object index) := by
  unfold executeInstruction
  rw [hi]
  rfl

theorem executeInstruction_indexConvert {type : TypeRef} (hi : flow.inputs = [object, index]) :
    executeInstruction machine static labels pc (.indexConvert type) flow frame =
      produce machine frame pc flow.outputs (loadedValue machine static frame object index >>=
          machine.convertValue frame.world type) := by
  unfold executeInstruction
  rw [hi]
  simp only [loadedValue, bind_assoc]

/-- The length that `len` takes. -/
def measuredLength (machine : RegisterMachine) (static : StaticTypes)
    (frame : Frame machine.World) (object : Operand) :
    Except Fault (BitVec 64) :=
  readOperand machine static frame object >>= machine.lengthValue frame.world

theorem executeInstruction_len (hi : flow.inputs = [object]) :
    executeInstruction machine static labels pc .len flow frame =
      produce machine frame pc flow.outputs
        (measuredLength machine static frame object >>= fun length =>
          pure (newSignedVMValue (.builtin .int) length)) := by
  unfold executeInstruction
  rw [hi]
  simp only [measuredLength, bind_assoc]

theorem executeInstruction_lenCompareBranch {other : Operand} (hi : flow.inputs = [object, other]) :
    executeInstruction machine static labels pc (.lenCompareBranch cmp) flow frame =
      branch machine labels pc cmp.label cmp.when (frame,
        readOperand machine static frame other >>= fun otherValue =>
          measuredLength machine static frame object >>= fun length =>
            compareLengthValue cmp.operator length otherValue) := by
  unfold executeInstruction
  rw [hi]
  simp only [measuredLength, bind_assoc]

theorem executeInstruction_jump {tgt : String} :
    executeInstruction machine static labels pc (.jump tgt) flow frame =
      .next ((labels tgt).getD 0) frame := by
  unfold executeInstruction
  split <;> simp_all

end Execute

end MiniGo.Runtime
