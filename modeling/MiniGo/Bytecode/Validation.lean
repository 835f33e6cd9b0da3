/-
Validation of register code (`runtime/bytecode/microcode_validation.go`,
`instruction_arity.go`).

The instructions are checked one by one, then the blocks, and then a forward
analysis finds for every line of the code the slots that are initialized on all
paths to it. The payload checks of `validateInstruction` are a parameter, and
bit sets are finite sets.
-/
import MiniGo.Bytecode.MicroCode
import MiniGo.Lib.Worklist

namespace MiniGo.Bytecode

/-- `ir.BasicBlock`. -/
structure BasicBlock where
  first : Nat
  count : Nat
  fallthrough : Nat
  cost : Nat
deriving Repr, DecidableEq

/-- `NoBlock`. -/
def noBlock : Nat := 2 ^ 32 - 1

/-- `ir.Constant`, as far as an operand depends on it. -/
structure Constant where
  untyped : Bool := false
deriving Repr, DecidableEq

/-- `ir.Local`, and `ir.Upvalue`, which has the same fields. -/
structure Local where
  id : String
  type : TypeRef := {}
deriving Repr, DecidableEq

/-- `instructionArity`: the number of inputs and of outputs. -/
def Operation.arity : Operation → Nat × Nat
  | .typeDispatch .. | .select .. | .label _ | .jump _ | .mapIterClose _
  | .initModule _ => (0, 0)
  | .const _ | .zero _ | .loadLocal _ | .loadUpvalue _ | .loadGlobal _ | .recover
  | .makeClosure .. | .addressOf .. | .loadExport .. => (0, 1)
  | .pop | .storeLocal .. | .storeUpvalue _ | .storeGlobal _ | .jumpIf .. | .panic
  | .deferPush _ | .clear | .mapIterInit _ | .waitableClose => (1, 0)
  | .unary _ | .makeWaitable _ | .len | .cap | .mapKeys | .loadField _
  | .typeAssert _ | .convert _ | .loadIndirect | .waitableRecv | .waitableCanRecv
  | .waitableCanSend | .getPath .. => (1, 1)
  | .typeAssertOK _ | .waitableRecvOK | .waitableTryRecv => (1, 2)
  | .delete | .storeField _ | .storeIndirect | .waitableSend | .compareBranch _
  | .lenCompareBranch _ => (2, 0)
  | .binary _ | .loadIndex | .stringRuneAt | .stringNextRuneIndex | .copy
  | .waitableTrySend | .indexConvert _ => (2, 1)
  | .loadIndexOK => (2, 2)
  | .storeIndex | .updateCompareBranch _ => (3, 0)
  | .slice _ => (4, 1)
  | .mapIterNext _ => (0, 3)
  | .append count _ => (count + 1, 1)
  | .makeSequence _ count => (count, 1)
  | .makeMap _ count hasCapacity => (count * 2 + if hasCapacity then 1 else 0, 1)
  | .makeStruct _ fields => (fields.length, 1)
  | .makeSlice _ hasCapacity => (if hasCapacity then 2 else 1, 1)
  | .returnValues count => (count, 0)
  | .callValue call => (call.argCount + 1, call.resultCount)
  | .callDirect call => (call.argCount, call.resultCount)
  | .tailCallDirect call => (call.argCount, 0)
  | .callInterface _ _ argCount resultCount => (argCount + 1, resultCount)
  | .spawn call => (call.argCount + 1, 0)
  | .callFFI argCount resultCount => (argCount, resultCount)
  | .callIntrinsic _ argCount resultCount => (argCount, resultCount)
  | .minMax _ _ argCount => (argCount, 1)

/-- `HasDirectOutput`. -/
def Operation.hasDirectOutput : Operation → Bool
  | .unary _ | .binary _ | .minMax .. | .zero _ | .len | .cap | .getPath ..
  | .convert _ | .loadIndex | .stringNextRuneIndex | .indexConvert _
  | .callDirect _ | .mapIterNext _ => true
  | _ => false

/-- `AllowsDirectLocalOutputs`. -/
def Operation.allowsDirectLocalOutputs (operation : Operation) (count : Nat) : Bool :=
  if count = 0 then false
  else
    match operation with
    | .callDirect _ | .mapIterNext _ => true
    | _ => count == 1 && operation.hasDirectOutput

/-- Control may pass to the next instruction. -/
def Operation.fallsThrough : Operation → Bool
  | .jump _ | .typeDispatch .. | .panic | .returnValues _ | .tailCallDirect _ => false
  | _ => true

/-- An output as it is encoded, with bit 31 for a local. -/
def Output.code : Output → Nat
  | .slot index => index
  | .localVar index => 2 ^ 31 + index

/-- The slots among the outputs. -/
def RegisterFlow.outputSlots (flow : RegisterFlow) : List Nat :=
  flow.outputs.filterMap fun
    | .slot index => some index
    | .localVar _ => none

/-- The slots among the inputs. -/
def RegisterFlow.inputSlots (flow : RegisterFlow) : List Nat :=
  flow.inputs.filterMap fun
    | .slot index => some index
    | _ => none

def fault {α : Type} (pc : Nat) (text : String) : Except String α :=
  .error ("instruction " ++ toString pc ++ ": " ++ text)

def quoted (text : String) : String := "\"" ++ text ++ "\""

section Instructions

variable (validateInstruction : Operation → Except String Unit)
variable (code : MicroCode) (constants : List Constant) (locals : List Local)

def validateInput (pc : Nat) : Operand → Except String Unit
  | .slot index =>
    if code.types.length ≤ index then fault pc "input slot out of range" else .ok ()
  | .constant index =>
    match constants[index]? with
    | none => fault pc "constant out of range"
    | some constant =>
      if constant.untyped then
        fault pc "untyped constant is not an execution operand"
      else
        .ok ()
  | .localVar index =>
    if locals.length ≤ index then fault pc "local operand out of range" else .ok ()

def validateInputs (pc : Nat) : List Operand → Except String Unit
  | [] => .ok ()
  | input :: inputs =>
    validateInput code constants locals pc input >>= fun _ =>
      validateInputs pc inputs

/-- The range of an output, before those of an earlier one and of the inputs. -/
def validateOutputRange (pc : Nat) (operation : Operation) (count : Nat) :
    Output → Except String Unit
  | .localVar index =>
    if !operation.allowsDirectLocalOutputs count || decide (locals.length ≤ index) then
      fault pc "invalid direct local output"
    else
      .ok ()
  | .slot index =>
    if code.types.length ≤ index then fault pc "output slot out of range" else .ok ()

def validateOutputs (pc : Nat) (operation : Operation) (flow : RegisterFlow)
    (before : List Output) : List Output → Except String Unit
  | [] => .ok ()
  | output :: outputs =>
    validateOutputRange code locals pc operation flow.outputs.length output >>= fun _ =>
      if output ∈ before then
        fault pc ("duplicate output slot " ++ toString output.code)
      else if output.code ∈ flow.inputSlots then
        fault pc ("output aliases input slot " ++ toString output.code)
      else
        validateOutputs pc operation flow (output :: before) outputs

/-- The loops over `Release` and `ReleaseBefore`, with their texts. -/
def validateReleases (pc : Nat) (text : String) (before : List Nat) :
    List Nat → Except String Unit
  | [] => .ok ()
  | slot :: slots =>
    if code.types.length ≤ slot then
      fault pc (text ++ " slot out of range")
    else if slot ∈ before then
      fault pc ("duplicate " ++ text ++ " slot " ++ toString slot)
    else
      validateReleases pc text (slot :: before) slots

def validateLabel (pc : Nat) (flow : RegisterFlow) : Operation → Except String Unit
  | .label name =>
    if flow.release ≠ [] ∨ flow.releaseBefore ≠ [] then
      fault pc "label cannot release slots"
    else if .label name ∈ code.operations.take pc then
      .error ("duplicate label " ++ quoted name)
    else
      .ok ()
  | _ => .ok ()

/-- The body of the first loop of `validateMicroCode`. -/
def validateOperands (pc : Nat) (instruction : MicroInstruction) :
    Except String Unit :=
  match code.operands[instruction.operands]? with
  | none => fault pc "operands out of range"
  | some flow =>
    validateInstruction instruction.operation >>= fun _ =>
    if (flow.inputs.length, flow.outputs.length) ≠ instruction.operation.arity then
      fault pc "operand arity mismatch"
    else
      validateInputs code constants locals pc flow.inputs >>= fun _ =>
      validateOutputs code locals pc instruction.operation flow [] flow.outputs >>= fun _ =>
      validateReleases code pc "release" [] flow.release >>= fun _ =>
      validateLabel code pc flow instruction.operation >>= fun _ =>
      validateReleases code pc "entry release" [] flow.releaseBefore

def validateInstructions (pc : Nat) : List MicroInstruction → Except String Unit
  | [] => .ok ()
  | instruction :: instructions =>
    validateOperands validateInstruction code constants locals pc instruction >>=
      fun _ => validateInstructions (pc + 1) instructions

def validateTypes (index : Nat) : List TypeRef → Except String Unit
  | [] => .ok ()
  | type :: types =>
    if !type.valid then
      .error ("slot " ++ toString index ++ ": invalid type")
    else
      validateTypes (index + 1) types

end Instructions

section Blocks

variable (code : MicroCode) (blocks : List BasicBlock)

def validateCosts (pc : Nat) : List MicroInstruction → Except String Unit
  | [] => .ok ()
  | instruction :: instructions =>
    if instruction.cost = 0 then fault pc "logical cost must be positive"
    else validateCosts (pc + 1) instructions

def executableCosts : List Nat :=
  (code.instructions.filter (!·.operation.isLabel)).map (·.cost)

/-- The loop over the blocks; `covered` instructions belong to earlier ones. -/
def validateBlockRanges (index covered : Nat) :
    List BasicBlock → Except String Unit
  | [] =>
    if covered ≠ (executableCosts code).length then
      .error "basic blocks do not cover executable instructions"
    else
      .ok ()
  | block :: rest =>
    let error text := .error ("block " ++ toString index ++ ": " ++ text)
    let cost := (((executableCosts code).drop block.first).take block.count).sum
    if block.first ≠ covered ∨ block.count = 0 ∨
        (executableCosts code).length < block.first + block.count then
      error "ranges must be contiguous, non-empty, and in bounds"
    else if 2 ^ 32 - 1 < cost ∨ cost ≠ block.cost then
      error "logical cost mismatch"
    else if block.fallthrough ≠ noBlock ∧ blocks.length ≤ block.fallthrough then
      error "fallthrough out of range"
    else
      validateBlockRanges (index + 1) (covered + block.count) rest

def validateBlocks : Except String Unit :=
  if blocks = [] then .ok ()
  else
    validateCosts 0 code.instructions >>= fun _ =>
      validateBlockRanges code blocks 0 0 blocks

end Blocks

section Analysis

variable (code : MicroCode)

/-- The labels an instruction names, as positions. -/
def targetPositions (pc : Nat) : List String → Except String (List Nat)
  | [] => .ok []
  | label :: labels =>
    match labelPosition code.operations label with
    | none => fault pc ("unknown label " ++ quoted label)
    | some target => (target :: ·) <$> targetPositions pc labels

/-- The row of `successors` for an instruction. -/
def successors (pc : Nat) (operation : Operation) : Except String (List Nat) :=
  ((if operation.fallsThrough && decide (pc + 1 < code.instructions.length) then
      [pc + 1] else []) ++ ·) <$> targetPositions code pc operation.targets

/-- The instruction at a position ends a line: it branches or does not fall
through. -/
def Operation.endsLine (operation : Operation) : Bool :=
  operation.targets ≠ [] || !operation.fallsThrough

/-- `leaders`. -/
def leaders (pc : Nat) : Bool :=
  (match pc with
    | 0 => false
    | before + 1 => (code.operations[before]?).any (·.endsLine)) ||
  code.operations.any fun operation =>
    operation.targets.any (labelPosition code.operations · = some pc)

/-- The rows of `successors`; the first unknown label is an error. -/
def allSuccessors (pc : Nat) : List MicroInstruction → Except String (List (List Nat))
  | [] => .ok []
  | instruction :: instructions =>
    successors code pc instruction.operation >>= fun row =>
      (row :: ·) <$> allSuccessors (pc + 1) instructions

def RegisterFlow.enter (flow : RegisterFlow) (state : Finset Nat) : Finset Nat :=
  state \ flow.releaseBefore.toFinset

def RegisterFlow.write (flow : RegisterFlow) (state : Finset Nat) : Finset Nat :=
  state ∪ flow.outputSlots.toFinset

/-- One instruction of the scan. -/
def transfer (pc : Nat) (flow : RegisterFlow) (state : Finset Nat) :
    Except String (Finset Nat) :=
  match flow.inputSlots.find? (· ∉ flow.enter state) with
  | some slot => fault pc ("slot " ++ toString slot ++ " may be uninitialized")
  | none => .ok (flow.write (flow.enter state) \ flow.release.toFinset)

/-- The register flow at a position. -/
def MicroCode.flowAt (pc : Nat) : RegisterFlow :=
  ((code.instructions[pc]?).map code.flow).getD {}

/-- The scan of a line: on to the next instruction while that is the only
successor and not a leader. -/
def scanLine (rows : List (List Nat)) : Nat → Nat → Finset Nat →
    Except String (Nat × Finset Nat)
  | length, pc, state =>
    transfer pc (code.flowAt pc) state >>= fun state =>
      match length with
      | 0 => .ok (pc, state)
      | length + 1 =>
        if rows[pc]? = some [pc + 1] ∧ leaders code (pc + 1) = false then
          scanLine rows length (pc + 1) state
        else
          .ok (pc, state)

/-- A line passes its last state to the successors of its last instruction. -/
def lineFlow (rows : List (List Nat)) : Worklist.Flow Nat (Finset Nat) String :=
  fun pc state =>
    (fun last => (rows[last.1]?.getD [], last.2)) <$>
      scanLine code rows code.instructions.length pc state

/-- The state of the analysis before its first step. -/
def analysisStart : Worklist.Progress Nat (Finset Nat) :=
  { states := fun pc => if pc = 0 then some ∅ else none
    queued := fun pc => pc = 0
    queue := [0] }

end Analysis

/-- `validateMicroCode`, with the number of lines the analysis may scan; `none`
when that does not suffice. -/
def validateMicroCode (validateInstruction : Operation → Except String Unit)
    (code : MicroCode) (blocks : List BasicBlock) (constants : List Constant)
    (locals : List Local) (steps : Nat) : Option (Except String Unit) :=
  let checked : Except String (List (List Nat)) :=
    validateInstructions validateInstruction code constants locals 0 code.instructions >>= fun _ =>
    validateTypes 0 code.types >>= fun _ =>
    validateBlocks code blocks >>= fun _ =>
    allSuccessors code 0 code.instructions
  match checked with
  | .error text => some (.error text)
  | .ok rows =>
    if code.instructions = [] then
      some (.ok ())
    else if 4 * 2 ^ 20 < (code.types.length + 63) / 64 * code.instructions.length then
      some (.error "slot initialization analysis exceeds limit")
    else
      (Worklist.solve (lineFlow code rows) steps analysisStart).map
        fun result => result.map fun _ => ()

end MiniGo.Bytecode
