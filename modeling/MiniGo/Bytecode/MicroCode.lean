/-
The register code of a function (`runtime/bytecode/microcode.go`).

An instruction names its operation with the payload of its descriptor, and an
entry of a table of register flows: the operands it reads, the slots or private
locals it writes, and the slots that are cleared around it. Labels are
instructions of the code but not of the program that runs: the loader drops
them and resolves a label to the number of executable instructions before it.
-/
import MiniGo.Types

namespace MiniGo.Bytecode

open List

/-- `preparedOperator`. -/
inductive Operator where
  | not | add | sub | mul | div | mod | bitAnd | bitOr | bitXor | bitClear
  | shiftLeft | shiftRight | complex | real | imag | equal | notEqual | less
  | greater | lessEqual | greaterEqual | and | or
deriving Repr, DecidableEq

/-- `ir.Operand`: a temporary, a constant or a private local. -/
inductive Operand where
  | slot (index : Nat)
  | constant (index : Nat)
  | localVar (index : Nat)
deriving Repr, DecidableEq

def Operand.isSlot : Operand → Bool
  | .slot _ => true
  | _ => false

/-- An entry of `RegisterFlow.Outputs`; bit 31 (`LocalOutput`) tells the two
apart. -/
inductive Output where
  | slot (index : Nat)
  | localVar (index : Nat)
deriving Repr, DecidableEq

/-- `ir.RegisterFlow`. -/
structure RegisterFlow where
  inputs : List Operand := []
  outputs : List Output := []
  release : List Nat := []
  releaseBefore : List Nat := []
deriving Repr, DecidableEq

/-- `ir.AddressPayload` and the captures of a closure: what they name. -/
inductive Place where
  | localVar (name : String)
  | upvalue (name : String)
  | global (name : String)
  | exported (modulePath name : String)
deriving Repr, DecidableEq

/-- `ir.AddressPathSegment`. -/
inductive PathSegment where
  | indirect
  | field (name : String)
  | index (localName : String)
deriving Repr, DecidableEq

/-- `ir.TypeCase`. -/
structure TypeCase where
  type : TypeRef
  label : String
  binding : String := ""
  original : Bool := false
deriving Repr, DecidableEq

/-- `ir.SelectCase`. -/
structure SelectCase where
  channel : String
  send : String := ""
  value : String := ""
  ok : String := ""
deriving Repr, DecidableEq

/-- `ir.CompareBranchPayload`. -/
structure Comparison where
  operator : Operator
  type : TypeRef
  label : String
  when : Bool
deriving Repr, DecidableEq

/-- `ir.UpdateCompareBranchPayload`. -/
structure UpdateComparison where
  update : Operator
  comparison : Operator
  type : TypeRef
  label : String
  when : Bool
deriving Repr, DecidableEq

/-- `ir.CallPayload`. -/
structure Call where
  modulePath : String := ""
  function : String := ""
  argCount : Nat
  resultCount : Nat := 0
deriving Repr, DecidableEq

/-- `ir.Opcode` with the payload of its descriptor. -/
inductive Operation where
  | typeDispatch (subject defaultLabel defaultLocal : String) (cases : List TypeCase)
  | select (index : String) (hasDefault : Bool) (cases : List SelectCase)
  | const (constant : String)
  | zero (type : TypeRef)
  | pop
  | unary (operator : Operator)
  | binary (operator : Operator)
  | loadLocal (name : String)
  | storeLocal (name : String) (rebind : Bool)
  | loadUpvalue (name : String)
  | storeUpvalue (name : String)
  | loadGlobal (name : String)
  | storeGlobal (name : String)
  | label (name : String)
  | jump (target : String)
  | jumpIf (target : String) (negate : Bool)
  | returnValues (resultCount : Nat)
  | panic
  | recover
  | deferPush (ownerDepth : Nat)
  | callValue (call : Call)
  | callDirect (call : Call)
  | tailCallDirect (call : Call)
  | callInterface (interfaceType : TypeRef) (method : String) (argCount resultCount : Nat)
  | makeClosure (modulePath function : String) (captures : List Place)
  | makeSequence (type : TypeRef) (elementCount : Nat)
  | makeMap (type : TypeRef) (entryCount : Nat) (hasCapacity : Bool)
  | makeStruct (type : TypeRef) (fields : List String)
  | makeSlice (type : TypeRef) (hasCapacity : Bool)
  | makeWaitable (type : TypeRef)
  | loadIndex
  | loadIndexOK
  | stringRuneAt
  | stringNextRuneIndex
  | slice (count : Nat)
  | len
  | cap
  | append (count : Nat) (expand : Bool)
  | delete
  | clear
  | copy
  | mapKeys
  | mapIterInit (iterator : String)
  | mapIterNext (iterator : String)
  | mapIterClose (iterator : String)
  | loadField (field : String)
  | storeIndex
  | storeField (field : String)
  | typeAssert (type : TypeRef)
  | typeAssertOK (type : TypeRef)
  | convert (type : TypeRef)
  | addressOf (base : Place) (path : List PathSegment)
  | loadIndirect
  | storeIndirect
  | waitableSend
  | waitableRecv
  | waitableRecvOK
  | waitableCanRecv
  | waitableTryRecv
  | waitableTrySend
  | waitableCanSend
  | waitableClose
  | initModule (modulePath : String)
  | loadExport (modulePath name : String)
  | spawn (call : Call)
  | callFFI (argCount resultCount : Nat)
  | callIntrinsic (id : String) (argCount resultCount : Nat)
  | compareBranch (comparison : Comparison)
  | getPath (type : TypeRef) (fields : List Nat)
  | indexConvert (type : TypeRef)
  | lenCompareBranch (comparison : Comparison)
  | minMax (type : TypeRef) (max : Bool) (argCount : Nat)
  | updateCompareBranch (comparison : UpdateComparison)
deriving Repr, DecidableEq

def Operation.isLabel : Operation → Bool
  | .label _ => true
  | _ => false

/-- The labels to which an operation may pass control. -/
def Operation.targets : Operation → List String
  | .jump target | .jumpIf target _ => [target]
  | .compareBranch comparison | .lenCompareBranch comparison =>
    [comparison.label]
  | .updateCompareBranch comparison => [comparison.label]
  | .typeDispatch _ defaultLabel _ cases =>
    defaultLabel :: cases.map (·.label)
  | _ => []

/-- `ir.MicroInstruction`; `operands` is an index into the flow table. -/
structure MicroInstruction where
  operation : Operation
  mode : Nat := 0
  operands : Nat
  cost : Nat := 0
deriving Repr, DecidableEq

/-- `MicroInstruction.LogicalCost`. -/
def MicroInstruction.logicalCost (instruction : MicroInstruction) : Nat :=
  if instruction.cost = 0 then 1 else instruction.cost

/-- `ir.MicroCode`; `types` are those of the temporaries. -/
structure MicroCode where
  types : List TypeRef := []
  instructions : List MicroInstruction := []
  operands : List RegisterFlow := []
deriving Repr, DecidableEq

/-- The register flow of an instruction. -/
def MicroCode.flow (code : MicroCode) (instruction : MicroInstruction) :
    RegisterFlow :=
  code.operands[instruction.operands]?.getD {}

def MicroCode.operations (code : MicroCode) : List Operation :=
  code.instructions.map (·.operation)

section Layout

/-- What an operation adds to the program counter of the code that runs. -/
def Operation.weight (operation : Operation) : Nat :=
  if operation.isLabel then 0 else 1

/-- The number of executable operations. -/
def executableCount (operations : List Operation) : Nat :=
  (operations.map (·.weight)).sum

/-- The `executionPCs` of `instructionLayout`. -/
def executionPC (operations : List Operation) (pc : Nat) : Nat :=
  executableCount (operations.take pc)

/-- A loop that fills a map from labels to positions; a later definition of a
label replaces an earlier one. -/
def findLabel (weight : Operation → Nat) (name : String) :
    List Operation → Nat → Option Nat
  | [], _ => none
  | operation :: rest, pc =>
    (findLabel weight name rest (pc + weight operation)).or
      (if operation = .label name then some pc else none)

/-- The `labels` map of the compiler's passes. -/
def labelPosition (operations : List Operation) (name : String) :
    Option Nat :=
  findLabel (fun _ => 1) name operations 0

/-- The `labels` of `instructionLayout`. -/
def labelPC (operations : List Operation) (name : String) :
    Option Nat :=
  findLabel (·.weight) name operations 0

/-- The instruction that runs at a program counter. -/
def MicroCode.executable? (code : MicroCode) (pc : Nat) :
    Option MicroInstruction :=
  (code.instructions.filter (!·.operation.isLabel))[pc]?

@[simp] theorem executableCount_nil : executableCount [] = 0 := rfl

@[simp] theorem executableCount_cons (op : Operation) (rest : List Operation) :
    executableCount (op :: rest) = op.weight + executableCount rest := by
  simp [executableCount]

@[simp] theorem executableCount_append (left right : List Operation) :
    executableCount (left ++ right) = executableCount left + executableCount right := by
  simp [executableCount]

theorem findLabel_append (weight : Operation → Nat) (name : String)
    (left right : List Operation) (pc : Nat) :
    findLabel weight name (left ++ right) pc =
      (findLabel weight name right (pc + (left.map weight).sum)).or
        (findLabel weight name left pc) := by
  induction left generalizing pc with
  | nil => simp [findLabel]
  | cons head tail ih =>
    simp only [cons_append, findLabel, ih, map_cons, sum_cons]
    rw [Option.or_assoc, Nat.add_assoc]

variable {name : String} {operations : List Operation} {position : Nat}

variable {instruction : MicroInstruction} {weight : Operation → Nat} {code : MicroCode}

theorem findLabel_eq_none (pc : Nat) (hnone : ∀ op ∈ operations, op ≠ .label name) :
    findLabel weight name operations pc = none := by
  induction operations generalizing pc with
  | nil => rfl
  | cons head tail ih =>
    simp [findLabel, ih _ fun op hmem =>
      hnone op (mem_cons_of_mem head hmem),
      hnone head mem_cons_self]

/-- The label is defined at the position. -/
def Defines (operations : List Operation) (name : String)
    (position : Nat) : Prop :=
  operations[position]? = some (.label name)

/-- No two positions define the same label. -/
def LabelsUnique (operations : List Operation) : Prop :=
  ∀ name first second, Defines operations name first →
    Defines operations name second → first = second

theorem labelsUnique_iff_pairwise :
    LabelsUnique operations ↔ operations.Pairwise fun first second =>
      ∀ name, first = .label name → second ≠ .label name := by
  rw [pairwise_iff_getElem]
  constructor
  · intro huq first second hfs hsn hlt name hl ho
    have := huq name first second (by simp [Defines, hfs, hl]) (by simp [Defines, hsn, ho])
    omega
  · intro hpw name first second hfs hsn
    obtain ⟨hf, hfs⟩ := List.getElem?_eq_some_iff.mp hfs
    obtain ⟨hs, hsn⟩ := List.getElem?_eq_some_iff.mp hsn
    rcases Nat.lt_trichotomy first second with hlt | heq | hlt
    · exact absurd hsn (hpw _ _ hf hs hlt name hfs)
    · exact heq
    · exact absurd hfs (hpw _ _ hs hf hlt name hsn)

/-- A label that is defined once is found where it is. -/
theorem findLabel_of_unique (weight : Operation → Nat) (huq : LabelsUnique operations)
    (hd : Defines operations name position) :
    findLabel weight name operations 0 = some ((operations.take position).map weight).sum := by
  obtain ⟨hlen, hg⟩ := List.getElem?_eq_some_iff.mp hd
  have hs : operations = operations.take position ++
      .label name :: operations.drop (position + 1) := by
    rw [← hg, List.getElem_cons_drop, List.take_append_drop]
  have ha : findLabel weight name (operations.drop (position + 1))
      (((operations.take position).map weight).sum + weight (.label name)) =
        none := by
    refine findLabel_eq_none _ fun other hmem ho => ?_
    obtain ⟨off, hof⟩ := getElem?_of_mem hmem
    rw [getElem?_drop] at hof
    have := huq name position (position + 1 + off) hd (by rw [Defines, hof, ho])
    omega
  conv_lhs => rw [hs, findLabel_append]
  simp only [findLabel, Nat.zero_add, ha, ↓reduceIte, Option.none_or, Option.some_or]

theorem labelPosition_of_unique (huq : LabelsUnique operations)
    (hd : Defines operations name position) : labelPosition operations name = some position := by
  have hlen := (List.getElem?_eq_some_iff.mp hd).1
  rw [labelPosition, findLabel_of_unique _ huq hd]
  simp [Nat.min_eq_left (Nat.le_of_lt hlen)]

theorem labelPC_of_unique (huq : LabelsUnique operations) (hd : Defines operations name position) :
    labelPC operations name = some (executionPC operations position) :=
  findLabel_of_unique _ huq hd

/-- A label that is found is defined. -/
theorem findLabel_eq_some {pc found : Nat} (hf : findLabel weight name operations pc = some found) :
    ∃ position, Defines operations name position ∧
      found = pc + ((operations.take position).map weight).sum := by
  induction operations generalizing pc with
  | nil => cases hf
  | cons head tail ih =>
    simp only [findLabel, Option.or_eq_some_iff] at hf
    rcases hf with hf | ⟨-, hf⟩
    · obtain ⟨position, hd, rfl⟩ := ih hf
      exact ⟨position + 1, by simpa [Defines] using hd,
        by simp [Nat.add_assoc]⟩
    · split at hf
      · next hl =>
        cases hf
        exact ⟨0, by simp [Defines, hl], by simp⟩
      · cases hf

theorem executionPC_succ {op : Operation} (hpos : operations[position]? = some op) :
    executionPC operations (position + 1) = executionPC operations position + op.weight := by
  obtain ⟨hlen, rfl⟩ := List.getElem?_eq_some_iff.mp hpos
  rw [executionPC, List.take_succ_eq_append_getElem hlen, executableCount_append, executionPC]
  simp

theorem executionPC_mono (operations : List Operation) {first second : Nat} (hle : first ≤ second) :
    executionPC operations first ≤ executionPC operations second := by
  obtain ⟨off, rfl⟩ := Nat.exists_eq_add_of_le hle
  rw [executionPC, executionPC, take_add, executableCount_append]
  omega

/-- A program counter is the number of executable instructions before it. -/
theorem MicroCode.executionPC_eq_length (code : MicroCode) (position : Nat) :
    executionPC code.operations position =
      ((code.instructions.take position).filter (!·.operation.isLabel)).length := by
  have hc : ∀ instrs : List MicroInstruction, executableCount (instrs.map (·.operation)) =
        (instrs.filter (!·.operation.isLabel)).length := by
    intro instrs
    induction instrs with
    | nil => rfl
    | cons head tail ih =>
      cases hh : head.operation.isLabel <;>
        simp [ih, hh, Operation.weight, Nat.add_comm]
  rw [executionPC, MicroCode.operations, ← map_take, hc]

/-- An executable instruction is the one that runs at its program counter. -/
theorem MicroCode.executable?_executionPC (hpos : code.instructions[position]? = some instruction)
    (he : instruction.operation.isLabel = false) :
    code.executable? (executionPC code.operations position) = some instruction := by
  obtain ⟨hlen, hg⟩ := List.getElem?_eq_some_iff.mp hpos
  have hs : code.instructions = code.instructions.take position ++
      instruction :: code.instructions.drop (position + 1) := by
    rw [← hg, List.getElem_cons_drop, List.take_append_drop]
  have hf : code.instructions.filter (!·.operation.isLabel) =
      (code.instructions.take position).filter (!·.operation.isLabel) ++
        instruction :: (code.instructions.drop (position + 1)).filter (!·.operation.isLabel) := by
    conv_lhs => rw [hs]
    simp [he]
  rw [MicroCode.executable?, MicroCode.executionPC_eq_length, hf,
    getElem?_append_right (Nat.le_refl _)]
  simp

/-- What runs at a program counter stands at a position. -/
theorem MicroCode.position_of_executable? {pc : Nat}
    (hpc : code.executable? pc = some instruction) :
    ∃ position, code.instructions[position]? = some instruction ∧
      instruction.operation.isLabel = false ∧
      executionPC code.operations position = pc := by
  have hli : ∀ (instrs : List MicroInstruction) (pc : Nat),
      (instrs.filter (!·.operation.isLabel))[pc]? = some instruction →
      ∃ position, instrs[position]? = some instruction ∧ instruction.operation.isLabel = false ∧
        ((instrs.take position).filter (!·.operation.isLabel)).length = pc := by
    intro instrs
    induction instrs with
    | nil => intro pc hpc; cases hpc
    | cons head tail ih =>
      intro pc hpc
      cases hh : head.operation.isLabel with
      | true =>
        rw [filter_cons_of_neg (by simp [hh])] at hpc
        obtain ⟨position, hpos, hl, hlen⟩ := ih pc hpc
        exact ⟨position + 1, hpos, hl, by simpa [hh] using hlen⟩
      | false =>
        rw [filter_cons_of_pos (by simp [hh])] at hpc
        cases pc with
        | zero =>
          cases hpc
          exact ⟨0, rfl, hh, rfl⟩
        | succ pc =>
          obtain ⟨position, hpos, hl, hlen⟩ := ih pc hpc
          exact ⟨position + 1, hpos, hl, by simpa [hh] using hlen⟩
  obtain ⟨position, hpos, hl, hlen⟩ := hli code.instructions pc hpc
  exact ⟨position, hpos, hl, by rw [code.executionPC_eq_length, hlen]⟩

end Layout

end MiniGo.Bytecode
