/-
The typed high-level representation that the optimiser rewrites and the
emitter lowers (`compiler/hir/model.go`).

`hir.Expression` is one record whose kind says which of its fields are in use.
Here a kind with evaluation rules of its own is a constructor, and every kind
that only evaluates its children from left to right and then performs one
operation is `apply`; the operands stand in the order in which the emitter
evaluates them. Source points and scopes, which only feed debug symbols, are
left out.
-/
import MiniGo.Types

namespace MiniGo.Hir

/-- `constant.Value`. -/
structure ConstantValue where
  text : String
  type : String := ""
  untyped : Bool := false
  isString : Bool := false
  real : String := ""
  imag : String := ""
  canonicalNumber : String := ""
  numeratorEnd : Int := 0
deriving Repr, DecidableEq

inductive UnaryOperator where
  | not | neg | plus | xor | real | imag
deriving Repr, DecidableEq

inductive BinaryOperator where
  | add | sub | mul | div | mod | bitAnd | bitOr | bitXor | bitClear
  | shiftLeft | shiftRight | equal | notEqual | less | lessEqual | greater
  | greaterEqual | logicalAnd | logicalOr
deriving Repr, DecidableEq

/-- `hir.CaptureTarget` and `hir.StoreTarget` name a variable of one of these
kinds; `discard` only occurs as a store target. -/
inductive Variable where
  | localVar (name : String)
  | upvalue (name : String)
  | global (name : String)
deriving Repr, DecidableEq

inductive StoreTarget where
  | localVar (name : String) (rebind : Bool)
  | upvalue (name : String)
  | global (name : String)
  | discard
deriving Repr, DecidableEq

/-- `hir.AddressSegment`; an index segment reads its index from a local. -/
inductive AddressSegment where
  | field (name : String)
  | index (name : String)
  | indirect
deriving Repr, DecidableEq

inductive AddressBase where
  | exported (modulePath name : String)
  | variable (target : Variable)
deriving Repr, DecidableEq

/-- The expression kinds that evaluate their operands and then act once, with
the fields that say how. -/
inductive Operation where
  | values
  | minMax (max : Bool)
  | callDirect (modulePath function : String)
  | callFFI
  | callIntrinsic (id : String)
  | callValue
  | callInterface (method : String)
  | function (modulePath function : String) (captures : List Variable)
  | loadExport (modulePath name : String)
  | sequence
  | map (entryCount : Nat) (hasCapacity : Bool)
  | struct (fields : List String)
  | makeSlice
  | makeChan
  | loadIndex
  | loadIndexOK
  | stringRuneAt
  | stringNextRuneIndex
  | slice (hasMax : Bool)
  | len
  | cap
  | append (ellipsis : Bool)
  | delete
  | clear
  | copy
  | mapKeys
  | mapIterNext (iterator : String)
  | loadField (field : String)
  | typeAssert
  | typeAssertOK
  | convert
  | addressOf (base : AddressBase) (path : List AddressSegment)
  | loadIndirect
  | chanRecv
  | chanRecvOK
  | chanCanRecv
  | chanTryRecv
  | chanTrySend
  | chanCanSend
  | chanClose
  | recover
deriving Repr, DecidableEq

/-- `hir.Expression`. -/
inductive Expression where
  | literal (type : TypeRef) (untyped : Bool) (constantID : String) (value : Option ConstantValue)
  | const (type : TypeRef) (untyped : Bool) (constantID : String) (value : Option ConstantValue)
  | zero (type : TypeRef)
  | localVar (type : TypeRef) (untyped : Bool) (name : String)
  | upvalue (type : TypeRef) (name : String)
  | global (type : TypeRef) (name : String)
  | letIn (name : String) (bind body : Expression)
  | letResults (names : List String) (bind body : Expression)
  | unary (type : TypeRef) (operator : UnaryOperator) (operand : Expression)
  | binary (type : TypeRef) (operator : BinaryOperator) (left right : Expression)
  | apply (operation : Operation) (type : TypeRef) (resultCount : Nat)
      (resultTypes : List TypeRef) (operands : List Expression)
deriving Repr

/-- Induction on expressions, with one hypothesis for all operands of an
operation. -/
@[elab_as_elim, induction_eliminator]
theorem Expression.induction {motive : Expression → Prop}
    (literal : ∀ type untyped constantID val, motive (.literal type untyped constantID val))
    (const : ∀ type untyped constantID val, motive (.const type untyped constantID val))
    (zero : ∀ type, motive (.zero type))
    (localVar : ∀ type untyped name, motive (.localVar type untyped name))
    (upvalue : ∀ type name, motive (.upvalue type name))
    (global : ∀ type name, motive (.global type name))
    (letIn : ∀ name bound body, motive bound → motive body → motive (.letIn name bound body))
    (letResults : ∀ names bound body, motive bound → motive body →
      motive (.letResults names bound body))
    (unary : ∀ type oper opd, motive opd → motive (.unary type oper opd))
    (binary : ∀ type oper left right, motive left → motive right →
      motive (.binary type oper left right))
    (apply : ∀ op type resultCount resultTypes opds, (∀ opd ∈ opds, motive opd) →
        motive (.apply op type resultCount resultTypes opds))
    (expression : Expression) : motive expression :=
  @Expression.rec motive (fun opds => ∀ opd ∈ opds, motive opd)
    literal const zero localVar upvalue global letIn letResults unary binary
    apply (by simp) (by simp_all) expression

mutual

/-- `expressionResultCount`. -/
def Expression.count : Expression → Nat
  | .letIn _ _ body | .letResults _ _ body => body.count
  | .apply operation _ resultCount _ operands =>
    match operation with
    | .values => totalCount operands
    | .mapIterNext _ => 3
    | .callDirect .. | .callFFI | .callIntrinsic _ | .callValue
    | .callInterface _ => resultCount
    | .chanRecvOK | .chanTryRecv | .loadIndexOK | .typeAssertOK => 2
    | .delete | .clear | .chanClose => 0
    | _ => 1
  | _ => 1

/-- `totalExpressionResults`. -/
def totalCount : List Expression → Nat
  | [] => 0
  | expression :: rest => expression.count + totalCount rest

end

/-- `hir.SelectCase`: the locals that hold the operands and receive the
results; an empty name is an absent one. -/
structure SelectCase where
  channel : String
  send : String := ""
  value : String := ""
  ok : String := ""
deriving Repr, DecidableEq

/-- `hir.TypeCase`. -/
structure TypeCase where
  type : TypeRef
  label : String
  binding : String := ""
  original : Bool := false
deriving Repr, DecidableEq

/-- `hir.Statement`, one constructor for each kind. -/
inductive Statement where
  | expr (expr : Expression)
  | mapIterInit (iterator : String) (expr : Expression)
  | mapIterClose (iterator : String)
  | returnValues (results : List Expression)
  | tailCallDirect (call : Expression)
  | storeLocal (name : String) (rebind : Bool) (expr : Expression)
  | storeUpvalue (name : String) (expr : Expression)
  | storeGlobal (name : String) (expr : Expression)
  | storeResults (targets : List StoreTarget) (expr : Expression)
  | storeValues (targets : List StoreTarget) (values : List Expression)
  | storeIndex (object index expr : Expression)
  | storeField (object : Expression) (field : String) (expr : Expression)
  | storeIndirect (object expr : Expression)
  | chanSend (object expr : Expression)
  | select (index : String) (cases : List SelectCase) (hasDefault : Bool)
  | spawn (expr : Expression) (args : List Expression)
  | initModule (modulePath : String)
  | panic (expr : Expression)
  | defer (expr : Expression) (ownerDepth : Nat)
  | label (name : String)
  | jump (target : String)
  | jumpIf (condition : Expression) (target : String) (negated : Bool)
  | typeDispatch (subject : String) (cases : List TypeCase) (defaultLabel defaultLocal : String)
deriving Repr

/-- `statementExpressions`: the expressions a statement evaluates. -/
def Statement.expressions : Statement → List Expression
  | .expr expression | .mapIterInit _ expression | .tailCallDirect expression
  | .storeLocal _ _ expression | .storeUpvalue _ expression
  | .storeGlobal _ expression | .storeResults _ expression | .panic expression
  | .defer expression _ | .jumpIf expression _ _ => [expression]
  | .returnValues expressions | .storeValues _ expressions => expressions
  | .storeIndex object index expression => [object, index, expression]
  | .storeField object _ expression | .storeIndirect object expression
  | .chanSend object expression => [object, expression]
  | .spawn expression args => expression :: args
  | .mapIterClose _ | .select .. | .initModule _ | .label _ | .jump _
  | .typeDispatch .. => []

/-- The statement with every expression it evaluates rewritten. -/
def Statement.mapExpressions (rewrite : Expression → Expression) :
    Statement → Statement
  | .expr expression => .expr (rewrite expression)
  | .mapIterInit iterator expression => .mapIterInit iterator (rewrite expression)
  | .returnValues results => .returnValues (results.map rewrite)
  | .tailCallDirect call => .tailCallDirect (rewrite call)
  | .storeLocal name rebind expression =>
    .storeLocal name rebind (rewrite expression)
  | .storeUpvalue name expression => .storeUpvalue name (rewrite expression)
  | .storeGlobal name expression => .storeGlobal name (rewrite expression)
  | .storeResults targets expression => .storeResults targets (rewrite expression)
  | .storeValues targets values => .storeValues targets (values.map rewrite)
  | .storeIndex object index expression =>
    .storeIndex (rewrite object) (rewrite index) (rewrite expression)
  | .storeField object field expression =>
    .storeField (rewrite object) field (rewrite expression)
  | .storeIndirect object expression =>
    .storeIndirect (rewrite object) (rewrite expression)
  | .chanSend object expression => .chanSend (rewrite object) (rewrite expression)
  | .spawn expression args => .spawn (rewrite expression) (args.map rewrite)
  | .panic expression => .panic (rewrite expression)
  | .defer expression ownerDepth => .defer (rewrite expression) ownerDepth
  | .jumpIf condition target negated => .jumpIf (rewrite condition) target negated
  | other => other

/-- `hir.Local`. -/
structure Local where
  id : String
  type : TypeRef
deriving Repr, DecidableEq

/-- `hir.Function`. -/
structure Function where
  id : String
  signature : FunctionSignature
  locals : List Local := []
  resultLocals : List String := []
  upvalues : List Local := []
  body : List Statement := []
deriving Repr

/-- The type a function declares for one of its locals; the emitter keeps the
last declaration of an identifier. -/
def Function.localType (function : Function) (name : String) : TypeRef :=
  match function.locals.reverse.find? (·.id == name) with
  | some declared => declared.type
  | none => {}

end MiniGo.Hir
