/-
Equality of guest values (`runtime/equality.go`).

A value of type `Any` or of an interface type is a box around a dynamic value
or is nil. Comparing two boxes unwraps them and, when the dynamic types agree,
panics unless that type is comparable. The comparison of two unboxed values
and the type queries it rests on are fields of a `TypeSystem`.
-/
import MiniGo.Hir.Semantics

namespace MiniGo.Runtime

open Hir

/-- An error of an instruction; only a guest panic can be recovered. -/
inductive Fault where
  | guestPanic (message : String)
  | error (message : String)
deriving Repr, DecidableEq

/-- `vmValue`, with the payload of an unboxed value left open. -/
inductive Value where
  | plain (type : TypeRef) (payload : String)
  | nilBox (type : TypeRef)
  | box (type : TypeRef) (inner : Value)
deriving Repr, DecidableEq

def Value.type : Value → TypeRef
  | .plain type _ | .nilBox type | .box type _ => type

/-- The type queries of a loaded module, and the comparison of values that are
not boxed. -/
structure TypeSystem where
  isInterfaceType : TypeRef → Bool
  sameRuntimeType : TypeRef → TypeRef → Bool
  isComparableRuntimeType : TypeRef → Except Fault Bool
  equalConcreteValues : Value → Value → Nat → Except Fault Bool
  text : TypeRef → String

variable (types : TypeSystem)

/-- A value of such a type is a box. -/
def isDynamicType (type : TypeRef) : Bool :=
  type.kind == .any || types.isInterfaceType type

/-- `isDynamicComparableWrapper`. -/
def isDynamicComparableWrapper (value : Value) : Bool :=
  isDynamicType types value.type

/-- `unwrapDynamicInterfaceValue`, with the number of boxes it still opens;
`none` is a nil interface. -/
def unwrapDynamicInterfaceValue : Nat → Value → Except Fault (Option Value)
  | 0, _ => .error (.error "dynamic value nesting limit exceeded while converting to Any")
  | limit + 1, value =>
    if isDynamicComparableWrapper types value then
      match value with
      | .nilBox _ => .ok none
      | .box _ inner => unwrapDynamicInterfaceValue limit inner
      | .plain .. => .error (.error "invalid interface value")
    else
      .ok (some value)

/-- `unwrapComparableDynamicValue`. -/
def unwrapComparableDynamicValue (value : Value) : Except Fault (Option Value) :=
  if isDynamicComparableWrapper types value then
    unwrapDynamicInterfaceValue types 64 value
  else
    .ok (some value)

/-- `equalValuesSeen`. -/
def equalValuesSeen (left right : Value) (depth : Nat) : Except Fault Bool :=
  if 64 < depth then
    .error (.error "comparison nesting limit exceeded")
  else if isDynamicComparableWrapper types left || isDynamicComparableWrapper types right then do
    let leftValue ← unwrapComparableDynamicValue types left
    let rightValue ← unwrapComparableDynamicValue types right
    match leftValue, rightValue with
    | some leftValue, some rightValue =>
      if types.sameRuntimeType leftValue.type rightValue.type then do
        if ← types.isComparableRuntimeType leftValue.type then
          types.equalConcreteValues leftValue rightValue (depth + 1)
        else
          .error (.guestPanic (types.text leftValue.type ++ " is not comparable"))
      else
        .ok false
    | none, none => .ok true
    | _, _ => .ok false
  else
    types.equalConcreteValues left right (depth + 1)

/-- `equalValues`. -/
def equalValues (left right : Value) : Except Fault Bool :=
  equalValuesSeen types left right 0

def boolValue (value : Bool) : Value :=
  .plain (.builtin .bool) (if value then "true" else "false")

/-- The equality operators of `evalCompare`; the other operators are `operate`. -/
def evalCompare (operate : BinaryOperator → Value → Value → Except Fault Value)
    (operator : BinaryOperator) (left right : Value) : Except Fault Value :=
  match operator with
  | .equal => boolValue <$> equalValues types left right
  | .notEqual => (boolValue ∘ not) <$> equalValues types left right
  | _ => operate operator left right

/-- The conversion of an assignment to a variable of the type. -/
def boxValue (type : TypeRef) (value : Value) : Value :=
  if isDynamicType types type && !isDynamicComparableWrapper types value then
    .box type value
  else
    value

/-- A machine whose values are only compared and tested: enough of the runtime
to evaluate pure expressions over boxes. -/
def comparingMachine : Interp where
  Value := Value
  Failure := Fault
  World := String → Value
  literal _ type _ value := .plain type ((value.map (·.text)).getD "")
  constant constantID := .plain {} constantID
  zero type := .plain type ""
  coerce type value := .ok (boxValue types type value)
  truth value := .ok (value = boolValue true)
  ofBool := boolValue
  unary _ _ _ := .error (.error "unsupported unary operator")
  binary operator _ left right :=
    evalCompare types (fun _ _ _ => .error (.error "unsupported operator")) operator left right
  upvalue world name := world name
  global world name := world name
  loadCell world name := world name
  storeCell world name _ value := Function.update world name value
  perform _ _ _ _ world := (.ok [], world)
  act _ _ world := (.ok (), world)
  raise _ _ := .guestPanic "panic"
  select _ _ world := (.error (.error "deadlock"), world)
  matchType _ value type := if value.type = type then some value else none
  arity := .error "operand count"

/-- Types in which the named ones are the interfaces and slices, maps and
functions are the uncomparable ones. -/
def flatTypes : TypeSystem where
  isInterfaceType type := type.kind = .named
  sameRuntimeType left right := left = right
  isComparableRuntimeType type :=
    .ok (type.kind ≠ .slice ∧ type.kind ≠ .map ∧ type.kind ≠ .function)
  equalConcreteValues left right _ :=
    if left.type = right.type then .ok (left = right)
    else .error (.error ("cannot compare " ++ left.type.text ++ " and " ++ right.type.text))
  text type := type.text

end MiniGo.Runtime
