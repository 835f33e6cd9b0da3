/-
The canonical type references of the compiler (`compiler/types/model.go`).
A reference is a flat value: a kind, and the primitive, the declaration key or
the node that the kind needs. Two references denote the same type exactly when
they are equal, as `TypeRef.Equal` has it.
-/
import Mathlib

namespace MiniGo

/-- `types.Kind`. -/
inductive TypeKind where
  | invalid | void | any | primitive | named | slice | array | map | pointer
  | waitable | function | tuple | struct | interface | typeParameter | instanceOf
deriving Repr, DecidableEq

/-- `types.PrimitiveKind`. -/
inductive PrimitiveKind where
  | invalid | bool | string | int | int8 | int16 | int32 | int64 | uint | uint8
  | uint16 | uint32 | uint64 | uintptr | float32 | float64 | complex64
  | complex128 | error | function
deriving Repr, DecidableEq

/-- `types.TypeKey`: the module and the declaration of a named type. -/
structure TypeKey where
  modulePath : String := ""
  declID : String := ""
deriving Repr, DecidableEq

/-- `types.TypeRef`. -/
structure TypeRef where
  kind : TypeKind := .invalid
  primitive : PrimitiveKind := .invalid
  named : TypeKey := {}
  node : String := ""
deriving Repr, DecidableEq

/-- `TypeRef.Valid`. -/
def TypeRef.valid (ref : TypeRef) : Bool :=
  match ref.kind with
  | .void | .any =>
    ref.primitive == .invalid && ref.named.modulePath == "" &&
      ref.named.declID == "" && ref.node == ""
  | .primitive =>
    ref.primitive != .invalid && ref.named.modulePath == "" &&
      ref.named.declID == "" && ref.node == ""
  | .named =>
    (ref.named.modulePath != "" && ref.named.declID != "") || ref.node != ""
  | _ =>
    ref.node != "" && ref.primitive == .invalid &&
      ref.named.modulePath == "" && ref.named.declID == ""

/-- `types.Builtin`. -/
def TypeRef.builtin (kind : PrimitiveKind) : TypeRef :=
  if kind = .invalid then {} else { kind := .primitive, primitive := kind }

/-- `types.AnyType`. -/
def TypeRef.anyType : TypeRef := { kind := .any }

/-- `PrimitiveName`. -/
def primitiveName : PrimitiveKind → String
  | .bool => "Bool"
  | .string => "String"
  | .int => "Int"
  | .int8 => "Int8"
  | .int16 => "Int16"
  | .int32 => "Int32"
  | .int64 => "Int64"
  | .uint => "Uint"
  | .uint8 => "Uint8"
  | .uint16 => "Uint16"
  | .uint32 => "Uint32"
  | .uint64 => "Uint64"
  | .uintptr => "Uintptr"
  | .float32 => "Float32"
  | .float64 => "Float64"
  | .complex64 => "Complex64"
  | .complex128 => "Complex128"
  | .error => "Error"
  | .function => "Function"
  | .invalid => ""

/-- The text of a type in a message; a node stands for its own text. -/
def TypeRef.text (ref : TypeRef) : String :=
  match ref.kind with
  | .primitive => primitiveName ref.primitive
  | .any => "Any"
  | .named => ref.named.declID
  | _ => ref.node

/-- `vmScalarKind`, the kinds of numbers that fit in 64 bits. -/
inductive ScalarKind where
  | none | signed | unsigned | float
deriving Repr, DecidableEq

/-- The kind column of `runtimeNumericByPrimitive`, by which `IsIntegerType` and
`IsFloatType` go. -/
def primitiveScalarKind : PrimitiveKind → ScalarKind
  | .int | .int8 | .int16 | .int32 | .int64 => .signed
  | .uint | .uint8 | .uint16 | .uint32 | .uint64 | .uintptr => .unsigned
  | .float32 | .float64 => .float
  | _ => .none

/-- The bits column of `runtimeNumericByPrimitive`. -/
def primitiveBits : PrimitiveKind → Nat
  | .int8 | .uint8 => 8
  | .int16 | .uint16 => 16
  | .int32 | .uint32 | .float32 => 32
  | _ => 64

/-- The types of a module: `View(...).Primitive()`, by which `NumericInfo` goes;
`PrimitiveInvalid` for a type that is not a number. -/
structure NumericTypes where
  primitive : TypeRef → PrimitiveKind
  ofPrimitive : ∀ type, type.kind = .primitive → primitive type = type.primitive

def isInteger (kind : ScalarKind) : Bool :=
  kind = .signed ∨ kind = .unsigned

/-- `types.FunctionSignature`; a parameter is its type. -/
structure FunctionSignature where
  params : List TypeRef := []
  results : List TypeRef := []
  variadic : Bool := false
deriving Repr, DecidableEq

end MiniGo
