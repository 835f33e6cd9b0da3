/-
Compile-time constants (`compiler/constant/value.go`, `compiler/constant/complex.go`).

The text of a number is represented by the rational number that it is the canonical
text of, so the decimal routines are the operations on integers and rationals; they
refuse a text that is not an integer. Type names have no blanks around them, which the
constructors remove.
-/
import Mathlib

namespace MiniGo.Constant

/-- The kinds of exact values, with what they hold. -/
inductive Content where
  | invalid
  | boolean (value : Bool)
  | number (value : ℚ)
  | string (value : String)
  | complex (re im : ℚ)
  | null
deriving DecidableEq

/-- `constant.Value`. -/
structure Value where
  content : Content
  type : String
  untyped : Bool
deriving DecidableEq

inductive Operator where
  | and | or
  | equal | notEqual | less | lessEqual | greater | greaterEqual
  | add | subtract | multiply | divide | remainder
  | bitAnd | bitOr | bitXor | bitClear
  | shiftLeft | shiftRight
deriving Repr, DecidableEq

/-- `integerType`. -/
def integerType (type : String) : Bool :=
  type ∈ ["Int", "Int8", "Int16", "Int32", "Int64", "Uint", "Uint8", "Uint16", "Uint32", "Uint64",
    "Uintptr", "Byte", "Rune"]

namespace Content

/-- `Value.Rational`. -/
def rational : Content → Option ℚ
  | .number value => some value
  | _ => none

/-- What the decimal routines read from a text. -/
def integer : Content → Option Int
  | .number value => if value.den = 1 then some value.num else none
  | _ => none

/-- The parts of a number that is to be treated as complex. -/
def parts : Content → Option (ℚ × ℚ)
  | .number value => some (value, 0)
  | .complex re im => some (re, im)
  | _ => none

def isComplex : Content → Bool
  | .complex .. => true
  | _ => false

end Content

def booleanResult (value : Bool) : Value := ⟨.boolean value, "Bool", true⟩

section Operations

/-- The operators of `AddRational` and its siblings. -/
def rationalOperation (operator : Operator) (left right : ℚ) : Option ℚ :=
  match operator with
  | .add => some (left + right)
  | .subtract => some (left - right)
  | .multiply => some (left * right)
  | .divide => if right = 0 then none else some (left / right)
  | _ => none

/-- `complexBinary`, as far as it is about the parts. -/
def complexOperation (operator : Operator) (left right : ℚ × ℚ) : Option (ℚ × ℚ) :=
  let (a, b) := left
  let (c, d) := right
  match operator with
  | .add => some (a + c, b + d)
  | .subtract => some (a - c, b - d)
  | .multiply => some (a * c - b * d, a * d + b * c)
  | .divide =>
    let denominator := c * c + d * d
    if denominator = 0 then none
    else some ((a * c + b * d) / denominator, (b * c - a * d) / denominator)
  | _ => none

/-- `shiftCount`. -/
def shiftCount (count : Int) : Option Nat :=
  if count < 0 ∨ 4096 < count then none else some count.toNat

/-- The decimal routines. -/
def integerOperation (operator : Operator) (left right : Int) : Option Int :=
  match operator with
  | .add => some (left + right)
  | .subtract => some (left - right)
  | .multiply => some (left * right)
  | .divide => if right = 0 then none else some (left.tdiv right)
  | .remainder => if right = 0 then none else some (left.tmod right)
  | .bitAnd => some (Int.land left right)
  | .bitOr => some (Int.lor left right)
  | .bitXor => some (Int.xor left right)
  | .bitClear => some (Int.ldiff left right)
  | .shiftLeft => (shiftCount right).map fun shift => left * 2 ^ shift
  | .shiftRight => (shiftCount right).map fun shift =>
    let quotient := left.tdiv (2 ^ shift)
    if left < 0 ∧ left.tmod (2 ^ shift) ≠ 0 then quotient - 1 else quotient
  | _ => none

/-- Whether a comparison holds of two values in the given order. -/
def comparisonHolds (operator : Operator) (order : Ordering) : Option Bool :=
  match operator with
  | .equal => some (order == .eq)
  | .notEqual => some (order != .eq)
  | .less => some (order == .lt)
  | .lessEqual => some (order != .gt)
  | .greater => some (order == .gt)
  | .greaterEqual => some (order != .lt)
  | _ => none

def isComparison (operator : Operator) : Bool := (comparisonHolds operator .eq).isSome

def isArithmetic (operator : Operator) : Bool :=
  operator ∈ [Operator.add, .subtract, .multiply, .divide]

def isShift (operator : Operator) : Bool := operator ∈ [Operator.shiftLeft, .shiftRight]

end Operations

section Binary

variable (operator : Operator) (left right : Value)

/-- The type that an untyped left operand takes from a typed right one. -/
def joinedType : String := if left.untyped && !right.untyped then right.type else left.type

def bothUntyped : Bool := left.untyped && right.untyped

def booleanBinary (first second : Bool) : Option Value :=
  match operator with
  | .and => some ⟨.boolean (first && second), joinedType left right, bothUntyped left right⟩
  | .or => some ⟨.boolean (first || second), joinedType left right, bothUntyped left right⟩
  | .equal => some (booleanResult (first == second))
  | .notEqual => some (booleanResult (first != second))
  | _ => none

/-- `complexBinary`. -/
def complexBinary : Option Value := do
  let first ← left.content.parts
  let second ← right.content.parts
  let (re, im) ← complexOperation operator first second
  let type :=
    if !left.content.isComplex || left.untyped && !right.untyped then right.type else left.type
  pure ⟨.complex re im, type, bothUntyped left right⟩

/-- The comparisons of `Binary`. -/
def compareValues : Option Value :=
  if left.content.isComplex || right.content.isComplex then do
    let first ← left.content.parts
    let second ← right.content.parts
    if operator = .equal ∨ operator = .notEqual then
      let holds ← comparisonHolds operator (if first = second then .eq else .gt)
      pure (booleanResult holds)
    else none
  else match left.content, right.content with
    | .string first, .string second =>
      (comparisonHolds operator (compare first second)).map booleanResult
    | _, _ => do
        let first ← left.content.rational
        let second ← right.content.rational
        let holds ← comparisonHolds operator
          (if first < second then .lt else if first = second then .eq else .gt)
        pure (booleanResult holds)

/-- The exact quotient, sum and so on, for operands that are not both of an integer type. -/
def rationalBinary : Option Value := do
  let first ← left.content.rational
  let second ← right.content.rational
  let result ← rationalOperation operator first second
  let type := if integerType left.type && !integerType right.type then right.type else left.type
  pure ⟨.number result, type, bothUntyped left right⟩

/-- The decimal routines, with the type of the result. -/
def integerBinary : Option Value := do
  let first ← left.content.integer
  let second ← right.content.integer
  let result ← integerOperation operator first second
  if isShift operator then pure ⟨.number result, left.type, left.untyped⟩
  else pure ⟨.number result, joinedType left right, bothUntyped left right⟩

/-- `Binary`. -/
def binary : Option Value :=
  match left.content, right.content with
  | .boolean first, .boolean second => booleanBinary operator left right first second
  | _, _ =>
    if isComparison operator then compareValues operator left right
    else if left.content.isComplex || right.content.isComplex then
      complexBinary operator left right
    else match operator, left.content, right.content with
      | .add, .string first, .string second =>
        some ⟨.string (first ++ second), joinedType left right, bothUntyped left right⟩
      | _, _, _ =>
        if isArithmetic operator && (!integerType left.type || !integerType right.type) then
          rationalBinary operator left right
        else integerBinary operator left right

end Binary

end MiniGo.Constant
