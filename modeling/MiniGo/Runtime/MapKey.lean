/-
Keys of guest maps (`runtime/composite_map_wire.go`) and the equality that they
should agree with (`runtime/equality.go`).

Equality walks over two values; a key of an array or a struct is the JSON text of
a tree that `mapKeyWire` builds from the value. Strings are lists of bytes. A
type is a tree that stops at pointers, channels and interfaces, through which
alone a type can mention itself.
-/
import MiniGo.Lib.Json
import MiniGo.Runtime.Equality

namespace MiniGo.Runtime.MapKey

open Lib

section Types

/-- `vmType`, resolved. -/
inductive RuntimeType where
  | any
  | interface (text : String)
  | bool
  | string
  | signed (width : Nat)
  | unsigned (width : Nat)
  | float (width : Nat)
  | complex (width : Nat)
  | function (text : String)
  | slice (text : String)
  | map (text : String)
  | pointer (text : String)
  | waitable (text : String)
  | array (length : Nat) (elem : RuntimeType)
  | struct (fields : List (String × RuntimeType))
  | named (name : String) (underlying : RuntimeType)

/-- The type queries of a module, with what this model leaves open. -/
structure ModuleInstance where
  /-- `runtimeTypeIdentity`. -/
  typeIdentity : RuntimeType → List Nat
  /-- `vmType.String`. -/
  typeText : RuntimeType → String
  /-- `float64` of an integer, in bits. -/
  float64 : Int → UInt64
  /-- The types of the program. -/
  declared : RuntimeType → Prop
  identity_injective : ∀ first second, declared first → declared second →
    typeIdentity first = typeIdentity second → first = second
  identity_valid : ∀ type, declared type → validText (typeIdentity type)
  identity_ne_nil : ∀ type, declared type → typeIdentity type ≠ ascii "nil-interface"

/-- `underlyingRuntimeType`. -/
def RuntimeType.underlying : RuntimeType → RuntimeType
  | .named _ type => type.underlying
  | type => type

/-- `Ref.Kind == types.Primitive`. -/
def RuntimeType.isPrimitive : RuntimeType → Bool
  | .bool | .string | .signed _ | .unsigned _ | .float _ | .complex _ => true
  | _ => false

def RuntimeType.isInterfaceType (type : RuntimeType) : Bool :=
  match type.underlying with
  | .any | .interface _ => true
  | _ => false

/-- `predeclaredNumericComparable`. -/
def RuntimeType.predeclaredNumericComparable : RuntimeType → Bool
  | .signed _ | .unsigned _ | .float _ | .complex _ => true
  | _ => false

def RuntimeType.isReferenceComparableType (type : RuntimeType) : Bool :=
  match type.underlying with
  | .pointer _ | .waitable _ => true
  | _ => false

def RuntimeType.isNilOnlyComparableType (type : RuntimeType) : Bool :=
  match type.underlying with
  | .function _ | .slice _ | .map _ => true
  | _ => false

def isBlank (name : String) : Bool := name == "" || name == "_"

/-- `comparableStructFields` of a struct type. -/
def comparableFields (fields : List (String × RuntimeType)) : List (String × RuntimeType) :=
  fields.filter fun field => !isBlank field.1

variable (m : ModuleInstance)

def sameRuntimeType (first second : RuntimeType) : Bool :=
  m.typeIdentity first == m.typeIdentity second

mutual

/-- `isComparableRuntimeType` of the underlying type, with itself in `seen`. -/
def comparableUnder : RuntimeType → List (List Nat) → Bool
  | .named _ type, seen => comparableUnder type seen
  | .function _, _ | .slice _, _ | .map _, _ => false
  | .array _ elem, seen =>
    seen.contains (m.typeIdentity elem) || comparableUnder elem (m.typeIdentity elem :: seen)
  | .struct fields, seen => comparableAll fields seen
  | _, _ => true

def comparableAll : List (String × RuntimeType) → List (List Nat) → Bool
  | [], _ => true
  | (name, type) :: rest, seen =>
    (isBlank name || seen.contains (m.typeIdentity type) ||
      comparableUnder type (m.typeIdentity type :: seen)) && comparableAll rest seen

end

def isComparableRuntimeType (type : RuntimeType) : Bool :=
  comparableUnder m type [m.typeIdentity type]

end Types

section Values

/-- What a pointer or a channel refers to: a place of the managed heap, something
with an identity of its own, or a Go object at an address. -/
inductive Reference where
  | nil
  | storage (owner slot generation offset : Nat)
  | identity (text : List Nat)
  | pointer (address : Nat)
  | waitable (address : Nat)
  | mutex (address : Nat)
deriving Repr, DecidableEq

/-- `vmValue`; a value of an interface type is nil or a box, a struct has the
fields that `comparableStructFields` lists. -/
inductive GuestValue where
  | bool (type : RuntimeType) (value : Bool)
  | string (type : RuntimeType) (bytes : List Nat)
  | signed (type : RuntimeType) (value : Int)
  | unsigned (type : RuntimeType) (value : Nat)
  | float (type : RuntimeType) (bits : UInt64)
  | complex (type : RuntimeType) (realPart imaginaryPart : UInt64)
  | reference (type : RuntimeType) (target : Reference)
  /-- A slice, a map or a function. -/
  | nilable (type : RuntimeType) (isNil : Bool)
  | array (type : RuntimeType) (items : List GuestValue)
  | struct (type : RuntimeType) (fields : List (String × GuestValue))
  | nilInterface (type : RuntimeType)
  | interface (type : RuntimeType) (inner : GuestValue)

def GuestValue.type : GuestValue → RuntimeType
  | .bool type _ | .string type _ | .signed type _ | .unsigned type _ | .float type _
  | .complex type _ _ | .reference type _ | .nilable type _ | .array type _
  | .struct type _ | .nilInterface type | .interface type _ => type

/-- `isDynamicComparableWrapper`. -/
def isDynamicComparableWrapper : GuestValue → Bool
  | .nilInterface _ | .interface .. => true
  | _ => false

def nestingLimit : Fault :=
  .error "dynamic value nesting limit exceeded while converting to Any"

/-- `unwrapDynamicInterfaceValue`, with the rounds that are left; `none` is a nil
interface. -/
def unwrapDynamic : Nat → GuestValue → Except Fault (Option GuestValue)
  | 0, _ => .error nestingLimit
  | _ + 1, .nilInterface _ => .ok none
  | limit + 1, .interface _ inner => unwrapDynamic limit inner
  | _ + 1, value => .ok (some value)

/-- `unwrapComparableDynamicValue`. -/
def unwrapComparableDynamicValue (value : GuestValue) : Except Fault (Option GuestValue) :=
  unwrapDynamic 64 value

end Values

section Equality

def isNaN (bits : UInt64) : Bool :=
  bits &&& 0x7FFFFFFFFFFFFFFF > 0x7FF0000000000000

def isZero (bits : UInt64) : Bool := bits == 0 || bits == 0x8000000000000000

/-- `==` of two floats. -/
def floatEqual (left right : UInt64) : Bool :=
  !isNaN left && !isNaN right && (left == right || isZero left && isZero right)

/-- The numbers among the values. -/
inductive Numeric where
  | signed (value : Int)
  | unsigned (value : Nat)
  | float (bits : UInt64)
  | complex (realPart imaginaryPart : UInt64)

def GuestValue.numeric? : GuestValue → Option Numeric
  | .signed _ value => some (.signed value)
  | .unsigned _ value => some (.unsigned value)
  | .float _ bits => some (.float bits)
  | .complex _ realPart imaginaryPart => some (.complex realPart imaginaryPart)
  | _ => none

variable (m : ModuleInstance)

/-- `numericAsFloat64`. -/
def Numeric.asFloat : Numeric → UInt64
  | .signed value => m.float64 value
  | .unsigned value => m.float64 value
  | .float bits => bits
  | .complex realPart _ => realPart

/-- `numericAsComplex128`. -/
def Numeric.asComplex : Numeric → UInt64 × UInt64
  | .complex realPart imaginaryPart => (realPart, imaginaryPart)
  | number => (number.asFloat m, 0)

/-- `equalNumericValues`; two integers are compared as such, whatever their signs. -/
def equalNumericValues : Numeric → Numeric → Bool
  | .signed left, .signed right => left == right
  | .unsigned left, .unsigned right => left == right
  | .signed left, .unsigned right => left == right
  | .unsigned left, .signed right => left == right
  | left, right =>
    match left, right with
    | .complex .., _ | _, .complex .. =>
      floatEqual (left.asComplex m).1 (right.asComplex m).1 &&
        floatEqual (left.asComplex m).2 (right.asComplex m).2
    | _, _ => floatEqual (left.asFloat m) (right.asFloat m)

/-- What `referenceComparableIdentity` compares. -/
inductive ReferenceIdentity where
  | text (bytes : List Nat)
  | storage (owner slot generation offset : Nat)
  | object (kind : String) (address : Nat)
deriving Repr, DecidableEq

def referenceComparableIdentity : Reference → ReferenceIdentity
  | .nil => .text (ascii "nil")
  | .storage owner slot generation offset => .storage owner slot generation offset
  | .identity text => .text text
  | .pointer address => .object "pointer" address
  | .waitable address => .object "waitable" address
  | .mutex address => .object "mutex" address

def cannotCompare (left right : RuntimeType) : Except Fault Bool :=
  .error (.error ("cannot compare " ++ m.typeText left ++ " and " ++ m.typeText right))

def equalBools : GuestValue → GuestValue → Except Fault Bool
  | .bool _ left, .bool _ right => .ok (left == right)
  | _, _ => .error (.error "invalid Bool operands")

def equalStrings : GuestValue → GuestValue → Except Fault Bool
  | .string _ left, .string _ right => .ok (left == right)
  | _, _ => .error (.error "invalid String operands")

/-- `requireComparableOperandTypes`. -/
def comparableOperandTypes (left right : RuntimeType) : Bool :=
  sameRuntimeType m left right ||
    left.predeclaredNumericComparable && right.predeclaredNumericComparable ||
    left.isInterfaceType || right.isInterfaceType

/-- Two values of primitive types; `none` when their types say nothing. -/
def equalPrimitives (left right : GuestValue) : Option (Except Fault Bool) :=
  match left.numeric?, right.numeric? with
  | some left, some right => some (.ok (equalNumericValues m left right))
  | _, _ =>
    if sameRuntimeType m left.type right.type then
      match left.type with
      | .bool => some (equalBools left right)
      | .string => some (equalStrings left right)
      | _ => none
    else
      some (cannotCompare m left.type right.type)

def quoted (name : String) : String := "\"" ++ name ++ "\""

def wrapFault (context : String) : Fault → Fault
  | .guestPanic message => .guestPanic (context ++ ": " ++ message)
  | .error message => .error (context ++ ": " ++ message)

/-- The loop over the elements of two arrays. -/
def equalItems (compare : GuestValue → GuestValue → Except Fault Bool) :
    Nat → List GuestValue → List GuestValue → Except Fault Bool
  | index, left :: lefts, right :: rights =>
    match compare left right with
    | .error fault => .error (wrapFault ("array element " ++ toString index) fault)
    | .ok false => .ok false
    | .ok true => equalItems compare (index + 1) lefts rights
  | _, _, _ => .ok true

/-- The loop over the fields of two structs of one type. -/
def equalFields (compare : GuestValue → GuestValue → Except Fault Bool) :
    List (String × GuestValue) → List (String × GuestValue) → Except Fault Bool
  | (name, left) :: lefts, (_, right) :: rights =>
    match compare left right with
    | .error fault => .error (wrapFault ("struct field " ++ quoted name) fault)
    | .ok false => .ok false
    | .ok true => equalFields compare lefts rights
  | (name, _) :: _, [] => .error (.error ("struct field " ++ quoted name ++ ": missing field"))
  | [], _ => .ok true

def equalNumbers (left right : GuestValue) : Except Fault Bool :=
  match left.numeric?, right.numeric? with
  | some left, some right => .ok (equalNumericValues m left right)
  | _, _ => .error (.error "invalid numeric operands")

/-- The values that `equalConcreteValues` compares by the shape of their type. -/
def equalShaped (compare : GuestValue → GuestValue → Except Fault Bool)
    (left right : GuestValue) : Except Fault Bool :=
  match left.type.underlying with
  | .bool => equalBools left right
  | .string => equalStrings left right
  | .signed _ | .unsigned _ | .float _ | .complex _ => equalNumbers m left right
  | .array .. =>
    match left, right with
    | .array _ lefts, .array _ rights =>
      if lefts.length = rights.length then equalItems compare 0 lefts rights
      else .ok false
    | _, _ => .error (.error ("invalid array operands for " ++ m.typeText left.type))
  | .struct _ =>
    match left, right with
    | .struct _ lefts, .struct _ rights => equalFields compare lefts rights
    | _, _ => .error (.error ("invalid struct operands for " ++ m.typeText left.type))
  -- the payloads, but no value of another type is compared here
  | _ => .ok false

/-- `equalConcreteValues`, with the comparison of the parts. -/
def equalConcreteValues (compare : GuestValue → GuestValue → Except Fault Bool)
    (left right : GuestValue) : Except Fault Bool :=
  let primitive :=
    if left.type.isPrimitive && right.type.isPrimitive then equalPrimitives m left right
    else none
  match primitive with
  | some result => result
  | none =>
    if !comparableOperandTypes m left.type right.type then
      cannotCompare m left.type right.type
    else if left.type.predeclaredNumericComparable && right.type.predeclaredNumericComparable &&
        left.numeric?.isSome && right.numeric?.isSome then
      equalNumbers m left right
    else if !sameRuntimeType m left.type right.type then
      cannotCompare m left.type right.type
    else if left.type.isNilOnlyComparableType then
      match left, right with
      | .nilable _ leftNil, .nilable _ rightNil =>
        if !leftNil && !rightNil then
          .error (.error (m.typeText left.type ++ " is not comparable except to nil"))
        else
          .ok (leftNil == rightNil)
      | _, _ => .error (.error "invalid operands")
    else if left.type.isReferenceComparableType then
      match left, right with
      | .reference _ leftTarget, .reference _ rightTarget =>
        .ok (referenceComparableIdentity leftTarget == referenceComparableIdentity rightTarget)
      | _, _ => .error (.error "invalid operands")
    else if !isComparableRuntimeType m left.type then
      .error (.error (m.typeText left.type ++ " is not comparable"))
    else
      equalShaped m compare left right

/-- `equalValuesSeen`; the depth is what `remaining` lacks of 66, and every level
of nesting adds two to it. -/
def equalValuesSeen : Nat → GuestValue → GuestValue → Except Fault Bool
  | remaining + 2, left, right =>
    if isDynamicComparableWrapper left || isDynamicComparableWrapper right then do
      let leftValue ← unwrapComparableDynamicValue left
      let rightValue ← unwrapComparableDynamicValue right
      match leftValue, rightValue with
      | some leftValue, some rightValue =>
        if !sameRuntimeType m leftValue.type rightValue.type then .ok false
        else if !isComparableRuntimeType m leftValue.type then
          .error (.guestPanic (m.typeText leftValue.type ++ " is not comparable"))
        else equalConcreteValues m (equalValuesSeen remaining) leftValue rightValue
      | none, none => .ok true
      | _, _ => .ok false
    else
      equalConcreteValues m (equalValuesSeen remaining) left right
  | _, _, _ => .error (.error "comparison nesting limit exceeded")

def equalValues (left right : GuestValue) : Except Fault Bool :=
  equalValuesSeen m 66 left right

end Equality

section Keys

/-- `mapKeyWire`: a type and one of the optional fields. -/
inductive Wire where
  | nilInterface
  | bool (type : List Nat) (value : Bool)
  | string (type : List Nat) (bytes : List Nat)
  | int64 (type : List Nat) (value : Int)
  | uint64 (type : List Nat) (value : Nat)
  | float (type : List Nat) (bits : UInt64)
  | complex (type : List Nat) (realPart imaginaryPart : UInt64)
  | ref (type : List Nat) (identity : List Nat)
  | array (type : List Nat) (items : List Wire)
  | struct (type : List Nat) (fields : List (String × Wire))

mutual

def Wire.nonReflexive : Wire → Bool
  | .float _ bits => isNaN bits
  | .complex _ realPart imaginaryPart => isNaN realPart || isNaN imaginaryPart
  | .array _ items => anyNonReflexive items
  | .struct _ fields => anyFieldNonReflexive fields
  | _ => false

def anyNonReflexive : List Wire → Bool
  | [] => false
  | wire :: rest => wire.nonReflexive || anyNonReflexive rest

def anyFieldNonReflexive : List (String × Wire) → Bool
  | [] => false
  | (_, wire) :: rest => wire.nonReflexive || anyFieldNonReflexive rest

end

/-- `strconv.FormatUint(bits, 16)`. -/
def hexText (number : Nat) : List Nat := (Nat.toDigits 16 number).map Char.toNat

def utf8 (text : String) : List Nat := text.toUTF8.toList.map UInt8.toNat

/-- A JSON object with a type and at most one more field. -/
def wireObject (type : List Nat) (payload : Option (String × Json)) : Json :=
  .object ((runes (ascii "type"), .string (runes type)) ::
    (payload.map fun (name, value) => (runes (ascii name), value)).toList)

mutual

/-- The JSON value of a wire; an empty array is left out like a nil pointer. -/
def Wire.json : Wire → Json
  | .nilInterface => wireObject (ascii "nil-interface") none
  | .bool type value => wireObject type (some ("bool", .bool value))
  | .string type bytes => wireObject type (some ("string", .string (runes bytes)))
  | .int64 type value => wireObject type (some ("int64", .number value))
  | .uint64 type value => wireObject type (some ("uint64", .number value))
  | .float type bits =>
    wireObject type (some ("float", .string (runes (hexText bits.toNat))))
  | .complex type realPart imaginaryPart =>
    wireObject type (some ("complex", .string (runes
      (hexText realPart.toNat ++ ascii ":" ++ hexText imaginaryPart.toNat))))
  | .ref type identity => wireObject type (some ("ref", .string (runes identity)))
  | .array type [] => wireObject type none
  | .array type (item :: rest) =>
    wireObject type (some ("array", .array (item.json :: jsonItems rest)))
  | .struct type [] => wireObject type none
  | .struct type ((name, value) :: rest) =>
    wireObject type (some ("struct", .array
      (.object [(runes (ascii "name"), .string (runes (utf8 name))),
        (runes (ascii "value"), value.json)] :: jsonFields rest)))

def jsonItems : List Wire → List Json
  | [] => []
  | item :: rest => item.json :: jsonItems rest

def jsonFields : List (String × Wire) → List Json
  | [] => []
  | (name, value) :: rest =>
    .object [(runes (ascii "name"), .string (runes (utf8 name))),
      (runes (ascii "value"), value.json)] :: jsonFields rest

end

/-- `fmt.Sprintf("%p", …)`. -/
def addressText (address : Nat) : List Nat := ascii "0x" ++ hexText address

/-- `referenceComparableMapKeyIdentity`. -/
def referenceComparableMapKeyIdentity : Reference → List Nat
  | .nil => ascii "nil"
  | .storage owner slot generation offset =>
    ascii "pointer:" ++ addressText owner ++ ascii ":" ++ decimal slot ++ ascii ":" ++
      decimal generation ++ ascii ":" ++ decimal offset
  | .identity text => ascii "pointer:" ++ text
  | .pointer address => ascii "pointer:" ++ addressText address
  | .waitable address => ascii "waitable:" ++ addressText address
  | .mutex address => ascii "mutex:" ++ addressText address

variable (m : ModuleInstance)

/-- Zero has one representation in a key. -/
def normalZero (bits : UInt64) : UInt64 := if isZero bits then 0 else bits

/-- The first check of `mapKeyWire`. -/
def requireKey (type : RuntimeType) (wire : Except Fault Wire) : Except Fault Wire :=
  if isComparableRuntimeType m type then wire
  else .error (.guestPanic ("unsupported map key type " ++ m.typeText type))

mutual

/-- `mapKeyWire`, with the boxes that may still be opened and the struct types
around the value. -/
def mapKeyWireFrom : GuestValue → Nat → List (List Nat) → Except Fault Wire
  | _, 0, _ => .error nestingLimit
  | .nilInterface _, _ + 1, _ => .ok .nilInterface
  | .interface _ inner, limit + 1, seen => mapKeyWireFrom inner limit seen
  | .bool type value, _ + 1, _ => requireKey m type (.ok (.bool (m.typeIdentity type) value))
  | .string type bytes, _ + 1, _ =>
    requireKey m type (.ok (.string (m.typeIdentity type) bytes))
  | .signed type value, _ + 1, _ =>
    requireKey m type (.ok (.int64 (m.typeIdentity type) value))
  | .unsigned type value, _ + 1, _ =>
    requireKey m type (.ok (.uint64 (m.typeIdentity type) value))
  | .float type bits, _ + 1, _ =>
    requireKey m type (.ok (.float (m.typeIdentity type) (normalZero bits)))
  | .complex type realPart imaginaryPart, _ + 1, _ =>
    requireKey m type (.ok (.complex (m.typeIdentity type) (normalZero realPart)
      (normalZero imaginaryPart)))
  | .reference type target, _ + 1, _ =>
    requireKey m type (.ok (.ref (m.typeIdentity type) (referenceComparableMapKeyIdentity target)))
  | .nilable type _, _ + 1, _ =>
    requireKey m type (.error (.error ("unsupported map key type " ++ m.typeText type)))
  | .array type items, _ + 1, seen =>
    requireKey m type ((mapKeyItems items 0 seen).map (.array (m.typeIdentity type)))
  | .struct type fields, _ + 1, seen =>
    requireKey m type <|
      if seen.contains (m.typeIdentity type) then
        .error (.error ("recursive map key type " ++ m.typeText type))
      else
        (mapKeyFields fields (m.typeIdentity type :: seen)).map (.struct (m.typeIdentity type))

def mapKeyItems : List GuestValue → Nat → List (List Nat) → Except Fault (List Wire)
  | [], _, _ => .ok []
  | item :: rest, index, seen =>
    match mapKeyWireFrom item 64 seen with
    | .error fault => .error (wrapFault ("array key element " ++ toString index) fault)
    | .ok wire => (mapKeyItems rest (index + 1) seen).map (wire :: ·)

def mapKeyFields : List (String × GuestValue) → List (List Nat) →
    Except Fault (List (String × Wire))
  | [], _ => .ok []
  | (name, value) :: rest, seen =>
    match mapKeyWireFrom value 64 seen with
    | .error fault => .error (wrapFault ("struct key field " ++ quoted name) fault)
    | .ok wire => (mapKeyFields rest seen).map ((name, wire) :: ·)

end

/-- `mapKeyWire`. -/
def mapKeyWire (value : GuestValue) (seen : List (List Nat)) : Except Fault Wire :=
  mapKeyWireFrom m value 64 seen

inductive KeyKind where
  | generic | bool | string | int | uint
deriving Repr, DecidableEq

/-- `vmMapKey`. -/
structure VmMapKey where
  kind : KeyKind
  typeIdentity : List Nat := []
  bool : Bool := false
  int64 : Int := 0
  uint64 : Nat := 0
  text : List Nat := []
  nonReflexive : Bool := false
deriving Repr, DecidableEq

/-- `mapReferenceKeyWire`. -/
def referenceKeyJson (type identity : List Nat) : Json :=
  .object [(runes (ascii "type"), .string (runes type)),
    (runes (ascii "identity"), .string (runes identity))]

/-- `mapKey` of a value that is not a box. -/
def concreteKey (value : GuestValue) : Except Fault VmMapKey :=
  match value with
  | .bool type value =>
    .ok { kind := .bool, typeIdentity := m.typeIdentity type, bool := value }
  | .string type bytes =>
    .ok { kind := .string, typeIdentity := m.typeIdentity type, text := bytes }
  | .signed type value =>
    .ok { kind := .int, typeIdentity := m.typeIdentity type, int64 := value }
  | .unsigned type value =>
    .ok { kind := .uint, typeIdentity := m.typeIdentity type, uint64 := value }
  | .reference type target =>
    .ok {
      kind := .generic
      text := ascii "r:" ++ (referenceKeyJson (m.typeIdentity type)
        (referenceComparableMapKeyIdentity target)).marshal }
  | value =>
    (mapKeyWire m value []).map fun wire =>
      { kind := .generic, text := ascii "v:" ++ wire.json.marshal,
        nonReflexive := wire.nonReflexive }

/-- `mapKey`. -/
def mapKey (value : GuestValue) : Except Fault VmMapKey :=
  match unwrapComparableDynamicValue value with
  | .error fault => .error fault
  | .ok none => .ok { kind := .generic, text := ascii "nil-interface" }
  | .ok (some value) => concreteKey m value

end Keys

end MiniGo.Runtime.MapKey
