/-
RPC values and their encoding (`rpc/value.go`, `rpc/endpoint_value_codec.go`,
`rpc/limits.go`).

`Data` is what the field `Value.Data` may hold. Data of any other Go type is
rejected by `validateValues` before anything is encoded and has no constructor
here. `sort.Slice` is not stable: all that is known of it is that it rearranges a
slice into order by looking at comparisons, which `SliceSort` says.
-/
import MiniGo.Rpc.Wire

namespace MiniGo.Rpc

open List Bool

/-- `rpc.Limits`. -/
structure Limits where
  maxFrameBytes : Int64 := 0
  maxMessageBytes : Int64 := 0
  maxInFlightBytes : Int64 := 0
  maxBindings : Int64 := 0
  maxPendingCalls : Int64 := 0
  maxPendingResults : Int64 := 0
  maxPendingControls : Int64 := 0
  maxResources : Int64 := 0
  maxMethods : Int64 := 0
  maxValueDepth : Int64 := 0
  maxValueElements : Int64 := 0
deriving Repr, DecidableEq

/-- A limit of zero selects the protocol's default. -/
def orDefault (value default : Int64) : Int64 := if value = 0 then default else value

/-- `normalizeLimits`. -/
def normalizeLimits (limits : Limits) : Limits where
  maxFrameBytes := orDefault limits.maxFrameBytes 1048576
  maxMessageBytes := orDefault limits.maxMessageBytes 67108864
  maxInFlightBytes := orDefault limits.maxInFlightBytes 134217728
  maxBindings := orDefault limits.maxBindings 4096
  maxPendingCalls := orDefault limits.maxPendingCalls 65536
  maxPendingResults := orDefault limits.maxPendingResults 65536
  maxPendingControls := orDefault limits.maxPendingControls 4096
  maxResources := orDefault limits.maxResources 65536
  maxMethods := orDefault limits.maxMethods 4096
  maxValueDepth := orDefault limits.maxValueDepth 128
  maxValueElements := orDefault limits.maxValueElements 1000000

/-- `rpc.ResourceRef`. -/
structure ResourceRef where
  epoch : UInt64
  objectID : UInt64
  typeHash : Bytes
deriving Repr, DecidableEq

structure MapEntry (V : Type) where
  key : V
  value : V
deriving Repr, DecidableEq

structure Field (V : Type) where
  id : UInt32
  value : V
deriving Repr, DecidableEq

inductive Data (V : Type) where
  | nil
  | bool (value : Bool)
  | int (value : Int64)
  | uint (value : UInt64)
  | float (bits : UInt64)
  | complex (value : UInt64 × UInt64)
  | string (value : Bytes)
  | bytes (value : Bytes)
  | slice (items : List V)
  | map (entries : List (MapEntry V))
  | record (fields : List (Field V))
  | optional (value : V)
deriving Repr

/-- `rpc.Value`. -/
inductive Value where
  | mk (type : Bytes) (resource : Option ResourceRef) (data : Data Value)

def Value.type : Value → Bytes
  | .mk type _ _ => type

def Data.isNil {V : Type} : Data V → Bool
  | .nil => true
  | _ => false

/-- The values that a value is made of. -/
def Data.children {V : Type} : Data V → List V
  | .slice items => items
  | .map entries => entries.flatMap fun entry => [entry.key, entry.value]
  | .record fields => fields.map Field.value
  | .optional value => [value]
  | _ => []

def MapEntry.image {V W : Type} (f : V → W) (entry : MapEntry V) : MapEntry W :=
  ⟨f entry.key, f entry.value⟩

def Field.image {V W : Type} (f : V → W) (field : Field V) : Field W :=
  ⟨field.id, f field.value⟩

def Data.image {V W : Type} (f : V → W) : Data V → Data W
  | .nil => .nil
  | .bool value => .bool value
  | .int value => .int value
  | .uint value => .uint value
  | .float bits => .float bits
  | .complex value => .complex value
  | .string value => .string value
  | .bytes value => .bytes value
  | .slice items => .slice (items.map f)
  | .map entries => .map (entries.map (·.image f))
  | .record fields => .record (fields.map (·.image f))
  | .optional value => .optional (f value)

section Fold

variable {α : Type} (build : Bytes → Option ResourceRef → Data α → α)

mutual

/-- Rebuild a value from the results for its parts. -/
def Value.fold : Value → α
  | .mk type resource data => build type resource (foldData data)

def foldData : Data Value → Data α
  | .nil => .nil
  | .bool value => .bool value
  | .int value => .int value
  | .uint value => .uint value
  | .float bits => .float bits
  | .complex value => .complex value
  | .string value => .string value
  | .bytes value => .bytes value
  | .slice items => .slice (foldItems items)
  | .map entries => .map (foldEntries entries)
  | .record fields => .record (foldFields fields)
  | .optional value => .optional value.fold

def foldItems : List Value → List α
  | [] => []
  | item :: items => item.fold :: foldItems items

def foldEntries : List (MapEntry Value) → List (MapEntry α)
  | [] => []
  | entry :: entries => foldEntry entry :: foldEntries entries

def foldEntry : MapEntry Value → MapEntry α
  | ⟨key, value⟩ => ⟨key.fold, value.fold⟩

def foldFields : List (Field Value) → List (Field α)
  | [] => []
  | field :: fields => foldField field :: foldFields fields

def foldField : Field Value → Field α
  | ⟨id, value⟩ => ⟨id, value.fold⟩

end

theorem foldItems_eq (items : List Value) : foldItems build items = items.map
    (Value.fold build) := by
  induction items with
  | nil => rfl
  | cons item items ih => rw [foldItems, ih, map_cons]

theorem foldEntries_eq (entries : List (MapEntry Value)) :
    foldEntries build entries = entries.map (·.image (Value.fold build)) := by
  induction entries with
  | nil => rfl
  | cons entry entries ih =>
    rw [foldEntries, ih, map_cons]
    cases entry
    rfl

theorem foldFields_eq (fields : List (Field Value)) :
    foldFields build fields = fields.map (·.image (Value.fold build)) := by
  induction fields with
  | nil => rfl
  | cons field fields ih =>
    rw [foldFields, ih, map_cons]
    cases field
    rfl

theorem Value.fold_mk (type : Bytes) (res : Option ResourceRef) (data : Data Value) :
    (Value.mk type res data).fold build = build type res (data.image (Value.fold build)) := by
  rw [Value.fold]
  congr 1
  cases data <;>
    simp only [foldData, Data.image, foldItems_eq, foldEntries_eq, foldFields_eq]

end Fold

/-- A statement about values follows from the same about their parts. -/
theorem Value.induction {motive : Value → Prop}
    (step : ∀ type res data, (∀ child ∈ Data.children data, motive child) →
      motive (.mk type res data)) (value : Value) : motive value := by
  let size : Value → Nat := Value.fold fun _ _ data => 1 + data.children.sum
  have hs : ∀ type res data, ∀ child ∈ Data.children data,
      size child < size (.mk type res data) := by
    intro type res data child hc
    have hsi : size (.mk type res data) = 1 + (data.children.map size).sum := by
      change Value.fold _ _ = _
      rw [Value.fold_mk]
      congr 2
      cases data with
      | map entries =>
        simp only [Data.image, Data.children, map_flatMap, flatMap_map]
        rfl
      | record fields =>
        simp only [Data.image, Data.children, map_map]
        rfl
      | _ => rfl
    rw [hsi]
    have := single_le_sum (fun _ _ => Nat.zero_le _) _ (mem_map_of_mem (f := size) hc)
    omega
  induction hm : size value using Nat.strongRecOn generalizing value with
  | ind measure ih =>
    cases value with
    | mk type res data =>
      refine step type res data fun child hc => ?_
      exact ih (size child) (hm ▸ hs type res data child hc) child rfl

section Shapes

def text (literal : String) : Bytes := literal.toList.map fun char => .ofNat char.toNat

/-- The bytes of one character that `unicode.IsSpace` accepts. -/
def isSpace : Bytes → Bool
  | [a] => 0x09 ≤ a && a ≤ 0x0D || a == 0x20
  | [a, b] => a == 0xC2 && (b == 0x85 || b == 0xA0)
  | [a, b, c] =>
    a == 0xE1 && b == 0x9A && c == 0x80 ||
    a == 0xE2 && b == 0x80 && (0x80 ≤ c && c ≤ 0x8A || c == 0xA8 || c == 0xA9 || c == 0xAF) ||
    a == 0xE2 && b == 0x81 && c == 0x9F ||
    a == 0xE3 && b == 0x80 && c == 0x80
  | _ => false

def trimLeft : Nat → Bytes → Bytes
  | 0, text => text
  | count + 1, text =>
    match [1, 2, 3].find? fun size => isSpace (text.take size) with
    | none => text
    | some size => trimLeft count (text.drop size)

def trimRight : Nat → Bytes → Bytes
  | 0, text => text
  | count + 1, text =>
    match [1, 2, 3].find? fun size => isSpace (text.drop (text.length - size)) with
    | none => text
    | some size => trimRight count (text.take (text.length - size))

/-- `strings.TrimSpace`. -/
def trimSpace (text : Bytes) : Bytes :=
  trimRight text.length (trimLeft text.length text)

/-- The loop of `rpcMapTypes`: `before` is the key's part of the type, reversed. -/
def mapTypesFrom (depth : Nat) (before : Bytes) : Bytes → Option (Bytes × Bytes)
  | [] => none
  | byte :: rest =>
    if byte = 0x5B then mapTypesFrom (depth + 1) (byte :: before) rest
    else if byte = 0x5D then
      if depth = 1 then
        let key := trimSpace before.reverse
        let value := trimSpace rest
        if key ≠ [] ∧ value ≠ [] then some (key, value) else none
      else mapTypesFrom (depth - 1) (byte :: before) rest
    else mapTypesFrom depth (byte :: before) rest

/-- `rpcMapTypes`. -/
def rpcMapTypes (type : Bytes) : Option (Bytes × Bytes) := mapTypesFrom 1 [] (type.drop 4)

/-- The data of a scalar or declared type. -/
def scalarShape (type : Bytes) (data : Data Value) : Bool :=
  if type = text "bool" then data matches .bool _
  else if type = text "string" then data matches .string _
  else if type ∈ ["uint8", "uint16", "uint32", "uint64"].map text then data matches .uint _
  else if type ∈ ["int8", "int16", "int32", "int64"].map text then data matches .int _
  else if type ∈ ["float32", "float64"].map text then data matches .float _
  else if type ∈ ["complex64", "complex128"].map text then data matches .complex _
  else match data with
    | .record _ => true
    | .int value => type.contains 0x2E && -2147483648 ≤ value && value ≤ 2147483647
    | _ => false

/-- `validateValueShape`. -/
def validateValueShape (type : Bytes) (data : Data Value) : Bool :=
  let type := trimSpace type
  match data with
  | .nil => true
  | data =>
    if (text "optional[").isPrefixOf type && (text "]").isSuffixOf type then
      match data with
      | .optional value => trimSpace value.type == trimSpace ((type.drop 9).dropLast)
      | _ => false
    else if (text "[]").isPrefixOf type then
      if type = text "[]uint8" then data matches .bytes _
      else match data with
        | .slice items => items.all fun item => trimSpace item.type == trimSpace (type.drop 2)
        | _ => false
    else if (text "map[").isPrefixOf type then
      match rpcMapTypes type, data with
      | some (keyType, valueType), .map entries =>
        entries.all fun entry =>
          trimSpace entry.key.type == keyType && trimSpace entry.value.type == valueType
      | _, _ => false
    else scalarShape type data

end Shapes

section Validation

inductive ValueError where
  /-- `rpc value has no type`. -/
  | noType
  /-- `rpc value type is not valid UTF-8`. -/
  | typeNotUTF8
  /-- `rpc value limit exceeded: depth`. -/
  | depthLimit
  /-- `rpc value limit exceeded: size`. -/
  | sizeLimit
  /-- `rpc resource must be a top-level value`. -/
  | nestedResource
  /-- `invalid rpc resource value`. -/
  | invalidResource
  /-- `rpc value has data`: its data is not of its type. -/
  | shape
  /-- `rpc string value is not valid UTF-8`. -/
  | stringNotUTF8
  /-- `rpc struct field has no ID`. -/
  | fieldWithoutID
  /-- `duplicate rpc struct field`. -/
  | duplicateField
deriving Repr, DecidableEq

/-- The bytes and elements counted so far. -/
structure Count where
  bytes : Nat := 0
  elements : Nat := 0
deriving Repr, DecidableEq

def Count.within (limits : Limits) (count : Count) : Except ValueError Count :=
  if limits.maxMessageBytes.toInt < count.bytes ∨
      limits.maxValueElements.toInt < count.elements then .error .sizeLimit
  else .ok count

/-- `validateResourceRef`. -/
def validateResourceRef (ref : ResourceRef) : Bool :=
  ref.epoch ≠ 0 && ref.objectID ≠ 0 && ref.typeHash.length == 64

def validateFields (validate : Value → Count → Except ValueError Count) (seen : List UInt32) :
    List (Field Value) → Count → Except ValueError Count
  | [], count => .ok count
  | field :: fields, count =>
    if field.id = 0 then .error .fieldWithoutID
    else if field.id ∈ seen then .error .duplicateField
    else do
      let count ← validate field.value count
      validateFields validate (field.id :: seen) fields count

/-- The checks of a value's data, given the check of the values in it. -/
def validateParts (limits : Limits) (validate : Value → Count → Except ValueError Count)
    (data : Data Value) (count : Count) : Except ValueError Count :=
  match data with
  | .string value =>
    if !validUTF8 value then .error .stringNotUTF8
    else Count.within limits { count with bytes := count.bytes + value.length }
  | .bytes value =>
    Count.within limits { count with bytes := count.bytes + value.length }
  | .slice items => do
      let count ← items.foldlM (fun count item => validate item count) count
      Count.within limits count
  | .map entries => do
      let count ← entries.foldlM (fun count entry => do
        let count ← validate entry.key count
        validate entry.value count) count
      Count.within limits count
  | .record fields => do
      let count ← validateFields validate [] fields count
      Count.within limits count
  | .optional value => validate value count
  | _ => .ok count

/-- The function `validate` inside `validateValues`. `levels` is how many levels of
values may still begin here; `top` says that this is the first. -/
def validateValue (limits : Limits) :
    Nat → Bool → Value → Count → Except ValueError Count
  | levels, top, .mk type resource data, count =>
    if type = [] then .error .noType
    else if !validUTF8 type then .error .typeNotUTF8
    else match levels with
    | 0 => .error .depthLimit
    | levels + 1 => do
      let count ← Count.within limits ⟨count.bytes + type.length, count.elements + 1⟩
      match resource with
      | some ref =>
        if !top then .error .nestedResource
        else if data.isNil && validateResourceRef ref &&
            trimSpace type == ref.typeHash then .ok count
        else .error .invalidResource
      | none =>
        if !validateValueShape type data then .error .shape
        else validateParts limits (validateValue limits levels false) data count

/-- The levels of values that a limit on the depth allows. -/
def Limits.levels (limits : Limits) : Nat := (limits.maxValueDepth.toInt + 1).toNat

/-- `validateValues`. -/
def validateValues (limits : Limits) (values : List Value) : Except ValueError Count :=
  values.foldlM (fun count value => validateValue limits limits.levels true value count) {}

end Validation

section Codec

/-- `bytes.Compare` is negative. -/
def bytesLess : Bytes → Bytes → Bool
  | _, [] => false
  | [], _ :: _ => true
  | a :: first, b :: second => a < b || a == b && bytesLess first second

theorem bytesLess_asymm : ∀ {first second : Bytes}, bytesLess first second = true →
    bytesLess second first = false
  | [], [], h => by cases h
  | [], _ :: _, _ => rfl
  | _ :: _, [], h => by cases h
  | a :: first, b :: second, h => by
    simp only [bytesLess, or_eq_true, and_eq_true, decide_eq_true_eq, beq_iff_eq] at h
    simp only [bytesLess, or_eq_false_iff, and_eq_false_iff, decide_eq_false_iff_not,
      beq_eq_false_iff_ne]
    rcases h with h | ⟨rfl, h⟩
    · exact ⟨UInt8.lt_asymm h, .inl (UInt8.ne_of_lt h).symm⟩
    · exact ⟨UInt8.lt_irrefl a, .inr (bytesLess_asymm h)⟩

theorem bytesLess_cotrans : ∀ {first second : Bytes} (mid : Bytes),
    bytesLess first second = true → bytesLess first mid = true ∨ bytesLess mid second = true
  | [], _ :: _, [], _ => .inr rfl
  | [], _ :: _, _ :: _, _ => .inl rfl
  | _ :: _, [], _, h => by cases h
  | [], [], _, h => by cases h
  | _ :: _, _ :: _, [], _ => .inr rfl
  | a :: first, b :: second, c :: mid, h => by
    simp only [bytesLess, or_eq_true, and_eq_true, decide_eq_true_eq,
      beq_iff_eq, UInt8.lt_iff_toNat_lt, ← UInt8.toNat_inj] at h ⊢
    by_cases hf : a.toNat < c.toNat
    · exact .inl (.inl hf)
    by_cases hs : c.toNat < b.toNat
    · exact .inr (.inl hs)
    rcases h with h | ⟨hab, h⟩
    · omega
    · rcases bytesLess_cotrans mid h with h | h
      · exact .inl (.inr ⟨by omega, h⟩)
      · exact .inr (.inr ⟨by omega, h⟩)

theorem bytesLess_total : ∀ {first second : Bytes}, bytesLess first second = false →
    bytesLess second first = false → first = second
  | [], [], _, _ => rfl
  | [], _ :: _, h, _ => by cases h
  | _ :: _, [], _, h => by cases h
  | a :: first, b :: second, h, h' => by
    simp only [bytesLess, or_eq_false_iff, and_eq_false_iff, decide_eq_false_iff_not,
      beq_eq_false_iff_ne, UInt8.lt_iff_toNat_lt] at h h'
    have heq : a = b := UInt8.toNat_inj.mp (by omega)
    subst heq
    rw [bytesLess_total (h.2.resolve_left fun hne => hne rfl)
      (h'.2.resolve_left fun hne => hne rfl)]

theorem bytesLess_trans {first second third : Bytes} (hf : bytesLess first second = true)
    (hs : bytesLess second third = true) : bytesLess first third = true :=
  (bytesLess_cotrans third hf).resolve_right fun ht =>
    Bool.false_ne_true ((bytesLess_asymm hs).symm.trans ht)

/-- `sort.Slice`: the elements in some order in which no element is less than an
earlier one. Which order that is depends on the comparisons alone. -/
structure SliceSort where
  sort : {α : Type} → (α → α → Bool) → List α → List α
  perm : ∀ {α : Type} (less : α → α → Bool) (items : List α), (sort less items).Perm items
  sorted : ∀ {α : Type} (less : α → α → Bool) (items : List α),
    (∀ a b, less a b = true → less b a = false) →
    (∀ a b c, less c a = true → less c b = true ∨ less b a = true) →
    (sort less items).Pairwise fun first second => less second first = false
  natural : ∀ {α β : Type} (less : β → β → Bool) (f : α → β) (items : List α),
    sort less (items.map f) = (sort (fun first second => less (f first) (f second)) items).map f

def encodeResource (ref : ResourceRef) : Bytes :=
  encodeUint ref.epoch ++ encodeUint ref.objectID ++ encodeString ref.typeHash

/-- The codes `wireNil`, `wireBool`, … of the kinds of data. -/
def Data.kind {V : Type} : Data V → UInt64
  | .nil => 0
  | .bool _ => 1
  | .int _ => 2
  | .uint _ => 3
  | .float _ => 4
  | .complex _ => 5
  | .string _ => 6
  | .bytes _ => 7
  | .slice _ => 8
  | .map _ => 9
  | .record _ => 10
  | .optional _ => 11

def wireResource : UInt64 := 12

def encodeEntry (entry : MapEntry Bytes) : Bytes := entry.key ++ entry.value

def encodeField (field : Field Bytes) : Bytes :=
  encodeUint (.ofNat field.id.toNat) ++ field.value

/-- What follows the kind, from the encodings of the parts. -/
def encodeData : Data Bytes → Bytes
  | .nil => []
  | .bool value => encodeBool value
  | .int value => encodeInt value
  | .uint value => encodeUint value
  | .float bits => encodeFloat64 bits
  | .complex value => encodeComplex128 value
  | .string value => encodeString value
  | .bytes value => encodeRaw value
  | .slice items => encodeUint (.ofNat items.length) ++ items.flatten
  | .map entries => encodeUint (.ofNat entries.length) ++ entries.flatMap encodeEntry
  | .record fields => encodeUint (.ofNat fields.length) ++ fields.flatMap encodeField
  | .optional value => value

def encodeParts (type : Bytes) (resource : Option ResourceRef) (data : Data Bytes) : Bytes :=
  encodeString type ++ match resource with
    | some ref => encodeUint wireResource ++ encodeResource ref
    | none => encodeUint data.kind ++ encodeData data

/-- The encodings of a map's entries or of a message's fields, in order. -/
def Data.sorted (sorter : SliceSort) : Data Bytes → Data Bytes
  | .map entries => .map (sorter.sort (fun a b => bytesLess a.key b.key) entries)
  | .record fields => .record (sorter.sort (fun a b => a.id < b.id) fields)
  | data => data

/-- `encodeBinaryValue`. -/
def encodeBinaryValue (sorter : SliceSort) : Value → Bytes :=
  Value.fold fun type resource data => encodeParts type resource (data.sorted sorter)

inductive CodecError where
  | value (fault : ValueError)
  | wire (fault : WireError)
  /-- `rpc value limit exceeded: encoded bytes`. -/
  | encodedBytes
  /-- `rpc value byte limit exceeded`. -/
  | byteLimit
deriving Repr, DecidableEq

/-- `EncodeValues`. -/
def encodeValues (sorter : SliceSort) (values : List Value) (limits : Limits) :
    Except CodecError Bytes :=
  let limits := normalizeLimits limits
  match validateValues limits values with
  | .error fault => .error (.value fault)
  | .ok _ =>
    let encoded := encodeUint (.ofNat values.length) ++ values.flatMap (encodeBinaryValue sorter)
    if limits.maxMessageBytes.toInt < encoded.length then .error .encodedBytes
    else .ok encoded

/-- A reader whose errors are all reported alike. -/
def orMalformed {α : Type} (read : Decoder α) (message : String) : Decoder α := fun data =>
  match read data with
  | .ok result => .ok result
  | .error _ => .error (.malformed message)

def decodeCount (limits : Limits) : Decoder Nat := do
  let count ← decodeUint
  if limits.maxValueElements.toUInt64 < count then
    fail (.malformed "rpc value element limit exceeded")
  else pure count.toNat

/-- The number of parts and then the parts. -/
def decodeCounted {α : Type} (limits : Limits) (decode : Decoder α) : Decoder (List α) := do
  let count ← decodeCount limits
  Codec.readMany decode count

def decodeEntry (decode : Decoder Value) : Decoder (MapEntry Value) := do
  let key ← decode
  let value ← decode
  pure ⟨key, value⟩

def decodeField (decode : Decoder Value) : Decoder (Field Value) := do
  let id ← decodeUint
  if id = 0 ∨ 4294967295 < id then fail (.malformed "invalid rpc field ID")
  else
    let value ← decode
    pure ⟨id.toUInt32, value⟩

def decodeResource (limits : Limits) : Decoder ResourceRef := do
  let epoch ← decodeUint
  let objectID ← decodeUint
  let typeHash ← decodeString limits.maxMessageBytes
  pure ⟨epoch, objectID, typeHash⟩

def decodeTypeName (limits : Limits) : Decoder Bytes := do
  let typeName ← orMalformed (decodeString limits.maxMessageBytes) "invalid rpc value type"
  if typeName = [] then fail (.malformed "invalid rpc value type") else pure typeName

/-- The data of the kind that has been read. -/
def decodeData (limits : Limits) (decode : Decoder Value) (kind : UInt64) :
    Decoder (Data Value) :=
  match kind.toNat with
  | 0 => pure .nil
  | 1 => .bool <$> decodeBool
  | 2 => .int <$> decodeInt
  | 3 => .uint <$> decodeUint
  | 4 => .float <$> decodeFloat64
  | 5 => .complex <$> decodeComplex128
  | 6 => .string <$> decodeString limits.maxMessageBytes
  | 7 => .bytes <$> decodeRaw limits.maxMessageBytes
  | 8 => .slice <$> decodeCounted limits decode
  | 9 => .map <$> decodeCounted limits (decodeEntry decode)
  | 10 => .record <$> decodeCounted limits (decodeField decode)
  | 11 => .optional <$> decode
  | _ => fail (.malformed "unknown rpc value kind")

/-- `decodeBinaryValue`; `levels` is how many levels of values may still begin. -/
def decodeBinaryValue (limits : Limits) : Nat → Decoder Value
  | 0 => fail (.malformed "rpc value depth limit exceeded")
  | levels + 1 => do
      let typeName ← decodeTypeName limits
      let kind ← decodeUint
      if kind = wireResource then
        let ref ← decodeResource limits
        pure (.mk typeName (some ref) .nil)
      else
        let data ← decodeData limits (decodeBinaryValue limits levels) kind
        pure (.mk typeName none data)

/-- The part of `DecodeValues` that reads the payload. -/
def decodePayload (limits : Limits) : Decoder (List Value) := do
  let count ← orMalformed (decodeCount limits) "decode RPC values: invalid value count"
  Codec.readMany (decodeBinaryValue limits limits.levels) count

/-- `DecodeValues`. -/
def decodeValues (payload : Bytes) (limits : Limits) : Except CodecError (List Value) :=
  let limits := normalizeLimits limits
  if limits.maxMessageBytes.toInt < payload.length then .error .byteLimit
  else match decodePayload limits payload with
    | .error fault => .error (.wire fault)
    | .ok (values, rest) =>
      if rest ≠ [] then .error (.wire (.trailing rest.length))
      else match validateValues limits values with
        | .error fault => .error (.value fault)
        | .ok _ => .ok values

end Codec

end MiniGo.Rpc
