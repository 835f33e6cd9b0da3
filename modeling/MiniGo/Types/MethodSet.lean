/-
Method sets and `Implements` (`compiler/types/relations.go`).

`methodSet` searches the embedded types of a type level by level and gives a key
to the first level that offers one method under it. Go's rule is about every
field and method of that name: the shallowest level that has any must have
exactly one, and it must be a method of the set. The two agree unless a field,
an ambiguity or a method of the wrong receiver hides what a deeper level offers.
Type identity is a parameter.
-/
import MiniGo.Lib.Levels
import MiniGo.Types.Table

namespace MiniGo

open Lib

section Keys

variable (upper : Char → Bool)

/-- `token.IsExportedName`; `upper` are the letters of `upperRanges`. -/
def isExportedName (name : String) : Bool :=
  match name.toList with
  | [] => false
  | letter :: _ =>
    decide ('A' ≤ letter) && decide (letter ≤ 'Z') || decide (0x80 ≤ letter.toNat) && upper letter

/-- The key of a member that a module declares. -/
def memberKey (modulePath name : String) : String :=
  if modulePath = "" ∨ name = "" ∨ isExportedName upper name then name
  else modulePath ++ ":" ++ name

/-- `methodKey`. -/
def methodKey (method : Method) : String :=
  memberKey upper method.modulePath method.name

end Keys

/-- A type that a path of embedded fields leads to, and whether the path passes
through a pointer. -/
structure Reached where
  typ : TypeRef
  pointer : Bool
deriving Repr, DecidableEq

/-- `frontierItem`. -/
abbrev FrontierItem := Trail Reached TypeRef

/-- The maps `candidates` and `counts` of one level. -/
structure Tally where
  candidates : String → Option FunctionSignature
  counts : String → Nat

def Tally.empty : Tally := ⟨fun _ => none, fun _ => 0⟩

def Tally.add (tally : Tally) (key : String) (signature : FunctionSignature) :
    Tally :=
  ⟨Function.update tally.candidates key (some signature),
    Function.update tally.counts key (tally.counts key + 1)⟩

/-- The codes that `Implements` and `SignatureIdentical` return. -/
inductive RelationCode where
  | invalid | notIdentical | notAssignable | interfaceTypeSet | missingMethod
  | methodSignatureMismatch | signatureArityMismatch | signatureVariadicMismatch
deriving Repr, DecidableEq

namespace TypeTable

variable (upper : Char → Bool) (table : TypeTable)

/-- `methodSetBase`. -/
def methodSetBase (ref : TypeRef) : Reached :=
  let ref := table.aliasTarget ref
  if table.shape ref = .pointer then
    match table.elem ref with
    | some elem => ⟨table.aliasTarget elem, true⟩
    | none => ⟨ref, true⟩
  else
    ⟨ref, false⟩

/-- A method with a pointer receiver needs a pointer on the way. -/
def promotes (pointer : Bool) (method : Method) : Bool :=
  !(method.receiver.valid && !pointer && table.shape method.receiver == .pointer)

/-- The methods that the node of a type records. -/
def recordedMethods (ref : TypeRef) : List Method :=
  match table.nodeForRef (table.aliasTarget ref) with
  | none => []
  | some node => node.methods

/-- `directMethodSet`. -/
def directMethodSet (ref : TypeRef) (pointer : Bool) : List Method :=
  (table.recordedMethods ref).filter (table.promotes pointer)

/-- `embeddedMethodSetFields`. -/
def embeddedMethodSetFields (ref : TypeRef) : List Field :=
  match table.structFields (table.aliasTarget ref) with
  | none => []
  | some fields => fields.filter (·.embedded)

/-- The types one embedding further. -/
def embeddedTypes (item : Reached) : List Reached :=
  (table.embeddedMethodSetFields item.typ).map fun field =>
    let base := table.methodSetBase field.type
    ⟨base.typ, base.pointer || item.pointer⟩

def tallyMethod (available : String → Option FunctionSignature) (tally : Tally)
    (method : Method) : Tally :=
  let key := methodKey upper method
  if (available key).isSome then tally else tally.add key method.signature

def tallyLevel (available : String → Option FunctionSignature)
    (frontier : List FrontierItem) : Tally :=
  (frontier.flatMap fun item =>
      table.directMethodSet item.item.typ item.item.pointer).foldl
    (tallyMethod upper available) .empty

/-- The two loops over `candidates` that end a level. -/
def settle (depth : Nat) (tally : Tally)
    (available : String → Option FunctionSignature) (key : String) :
    Option FunctionSignature :=
  match tally.candidates key with
  | none => available key
  | some signature =>
    if depth = 0 ∧ 1 < tally.counts key then none
    else if tally.counts key = 1 then some signature
    else available key

/-- The loop of `methodSet` over the levels. -/
def methodSetLoop : Nat → Nat → List FrontierItem →
    (String → Option FunctionSignature) → String → Option FunctionSignature
  | 0, _, _, available => available
  | levels + 1, depth, frontier, available =>
    if frontier = [] then available
    else
      methodSetLoop levels (depth + 1)
        (frontier.flatMap (Trail.extend Reached.typ table.embeddedTypes))
        (settle depth (table.tallyLevel upper available frontier) available)

/-- A path without a repetition has at most one level for each field. -/
def levelBound : Nat := (table.nodes.flatMap (·.fields)).length + 1

/-- `Relations.methodSet`; `sourceNode` is the node of a source interface. -/
def methodSet (source : TypeRef) (sourceNode : Option TypeNode) :
    String → Option FunctionSignature :=
  match sourceNode with
  | some node =>
    node.methods.foldl (fun available method =>
      Function.update available (methodKey upper method) (some method.signature))
      fun _ => none
  | none =>
    let base := table.methodSetBase source
    table.methodSetLoop upper table.levelBound 0 [⟨base, [base.typ]⟩] fun _ => none

section Implements

variable (identical : TypeRef → TypeRef → Bool)

/-- `SignatureIdentical`. -/
def signatureIdentical (left right : FunctionSignature) :
    Except RelationCode Unit :=
  if left.variadic ≠ right.variadic then
    .error .signatureVariadicMismatch
  else if left.params.length ≠ right.params.length ∨ left.results.length ≠ right.results.length then
    .error .signatureArityMismatch
  else if (left.params.zip right.params ++ left.results.zip right.results).all
      fun types => identical types.1 types.2 then
    .ok ()
  else
    .error .notIdentical

/-- The loop of `Implements` over the methods of the target. -/
def implementsMethods (available : String → Option FunctionSignature) :
    List Method → Except RelationCode Unit
  | [] => .ok ()
  | method :: methods =>
    match available (methodKey upper method) with
    | none => .error .missingMethod
    | some candidate =>
      if (signatureIdentical identical candidate method.signature).toBool then
        implementsMethods available methods
      else
        .error .methodSignatureMismatch

/-- `Relations.Implements`. -/
def implements (source target : TypeRef) : Except RelationCode Unit :=
  if !source.valid || !target.valid then
    .error .invalid
  else if target.kind = .any then
    .ok ()
  else
    match table.isInterface target with
    | none => .error .notAssignable
    | some targetNode =>
      let sourceNode := table.isInterface source
      if targetNode.typeSet then
        .error .interfaceTypeSet
      else if sourceNode.any (·.typeSet) then
        .error .interfaceTypeSet
      else
        implementsMethods upper identical (table.methodSet upper source sourceNode)
          targetNode.methods

end Implements

end TypeTable

end MiniGo
