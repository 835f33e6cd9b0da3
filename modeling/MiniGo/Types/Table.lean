/-
Type tables (`compiler/types/model.go`, `table.go`, `query.go`, `view.go` and
`validate.go`).

A table is a list of nodes whose IDs and identities are unique, so that the two
indexes of `rebuildIndexes` are searches of that list. The caches of a table
hold nothing the list does not determine and are left out.
-/
import MiniGo.Types

namespace MiniGo

open List

/-- `types.ChannelDir`. -/
inductive ChannelDir where
  | invalid | both | receive | send
deriving Repr, DecidableEq

/-- `types.Field`. -/
structure Field where
  name : String
  type : TypeRef
  tag : String := ""
  embedded : Bool := false
deriving Repr, DecidableEq

/-- `types.Method`. -/
structure Method where
  name : String
  receiver : TypeRef := {}
  signature : FunctionSignature := {}
  functionID : String := ""
  modulePath : String := ""
deriving Repr, DecidableEq

/-- `types.TypeTerm`. -/
structure TypeTerm where
  type : TypeRef
  approx : Bool := false
  union : Bool := false
deriving Repr, DecidableEq

/-- `types.TypeNode`. -/
structure TypeNode where
  id : String
  kind : TypeKind
  name : String := ""
  primitive : PrimitiveKind := .invalid
  identity : TypeKey := {}
  isAlias : Bool := false
  aliasTarget : TypeRef := {}
  underlying : TypeRef := {}
  elem : TypeRef := {}
  key : TypeRef := {}
  length : Int := 0
  direction : ChannelDir := .invalid
  signature : Option FunctionSignature := none
  tuple : List TypeRef := []
  fields : List Field := []
  methods : List Method := []
  terms : List TypeTerm := []
  typeSet : Bool := false
  constraint : TypeRef := {}
  base : TypeRef := {}
  typeArgs : List TypeRef := []
deriving Repr, DecidableEq

/-- `UnknownArrayLength`. -/
def unknownArrayLength : Int := -1

/-- `types.Ref`. -/
def TypeNode.ref (node : TypeNode) : TypeRef :=
  { kind := node.kind, named := node.identity, node := node.id }

def emptyTypeKey (key : TypeKey) : Bool :=
  key.modulePath == "" && key.declID == ""

/-- What `rebuildIndexes` and `validate` report. -/
inductive TableError where
  /-- `type node has no id`. -/
  | missingID
  /-- `duplicate type node`. -/
  | duplicateNode (id : String)
  /-- `duplicate type identity`. -/
  | duplicateIdentity (key : TypeKey)
  /-- `invalid node shape`. -/
  | invalidShape (id : String) (kind : TypeKind)
  /-- `invalid type reference`. -/
  | invalidReference (id : String) (ref : TypeRef)
  /-- `unknown child node`. -/
  | unknownChild (id child : String)
  /-- `alias cycle`. -/
  | aliasCycle (id : String)
  /-- `invalid function type: variadic signature has no parameters`. -/
  | variadicParameters (id : String)
  /-- `invalid function type: variadic parameter must be a slice`. -/
  | variadicSlice (id : String)
deriving Repr, DecidableEq

/-- `rebuildIndexes`, after the nodes in `before`. -/
def rebuildIndexes (before : List TypeNode) : List TypeNode → Except TableError Unit
  | [] => .ok ()
  | node :: nodes =>
    if node.id = "" then
      .error .missingID
    else if before.any (·.id == node.id) then
      .error (.duplicateNode node.id)
    else if !emptyTypeKey node.identity && before.any (·.identity == node.identity) then
      .error (.duplicateIdentity node.identity)
    else
      rebuildIndexes (node :: before) nodes

/-- `types.TypeTable`; a table that cannot be indexed has no nodes to look up. -/
structure TypeTable where
  nodes : List TypeNode
  indexed : rebuildIndexes [] nodes = .ok ()

namespace TypeTable

variable (table : TypeTable)

/-- `TypeTable.Node`. -/
def node (ref : TypeRef) : Option TypeNode :=
  if ref.node = "" then none else table.nodes.find? (·.id == ref.node)

/-- `TypeTable.Named`. -/
def named (key : TypeKey) : Option TypeNode :=
  if emptyTypeKey key then none else table.nodes.find? (·.identity == key)

/-- `nodeForRef`. -/
def nodeForRef (ref : TypeRef) : Option TypeNode :=
  if ref.kind = .named ∧ ref.node = "" then table.named ref.named
  else table.node ref

variable {ref : TypeRef}

theorem nodeForRef_mem {node : TypeNode}
    (hn : table.nodeForRef ref = some node) : node ∈ table.nodes := by
  unfold nodeForRef named TypeTable.node at hn
  split_ifs at hn <;> exact mem_of_find?_eq_some hn

/-- The loop of `Underlying`, with the number of nodes it still visits. -/
def underlyingLoop : Nat → TypeRef → TypeRef
  | 0, ref => ref
  | steps + 1, ref =>
    if ref.kind ≠ .named then ref
    else
      match table.nodeForRef ref with
      | none => ref
      | some node =>
        if node.isAlias then
          if node.aliasTarget.valid then underlyingLoop steps node.aliasTarget
          else ref
        else if node.underlying.valid then underlyingLoop steps node.underlying
        else ref

/-- `TypeTable.Underlying`. -/
def underlying (ref : TypeRef) : TypeRef :=
  table.underlyingLoop (table.nodes.length + 1) ref

/-- `TypeTable.IsInterface`. -/
def isInterface (ref : TypeRef) : Option TypeNode :=
  let underlying := table.underlying ref
  if ref.kind = .named ∧ underlying.kind = .any then
    some { id := "", kind := .interface }
  else if underlying.kind ≠ .interface then
    none
  else
    match table.nodeForRef underlying with
    | none => none
    | some shape =>
      match table.nodeForRef ref with
      | some named =>
        if ref.kind = .named ∧ named.methods ≠ [] then
          some { shape with methods := named.methods }
        else
          some shape
      | none => some shape

theorem isInterface_of_kind_any (hk : ref.kind = .any) : table.isInterface ref = none := by
  have hu : table.underlying ref = ref := by
    rw [underlying, underlyingLoop, if_pos (by rw [hk]; decide)]
  simp [isInterface, hu, hk]

/-- `TypeView.Shape`. -/
def shape (ref : TypeRef) : TypeKind :=
  if ref.valid then
    let underlying := table.underlying ref
    if ref.kind = .named ∧ underlying.kind = .any then .interface
    else underlying.kind
  else
    .invalid

/-- `TypeView.underlyingNode`. -/
def underlyingNode (ref : TypeRef) : Option TypeNode :=
  table.nodeForRef (table.underlying ref)

/-- `TypeView.Elem`. -/
def elem (ref : TypeRef) : Option TypeRef :=
  match table.underlyingNode ref with
  | none => none
  | some node =>
    match node.kind with
    | .slice | .pointer | .waitable =>
      if node.elem.valid then some node.elem else none
    | _ => none

/-- `TypeView.StructFields`. -/
def structFields (ref : TypeRef) : Option (List Field) :=
  match table.nodeForRef ref with
  | some node =>
    if node.kind = .named ∧ node.fields ≠ [] then some node.fields
    else structShape
  | none => structShape
where
  structShape : Option (List Field) :=
    match table.underlyingNode ref with
    | some node => if node.kind = .struct then some node.fields else none
    | none => none

theorem structFields_mem {fields : List Field} (hf : table.structFields ref = some fields) :
    ∃ node ∈ table.nodes, node.fields = fields := by
  have hs : structFields.structShape table ref = some fields →
      ∃ node ∈ table.nodes, node.fields = fields := by
    intro hs
    unfold structFields.structShape underlyingNode at hs
    split at hs
    · rename_i node hn
      split_ifs at hs
      exact ⟨node, table.nodeForRef_mem hn, Option.some.inj hs⟩
    · cases hs
  unfold structFields at hf
  split at hf
  · rename_i node hn
    split_ifs at hf
    · exact ⟨node, table.nodeForRef_mem hn, Option.some.inj hf⟩
    · exact hs hf
  · exact hs hf

/-- The loop of `aliasTarget`, whose steps suffice. -/
def aliasLoop (start : TypeRef) : Nat → List String → TypeRef → TypeRef
  | 0, _, _ => start
  | steps + 1, seen, ref =>
    match table.nodeForRef ref with
    | none => ref
    | some node =>
      if !node.isAlias || !node.aliasTarget.valid then ref
      else if node.id ∈ seen then start
      else aliasLoop start steps (node.id :: seen) node.aliasTarget

/-- `Relations.aliasTarget`. -/
def aliasTarget (ref : TypeRef) : TypeRef :=
  table.aliasLoop ref (table.nodes.length + 1) [] ref

/-- The aliases from one reference to another, by the identifiers of their nodes. -/
inductive AliasChain : TypeRef → List String → TypeRef → Prop
  | nil {ref : TypeRef} : AliasChain ref [] ref
  | cons {ref : TypeRef} {node ids last} : table.nodeForRef ref = some node → node.isAlias →
      node.aliasTarget.valid → AliasChain node.aliasTarget ids last →
      AliasChain ref (node.id :: ids) last

/-- The result is the end of a chain of aliases, or the start if the chain meets a node again. -/
def Resolves (start : TypeRef) (seen : List String) (ref result : TypeRef) : Prop :=
  ∃ ids last, table.AliasChain ref ids last ∧
    if (ids ++ seen).Nodup then
      result = last ∧ ∀ node ∈ table.nodeForRef last, !node.isAlias || !node.aliasTarget.valid
    else result = start

/-- The steps exceed the nodes that have not been seen. -/
theorem aliasLoop_resolves {st : TypeRef} :
    ∀ (s : Nat) (se : List String) (ref : TypeRef), se.Nodup →
      se ⊆ table.nodes.map (·.id) → table.nodes.length < s + se.length →
      table.Resolves st se ref (table.aliasLoop st s se ref) := by
  intro s
  induction s with
  | zero =>
    intro se ref hnd hsb hl
    have := (hnd.subperm hsb).length_le
    rw [length_map] at this
    omega
  | succ s ih =>
    intro se ref hnd hsb hl
    unfold aliasLoop
    cases hn : table.nodeForRef ref with
    | none => exact ⟨[], ref, .nil, by simp [hnd, hn]⟩
    | some node =>
      dsimp only
      split_ifs with ha hs
      · exact ⟨[], ref, .nil, by simpa [hnd, hn] using ha⟩
      · exact ⟨[node.id], _, .cons hn (by grind) (by grind) .nil, by simp [hs]⟩
      · have hsub := cons_subset.mpr ⟨mem_map_of_mem (table.nodeForRef_mem hn), hsb⟩
        obtain ⟨ids, last, hc, h⟩ := ih (node.id :: se) node.aliasTarget
          (nodup_cons.mpr ⟨hs, hnd⟩) hsub (by rw [length_cons]; omega)
        simp only [nodup_middle] at h
        exact ⟨node.id :: ids, last, .cons hn (by grind) (by grind) hc, h⟩

theorem aliasTarget_resolves (ref : TypeRef) :
    table.Resolves ref [] ref (table.aliasTarget ref) :=
  table.aliasLoop_resolves _ [] ref nodup_nil (nil_subset _) (Nat.lt_succ_self _)

/-- `validNodeShape`. -/
def validNodeShape (node : TypeNode) (compiler : Bool) : Bool :=
  match node.kind with
  | .primitive => node.primitive != .invalid
  | .named =>
    node.identity.modulePath != "" && node.identity.declID != "" &&
      (node.isAlias || node.underlying.valid)
  | .slice | .pointer => node.elem.valid
  | .array =>
    node.elem.valid && (decide (0 ≤ node.length) || compiler && node.length == unknownArrayLength)
  | .map => node.key.valid && node.elem.valid
  | .waitable => node.elem.valid && node.direction != .invalid
  | .function =>
    match node.signature with
    | none => false
    | some signature => !signature.variadic || !signature.params.isEmpty
  | .tuple | .struct | .interface => true
  | .typeParameter => compiler && node.constraint.valid
  | .instanceOf => compiler && node.base.valid && !node.typeArgs.isEmpty
  | .invalid | .void | .any => false

/-- `nodeRefs`. -/
def nodeRefs (node : TypeNode) : List TypeRef :=
  [node.aliasTarget, node.underlying, node.elem, node.key, node.constraint, node.base] ++
    node.typeArgs ++ node.tuple ++
    (match node.signature with
      | none => []
      | some signature => signature.params ++ signature.results) ++
    node.fields.map (·.type) ++
    node.methods.flatMap (fun method =>
      method.receiver :: (method.signature.params ++ method.signature.results)) ++
    node.terms.map (·.type)

def validateRef (node : TypeNode) (ref : TypeRef) : Except TableError Unit :=
  if ref.kind = .invalid then
    .ok ()
  else if !ref.valid then
    .error (.invalidReference node.id ref)
  else if ref.node ≠ "" ∧ table.node ref = none then
    .error (.unknownChild node.id ref.node)
  else
    .ok ()

/-- The loop of `validateAliasChains` for one root. -/
def validateAliasChain (root : TypeNode) :
    Nat → List String → TypeRef → Except TableError Unit
  | 0, _, _ => .error (.aliasCycle root.id)
  | steps + 1, seen, ref =>
    if ref.kind ≠ .named then .ok ()
    else
      match table.nodeForRef ref with
      | none => .ok ()
      | some node =>
        if !node.isAlias then .ok ()
        else if node.id ∈ seen then .error (.aliasCycle root.id)
        else validateAliasChain root steps (node.id :: seen) node.aliasTarget

def validateVariadic (node : TypeNode) : Except TableError Unit :=
  match node.kind, node.signature with
  | .function, some signature =>
    if signature.variadic then
      match signature.params.getLast? with
      | none => .error (.variadicParameters node.id)
      | some last =>
        if last.kind ≠ .slice ∧ (table.underlying last).kind ≠ .slice then
          .error (.variadicSlice node.id)
        else
          .ok ()
    else
      .ok ()
  | _, _ => .ok ()

/-- `TypeTable.validate`. -/
def validate (compiler : Bool) : Except TableError Unit := do
  for node in table.nodes do
    unless validNodeShape node compiler do
      throw (.invalidShape node.id node.kind)
    for ref in nodeRefs node do
      table.validateRef node ref
  for node in table.nodes do
    if node.kind = .named ∧ node.isAlias then
      table.validateAliasChain node (table.nodes.length + 1) [] node.ref
  for node in table.nodes do
    table.validateVariadic node

end TypeTable

end MiniGo
