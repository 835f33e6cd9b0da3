/-
Constant groups (`parser/parser.go` and `parser/parser_literals.go`).

The parser writes the index of a specification over the identifier `iota` in a copy of its
expressions, before names are resolved. A node of the syntax tree knows the field of its parent
in which it stands; whatever else its record holds is its label.
-/
import Mathlib.Data.List.Basic

namespace MiniGo.ConstGroup

/-- The fields that hold nodes: of `ast.Expression`, of `ast.Statement`, of `ast.CaseClause`,
and of declarations and types. -/
inductive Field where
  | left | right | operand | callee | args | index | start | stop | max | itemKey | itemValue
  | funcBody | exprType | funcSignature
  | stmtExpr | stmtLeft | stmtRight | init | cond | post | orElse | range | stmtBody | cases
  | results | decls | stmtKey | stmtValue
  | caseValues | comm | caseBody | caseTypes
  | values | part
deriving DecidableEq

/-- The fields that `replaceIotaExpression` and `replaceIotaStatement` go into. -/
def Field.replaced : Field → Bool
  | .exprType | .funcSignature | .decls | .stmtKey | .stmtValue | .caseTypes | .part => false
  | _ => true

/-- A node; `predeclared` says that an identifier `iota` resolves to no declaration. -/
inductive Node (Label : Type) where
  | ident (field : Field) (name : String) (predeclared : Bool)
  | literal (field : Field) (text type : String)
  | node (field : Field) (label : Label) (children : List (Node Label))

variable {Label V : Type}

def Node.field : Node Label → Field
  | .ident field _ _ => field
  | .literal field _ _ => field
  | .node field _ _ => field

def replaceIotaExpression (value : Nat) : Node Label → Node Label
  | .ident field name predeclared =>
    if name = "iota" then .literal field (toString value) "Int"
    else .ident field name predeclared
  | .literal field text type => .literal field text type
  | .node field label children =>
    .node field label (children.map fun child =>
      if child.field.replaced then replaceIotaExpression value child else child)

structure ConstSpec (Label : Type) where
  names : List String
  type : Option (Node Label)
  values : List (Node Label)

/-- `inheritedConstSpec` -/
structure Inherited (Label : Type) where
  type : Option (Node Label)
  values : List (Node Label)

/-- `parseValueSpec` for constants, from what it has parsed. -/
def parseValueSpec (constIndex : Nat) (previous : Inherited Label) (spec : ConstSpec Label) :
    ConstSpec Label × Inherited Label :=
  let next := if spec.values.isEmpty then previous else ⟨spec.type, spec.values⟩
  let inherits := spec.values.isEmpty && !previous.values.isEmpty
  let type := if inherits then spec.type.or previous.type else spec.type
  let values := if inherits then previous.values else spec.values
  (⟨spec.names, type, values.map (replaceIotaExpression constIndex)⟩, next)

/-- The loop of `parseValueDecl`. -/
def parseSpecs (constIndex : Nat) (previous : Inherited Label) :
    List (ConstSpec Label) → List (ConstSpec Label)
  | [] => []
  | spec :: rest =>
    let (decl, next) := parseValueSpec constIndex previous spec
    decl :: parseSpecs (constIndex + 1) next rest

def parseValueDecl (specs : List (ConstSpec Label)) : List (ConstSpec Label) :=
  parseSpecs 0 ⟨none, []⟩ specs

/-! ## What a group declares -/

/-- Any way of giving nodes a meaning from the meanings of their children. -/
structure Evaluator (Label V : Type) where
  ident : Field → String → Bool → V
  literal : Field → String → String → V
  node : Field → Label → List V → V

/-- The meaning of a node where the predeclared `iota` has a value, or none. -/
def Evaluator.eval (M : Evaluator Label V) (iota : Option Nat) : Node Label → V
  | .ident field name predeclared =>
    if name = "iota" ∧ predeclared then
      iota.elim (M.ident field name predeclared) fun k => M.literal field (toString k) "Int"
    else M.ident field name predeclared
  | .literal field text type => M.literal field text type
  | .node field label children => M.node field label (children.map (M.eval iota))

/-- The last specification with a list, up to the given one. -/
def applicable (specs : List (ConstSpec Label)) (k : Nat) : Option (ConstSpec Label) :=
  (specs.take (k + 1)).reverse.find? (!·.values.isEmpty)

/-- Every specification to which a list applies declares its values, with `iota` for its own
index, and the type that stands before the list. -/
def Correct (specs : List (ConstSpec Label)) : Prop :=
  ∀ k spec origin, specs[k]? = some spec → applicable specs k = some origin →
    ∃ decl, (parseValueDecl specs)[k]? = some decl ∧ decl.names = spec.names ∧
      decl.type = origin.type ∧ ∀ (V : Type) (M : Evaluator Label V),
        decl.values.map (M.eval none) = origin.values.map (M.eval (some k))

/-- Every `iota` is the predeclared one where the replacement reaches, and none is where it does
not. -/
def Node.Covered (reached : Bool) : Node Label → Prop
  | .ident _ name predeclared => name = "iota" → predeclared = reached
  | .literal _ _ _ => True
  | .node _ _ children =>
    ∀ child ∈ children, child.Covered (reached && child.field.replaced)

theorem Node.induction {P : Node Label → Prop} (ident : ∀ f n p, P (.ident f n p))
    (literal : ∀ f t u, P (.literal f t u))
    (node : ∀ f l cs, (∀ c ∈ cs, P c) → P (.node f l cs)) (e : Node Label) : P e := by
  refine @Node.rec Label P (fun cs => ∀ c ∈ cs, P c) ident literal node ?_ ?_ e
  · simp
  · intro c cs hc hcs
    simpa using ⟨hc, hcs⟩

/-- Nodes as their own meanings. -/
def syntactic : Evaluator Label (Node Label) := ⟨.ident, .literal, .node⟩

theorem syntactic_eval_none (e : Node Label) : syntactic.eval none e = e := by
  induction e using Node.induction with
  | ident f n p => simp [Evaluator.eval, syntactic]
  | literal f t u => simp [Evaluator.eval, syntactic]
  | node f l cs ih =>
    rw [Evaluator.eval, List.map_congr_left ih]
    simp [syntactic]

/-- Evaluating where `iota` has a value is evaluating what its value was written over. -/
theorem eval_syntactic (M : Evaluator Label V) (k : Nat) (e : Node Label) :
    M.eval none (syntactic.eval (some k) e) = M.eval (some k) e := by
  induction e using Node.induction with
  | ident f n p =>
    simp only [Evaluator.eval]
    split <;> simp [Evaluator.eval, syntactic]
  | literal f t u => simp [Evaluator.eval, syntactic]
  | node f l cs ih =>
    rw [Evaluator.eval, Evaluator.eval, syntactic, Evaluator.eval, List.map_map]
    exact congrArg _ (List.map_congr_left ih)

theorem syntactic_eval_iff (k : Nat) (reached : Bool) (e : Node Label) :
    (if reached then replaceIotaExpression k e else e) = syntactic.eval (some k) e ↔
      e.Covered reached := by
  induction e using Node.induction generalizing reached with
  | ident f n p =>
    by_cases hn : n = "iota" <;> cases reached <;> cases p <;>
      simp [replaceIotaExpression, Evaluator.eval, syntactic, Node.Covered, hn]
  | literal f t u =>
    cases reached <;> simp [replaceIotaExpression, Evaluator.eval, syntactic, Node.Covered]
  | node f l cs ih =>
    have hc : (if reached then replaceIotaExpression k (.node f l cs) else .node f l cs) =
        .node f l (cs.map fun c => if reached && c.field.replaced then
          replaceIotaExpression k c else c) := by
      cases reached <;> simp [replaceIotaExpression]
    rw [hc, Evaluator.eval, Node.Covered]
    simp only [syntactic, Node.node.injEq, true_and, List.map_inj_left]
    exact forall₂_congr fun c hm => ih c hm _

theorem replaceIota_iff (k : Nat) (e : Node Label) : (∀ (V : Type) (M : Evaluator Label V),
      M.eval none (replaceIotaExpression k e) = M.eval (some k) e) ↔ e.Covered true := by
  rw [← syntactic_eval_iff k true e, if_pos rfl]
  constructor
  · intro hM
    -- nodes as their own meanings tell any two trees apart
    have hs := hM _ syntactic
    rwa [syntactic_eval_none] at hs
  · intro he V M
    rw [he, eval_syntactic]

/-- What is inherited after some specifications. -/
def inherited (previous : Inherited Label) (specs : List (ConstSpec Label)) : Inherited Label :=
  (specs.reverse.find? (!·.values.isEmpty)).elim previous fun o => ⟨o.type, o.values⟩

theorem getElem?_parseSpecs (i k : Nat) (previous : Inherited Label)
    (specs : List (ConstSpec Label)) : (parseSpecs i previous specs)[k]? =
      specs[k]?.map fun s => (parseValueSpec (i + k) (inherited previous (specs.take k)) s).1 := by
  induction specs generalizing i k previous with
  | nil => simp [parseSpecs]
  | cons s rest ih =>
    cases k with
    | zero => simp [parseSpecs, inherited]
    | succ k =>
      have hp : inherited previous (s :: rest.take k) =
          inherited (parseValueSpec i previous s).2 (rest.take k) := by
        simp only [inherited, List.reverse_cons, List.find?_append, parseValueSpec]
        by_cases hv : s.values = [] <;>
          cases (rest.take k).reverse.find? (!·.values.isEmpty) <;> simp [hv]
      rw [parseSpecs, List.getElem?_cons_succ, ih, List.getElem?_cons_succ, List.take_succ_cons, hp,
        Nat.add_right_comm, Nat.add_assoc]

theorem getElem?_parseValueDecl {specs : List (ConstSpec Label)} {k : Nat}
    {s o : ConstSpec Label} (hs : specs[k]? = some s) (ho : applicable specs k = some o) :
    (parseValueDecl specs)[k]? = some ⟨s.names,
      if s.values = [] then s.type.or o.type else o.type,
      o.values.map (replaceIotaExpression k)⟩ := by
  rw [parseValueDecl, getElem?_parseSpecs, hs, Option.map_some, Nat.zero_add]
  rw [applicable, List.take_add_one, hs, Option.toList_some, List.reverse_append] at ho
  simp only [List.reverse_singleton, List.singleton_append] at ho
  by_cases hv : s.values = []
  · rw [List.find?_cons_of_neg (by simp [hv])] at ho
    have hne : o.values ≠ [] := by simpa using List.find?_some ho
    simp [inherited, ho, parseValueSpec, hv, hne]
  · rw [List.find?_cons_of_pos (by simp [hv]), Option.some.injEq] at ho
    simp [parseValueSpec, ← ho, hv]

/-- A group declares what it should exactly if the replacement reaches every predeclared `iota`
and no other, and a specification without a list has no other type than the one before. -/
theorem constGroup_iff (specs : List (ConstSpec Label)) : Correct specs ↔
    ∀ k spec origin, specs[k]? = some spec → applicable specs k = some origin →
      (∀ e ∈ origin.values, e.Covered true) ∧
      (spec.values = [] → spec.type = none ∨ spec.type = origin.type) := by
  refine forall₃_congr fun k s o => forall₂_congr fun hs ho => ?_
  rw [getElem?_parseValueDecl hs ho]
  simp only [Option.some.injEq, exists_eq_left', true_and, List.map_map, List.map_inj_left,
    Function.comp_apply]
  have hv : (∀ (V : Type) (M : Evaluator Label V), ∀ e ∈ o.values,
      M.eval none (replaceIotaExpression k e) = M.eval (some k) e) ↔
      ∀ e ∈ o.values, e.Covered true := by
    simp only [← replaceIota_iff k]
    exact ⟨fun h e he V M => h V M e he, fun h V M e he => h e he V M⟩
  have ht : (if s.values = [] then s.type.or o.type else o.type) = o.type ↔
      (s.values = [] → s.type = none ∨ s.type = o.type) := by
    split
    · next he => cases hs : s.type <;> simp [he]
    · next he => simp [he]
  rw [hv, ht, and_comm]

theorem not_correct_of_not_covered {e : Node Label} (he : ¬ e.Covered true) :
    ¬ Correct [⟨["a"], none, [e]⟩] := by
  intro hc
  obtain ⟨d, hd, -, -, hv⟩ := hc 0 _ _ rfl rfl
  rw [getElem?_parseValueDecl rfl rfl, Option.some.injEq] at hd
  refine he ((replaceIota_iff 0 e).mp fun V M => ?_)
  simpa [← hd] using hv V M

/-- `const ( a = len([iota]int{}) )`: the length of the array type is not reached; `const ( a =
iota )` where `iota` is declared: that declaration is not looked up. -/
theorem arrayLength_not_correct :
    ¬ Correct [⟨["a"], none, [.node .values "call" [.ident .callee "len" false,
      .node .args "composite" [.node .exprType "array" [.ident .part "iota" true,
        .ident .part "int" false]]]]⟩] ∧
    ¬ Correct [⟨["a"], none, [(.ident .values "iota" false : Node String)]⟩] := by
  constructor <;>
  · apply not_correct_of_not_covered
    simp [Node.Covered, Node.field, Field.replaced]

end MiniGo.ConstGroup
