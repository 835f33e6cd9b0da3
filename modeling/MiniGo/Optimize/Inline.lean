/-
Inlining of small pure calls (`compiler/optimize/inline.go`).

`inlineSmallPureCalls` replaces a direct call by the callee's single result
expression, with the arguments put in place of the parameters. The pass is
written here with the list of the call sites it rewrote as a second result, so
that a statement about every rewritten site can be made.
-/
import MiniGo.Runtime.Equality

namespace MiniGo.Hir

open Expression List

/-- The operators that `inspectInlineExpression` and `inlineArgumentSafe`
refuse. -/
def BinaryOperator.refusedByInline : BinaryOperator → Bool
  | .div | .mod | .shiftLeft | .shiftRight => true
  | _ => false

/-- `parameters[name]` of `inlineSmallPureCalls`: the last index of a name. -/
def parameterIndex (parameters : List String) (name : String) : Option Nat :=
  (parameters.zipIdx.reverse.find? (·.1 == name)).map (·.2)

/-- `inspectInlineExpression`: the node count and the updated use counts of a
safe expression. -/
def inspectInlineExpression (parameters : List String) :
    Expression → List Nat → Option (Nat × List Nat)
  | .literal .., uses => some (1, uses)
  | .const .., uses => some (1, uses)
  | .zero _, uses => some (1, uses)
  | .localVar _ _ name, uses => do
      let index ← parameterIndex parameters name
      some (1, uses.modify index (· + 1))
  | .unary _ _ operand, uses => do
      let (nodes, uses) ← inspectInlineExpression parameters operand uses
      some (1 + nodes, uses)
  | .binary _ operator left right, uses =>
    if operator.refusedByInline then none
    else do
      let (leftNodes, uses) ← inspectInlineExpression parameters left uses
      let (rightNodes, uses) ← inspectInlineExpression parameters right uses
      some (1 + leftNodes + rightNodes, uses)
  | _, _ => none

/-- `inlineArgumentSafe`. -/
def inlineArgumentSafe : Expression → Bool
  | .literal .. | .const .. | .zero _ | .localVar .. | .upvalue .. | .global .. =>
    true
  | .unary _ _ operand => inlineArgumentSafe operand
  | .binary _ operator left right =>
    !operator.refusedByInline && inlineArgumentSafe left && inlineArgumentSafe right
  | _ => false

structure InlineCandidate where
  parameters : List String
  result : Expression

/-- The candidate a function gives rise to, if any. -/
def inlineCandidate (function : Function) : Option InlineCandidate :=
  match function.body with
  | [.returnValues [result]] =>
    if function.upvalues ≠ [] ∨ function.resultLocals ≠ [] ∨ function.signature.variadic ∨
        function.signature.results.length ≠ 1 ∨
        function.locals.length < function.signature.params.length then
      none
    else
      let parameters :=
        (function.locals.take function.signature.params.length).map (·.id)
      match inspectInlineExpression parameters result (List.replicate parameters.length 0) with
      | some (nodes, uses) =>
        if nodes ≤ 16 ∧ ∀ count ∈ uses, count ≤ 1 then
          some { parameters, result }
        else
          none
      | none => none
  | _ => none

/-- The `candidates` map; a later function of the same name replaces an earlier
one. -/
def findInlineCandidate (functions : List Function) (name : String) :
    Option InlineCandidate :=
  functions.reverse.findSome? fun function =>
    if function.id = name then inlineCandidate function else none

/-- The `arguments` map of a rewrite. -/
def argumentOf : List String → List Expression → String → Option Expression
  | parameter :: parameters, argument :: arguments, name =>
    match argumentOf parameters arguments name with
    | some found => some found
    | none => if parameter = name then some argument else none
  | _, _, _ => none

/-- `substituteInlineParameters`, on the expressions a candidate is made of. -/
def substituteInlineParameters (arguments : String → Option Expression) :
    Expression → Expression
  | .localVar type untyped name =>
    (arguments name).getD (.localVar type untyped name)
  | .unary type operator operand =>
    .unary type operator (substituteInlineParameters arguments operand)
  | .binary type operator left right =>
    .binary type operator (substituteInlineParameters arguments left)
      (substituteInlineParameters arguments right)
  | other => other

/-- The rewrite of one call whose operands have been rewritten. -/
def inlineCall (functions : List Function) (owner : String)
    (operation : Operation) (resultCount : Nat) (arguments : List Expression) :
    Option Expression :=
  match operation with
  | .callDirect modulePath name =>
    if modulePath ≠ "" ∨ name = owner ∨ resultCount ≠ 1 then none
    else do
      let candidate ← findInlineCandidate functions name
      if candidate.parameters.length = arguments.length ∧ arguments.all inlineArgumentSafe then
        some (substituteInlineParameters
          (argumentOf candidate.parameters arguments) candidate.result)
      else
        none
  | _ => none

/-- A call that the pass replaced. -/
structure InlineSite where
  owner : String
  function : String
  arguments : List Expression
  replacement : Expression

mutual

/-- `rewriteInlineCalls`: the rewritten expression and the replaced calls. -/
def rewriteInlineCalls (functions : List Function) (owner : String) :
    Expression → Expression × List InlineSite
  | .letIn name bound body =>
    let (bound, sites) := rewriteInlineCalls functions owner bound
    let (body, others) := rewriteInlineCalls functions owner body
    (.letIn name bound body, sites ++ others)
  | .letResults names bound body =>
    let (bound, sites) := rewriteInlineCalls functions owner bound
    let (body, others) := rewriteInlineCalls functions owner body
    (.letResults names bound body, sites ++ others)
  | .unary type operator operand =>
    let (operand, sites) := rewriteInlineCalls functions owner operand
    (.unary type operator operand, sites)
  | .binary type operator left right =>
    let (left, sites) := rewriteInlineCalls functions owner left
    let (right, others) := rewriteInlineCalls functions owner right
    (.binary type operator left right, sites ++ others)
  | .apply operation type resultCount resultTypes operands =>
    let (operands, sites) := rewriteInlineCallsAll functions owner operands
    match operation, inlineCall functions owner operation resultCount operands with
    | .callDirect _ name, some replacement =>
      (replacement, sites ++ [⟨owner, name, operands, replacement⟩])
    | _, _ => (.apply operation type resultCount resultTypes operands, sites)
  | leaf => (leaf, [])

def rewriteInlineCallsAll (functions : List Function) (owner : String) :
    List Expression → List Expression × List InlineSite
  | [] => ([], [])
  | expression :: rest =>
    let (expression, sites) := rewriteInlineCalls functions owner expression
    let (rest, others) := rewriteInlineCallsAll functions owner rest
    (expression :: rest, sites ++ others)

end

def rewriteInlineBody (functions : List Function) (owner : String)
    (body : List Statement) : List Statement × List InlineSite :=
  (body.map (·.mapExpressions fun expression =>
      (rewriteInlineCalls functions owner expression).1),
    body.flatMap fun statement => statement.expressions.flatMap fun expression =>
      (rewriteInlineCalls functions owner expression).2)

/-- A body is rewritten a second time when the first time changed it. -/
def inlineFunction (functions : List Function) (function : Function) :
    Function × List InlineSite :=
  let (body, sites) := rewriteInlineBody functions function.id function.body
  if sites.isEmpty then
    ({ function with body }, [])
  else
    let (body, others) := rewriteInlineBody functions function.id body
    ({ function with body }, sites ++ others)

/-- `inlineSmallPureCalls`, with the calls it replaced. -/
def inlineSmallPureCalls (functions : List Function) :
    List Function × List InlineSite :=
  (functions.map fun function => (inlineFunction functions function).1,
    functions.flatMap fun function => (inlineFunction functions function).2)

/-- The expressions that only read variables and apply operators. -/
def Expression.isPure : Expression → Bool
  | .literal .. | .const .. | .zero _ | .localVar .. | .upvalue .. | .global .. =>
    true
  | .unary _ _ operand => operand.isPure
  | .binary _ _ left right => left.isPure && right.isPure
  | _ => false

/-- The expressions that hold no other ones. -/
def Expression.isLeaf : Expression → Bool
  | .literal .. | .const .. | .zero _ | .localVar .. | .upvalue .. | .global .. => true
  | _ => false

/-- The locals that a pure expression reads before it applies an operator, in order. -/
def Expression.leadingReads : Expression → List String
  | .localVar _ _ name => [name]
  | .unary _ _ operand => operand.leadingReads
  | .binary _ operator left right =>
    if left.isLeaf ∧ shortCircuit operator = none then left.leadingReads ++ right.leadingReads
    else left.leadingReads
  | _ => []

/-- The failure of an outcome. -/
def failureOf {ε α : Type} : Except ε α → Option ε
  | .error failure => some failure
  | .ok _ => none

section Pure

variable (I : Interp) (site : Site) (world : I.World)

/-- The outcome of a pure expression when reading a local has a given
outcome. -/
def evalPure (reads : String → Except I.Failure I.Value) :
    Expression → Except I.Failure I.Value
  | .literal type untyped _ value => .ok (I.literal site type untyped value)
  | .const _ _ constantID _ => .ok (I.constant constantID)
  | .zero type => .ok (I.zero type)
  | .localVar _ _ name => reads name
  | .upvalue _ name => .ok (I.upvalue world name)
  | .global _ name => .ok (I.global world name)
  | .unary _ operator operand => do
      let value ← evalPure reads operand
      I.unary operator world value
  | .binary _ operator left right => do
      let leftValue ← evalPure reads left
      match shortCircuit operator with
      | some short =>
        let decided ← I.truth leftValue
        if decided = short then
          pure (I.ofBool short)
        else
          let rightValue ← evalPure reads right
          let result ← I.truth rightValue
          pure (I.ofBool result)
      | none =>
        let rightValue ← evalPure reads right
        I.binary operator world leftValue rightValue
  | _ => .error I.arity

/-- Substituting arguments is evaluating with the arguments' outcomes. -/
theorem evalPure_substituteInlineParameters (reads : String → Except I.Failure I.Value)
    (arguments : String → Option Expression) (expression : Expression)
    (hp : expression.isPure = true) :
    evalPure I site world reads (substituteInlineParameters arguments expression) =
      evalPure I site world (fun name =>
        match arguments name with
        | some arg => evalPure I site world reads arg
        | none => reads name) expression := by
  fun_induction isPure expression with
  | case4 _ _ name =>
    cases ha : arguments name with
    | none => simp [substituteInlineParameters, evalPure, ha]
    | some arg => simp [substituteInlineParameters, evalPure, ha]
  | case7 _ oper opd ih =>
    simp only [substituteInlineParameters, evalPure, ih hp]
  | case8 _ oper left right ihLeft ihRight =>
    simp only [Bool.and_eq_true] at hp
    simp only [substituteInlineParameters, evalPure, ihLeft hp.1, ihRight hp.2]
  | case9 => simp at hp
  | _ => rfl

variable {I site world}

theorem evalPure_of_isLeaf {reads : String → Except I.Failure I.Value} {expression : Expression}
    (hleaf : expression.isLeaf = true)
    (hreads : expression.leadingReads.findSome? (fun name => failureOf (reads name)) = none) :
    ∃ value, evalPure I site world reads expression = .ok value := by
  cases expression with
  | localVar type untyped name =>
    cases hread : reads name with
    | ok value => exact ⟨value, hread⟩
    | error failure => simp [leadingReads, hread, failureOf] at hreads
  | literal | const | zero | upvalue | global => exact ⟨_, rfl⟩
  | _ => cases hleaf

/-- The first failure among the locals read first is the failure of the expression. -/
theorem evalPure_of_leadingReads {reads : String → Except I.Failure I.Value}
    {expression : Expression} {failure : I.Failure}
    (hfails : expression.leadingReads.findSome? (fun name => failureOf (reads name)) =
      some failure) :
    evalPure I site world reads expression = .error failure := by
  fun_induction leadingReads expression with
  | case1 type untyped name =>
    cases hread : reads name with
    | ok value => simp [hread, failureOf] at hfails
    | error found =>
      simp only [findSome?_cons, hread, failureOf, Option.some.injEq] at hfails
      rw [evalPure, hread, hfails]
  | case2 type operator operand ih =>
    rw [evalPure, ih hfails]
    rfl
  | case3 type operator left right hleaf ihLeft ihRight =>
    rw [findSome?_append] at hfails
    rw [evalPure]
    cases hleft : left.leadingReads.findSome? fun name => failureOf (reads name) with
    | some found =>
      rw [hleft, Option.some_or, Option.some.injEq] at hfails
      rw [ihLeft (hleft.trans (congrArg some hfails))]
      rfl
    | none =>
      rw [hleft, Option.none_or] at hfails
      obtain ⟨value, hvalue⟩ := evalPure_of_isLeaf hleaf.1 hleft
      rw [hvalue, ihRight hfails]
      simp only [hleaf.2]
      rfl
  | case4 type operator left right hleaf ihLeft =>
    rw [evalPure, ihLeft hfails]
    rfl
  | case5 => cases hfails

end Pure

section Evaluation

variable (I : Interp) (ctx : Context)

/-- What reading a local yields in a state. -/
def readLocal (state : State I) (name : String) : I.Value :=
  if ctx.exposed name then I.loadCell state.world name else state.locals name

/-- The outcome of a pure expression in a state of the frame. -/
def pureOutcome (state : State I) (expression : Expression) :
    Except I.Failure I.Value :=
  evalPure I ctx.site state.world (fun name => .ok (readLocal I ctx state name)) expression

theorem expectOne_reads {computation : Eval I (List I.Value)} {st : State I}
    {outcome : Except I.Failure I.Value}
    (hrd : computation.Reads st (([·]) <$> outcome)) :
    (computation >>= expectOne I).Reads st outcome := by
  have ho : ∀ val, (expectOne I [val]).Reads st (pure val) :=
    fun val => Eval.Reads.pure val st
  simpa only [bind_pure] using hrd.bind_map ho

/-- A pure expression reads the state and does not change it. -/
theorem evalExpression_reads_of_isPure (st : State I)
    (expression : Expression) (hp : expression.isPure = true) :
    (evalExpression I ctx expression).Reads st (([·]) <$> pureOutcome I ctx st expression) := by
  unfold pureOutcome
  fun_induction isPure expression with
  | case7 _ oper opd ih =>
    simp only [evalExpression, evalPure, map_bind]
    exact (expectOne_reads I (ih hp)).bind fun _ => Eval.Reads.inspect _ _
  | case8 _ oper left right ihLeft ihRight =>
    simp only [Bool.and_eq_true] at hp
    simp only [evalExpression, evalPure, map_bind]
    refine (expectOne_reads I (ihLeft hp.1)).bind fun leftValue => ?_
    cases shortCircuit oper with
    | none =>
      simp only [map_bind]
      exact (expectOne_reads I (ihRight hp.2)).bind fun _ => Eval.Reads.inspect _ _
    | some short =>
      simp only [map_bind]
      refine (Eval.Reads.lift _ st).bind fun decided => ?_
      by_cases hs : decided = short
      · simp only [hs, ↓reduceIte, map_pure]
        exact Eval.Reads.pure _ _
      · simp only [hs, ↓reduceIte, map_bind, map_pure]
        exact (expectOne_reads I (ihRight hp.2)).bind fun rightValue =>
          (Eval.Reads.lift _ st).bind fun _ => Eval.Reads.pure _ _
  | case9 => simp at hp
  | _ => rfl

theorem evalExpressions_reads_of_isPure (st : State I) (exprs : List Expression)
    (hp : ∀ expression ∈ exprs, expression.isPure = true) :
    (evalExpressions I ctx exprs).Reads st (exprs.mapM (pureOutcome I ctx st)) := by
  induction exprs with
  | nil => rfl
  | cons head tail ih =>
    have hh := evalExpression_reads_of_isPure I ctx st head (hp head mem_cons_self)
    have ht := ih fun expression hmem =>
      hp expression (mem_cons_of_mem head hmem)
    simp only [evalExpressions, mapM_cons]
    exact hh.bind_map fun _ => ht.bind fun _ => Eval.Reads.pure _ _

end Evaluation

variable {expr : Expression} {function : Function} {candidate : InlineCandidate}
  {functions : List Function}

variable {parameters : List String}

theorem isPure_of_inspectInlineExpression {uses : List Nat} {res : Nat × List Nat}
    (hin : inspectInlineExpression parameters expr uses = some res) : expr.isPure = true := by
  fun_induction inspectInlineExpression parameters expr uses generalizing res with
  | case5 _ _ opd uses ih =>
    simp only [Option.bind_eq_bind, Option.bind_eq_some_iff] at hin
    obtain ⟨inner, hi, _⟩ := hin
    exact ih hi
  | case7 _ oper left right uses _ ihLeft ihRight =>
    simp only [Option.bind_eq_bind, Option.bind_eq_some_iff] at hin
    obtain ⟨leftResult, hl, rightResult, hr, _⟩ := hin
    simp [isPure, ihLeft hl, ihRight _ hr]
  | _ => simp_all [isPure]

theorem isPure_of_inlineArgumentSafe (hs : inlineArgumentSafe expr = true) :
    expr.isPure = true := by
  fun_induction inlineArgumentSafe expr with
  | case7 _ _ opd ih => exact ih hs
  | case8 _ oper left right ihLeft ihRight =>
    simp only [Bool.and_eq_true] at hs
    simp [isPure, ihLeft hs.1.2, ihRight hs.2]
  | case9 => simp at hs
  | _ => rfl

theorem argumentOf_mem {arguments : List Expression} {name : String} {arg : Expression}
    (hf : argumentOf parameters arguments name = some arg) :
    arg ∈ arguments := by
  fun_induction argumentOf parameters arguments name with
  | case1 _ _ _ _ _ found hr ih =>
    cases hf
    exact mem_cons_of_mem _ (ih hr)
  | case2 => simp_all
  | case3 => simp_all
  | case4 => cases hf

theorem argumentOf_eq_lookup (parameters : List String) (arguments : List Expression)
    (name : String) :
    argumentOf parameters arguments name = (parameters.zip arguments).reverse.lookup name := by
  induction parameters generalizing arguments with
  | nil => rfl
  | cons parameter parameters ih =>
    cases arguments with
    | nil => rfl
    | cons argument arguments =>
      rw [argumentOf, ih, zip_cons_cons, reverse_cons, lookup_append]
      cases (parameters.zip arguments).reverse.lookup name with
      | some found => rfl
      | none =>
        by_cases heq : parameter = name
        · simp [heq, lookup]
        · simp [heq, lookup, beq_false_of_ne (Ne.symm heq)]

theorem argumentOf_ne_none {arguments : List Expression} {name : String}
    (hlength : parameters.length = arguments.length) (hname : name ∈ parameters) :
    argumentOf parameters arguments name ≠ none := by
  induction parameters generalizing arguments with
  | nil => cases hname
  | cons parameter parameters ih =>
    cases arguments with
    | nil => cases hlength
    | cons argument arguments =>
      rw [argumentOf]
      cases hfound : argumentOf parameters arguments name with
      | some found => simp
      | none =>
        rcases mem_cons.mp hname with rfl | hname
        · simp
        · exact absurd hfound (ih (Nat.succ.inj hlength) hname)

/-- A candidate's expression reads parameters only. -/
theorem evalPure_congr {I : Interp} {first second : Site} {world : I.World}
    {reads reads' : String → Except I.Failure I.Value} {uses : List Nat} {res : Nat × List Nat}
    (hin : inspectInlineExpression parameters expr uses = some res)
    (hliteral : I.literal first = I.literal second)
    (hreads : ∀ name ∈ parameters, reads name = reads' name) :
    evalPure I first world reads expr = evalPure I second world reads' expr := by
  fun_induction inspectInlineExpression parameters expr uses generalizing res with
  | case1 => rw [evalPure, evalPure, hliteral]
  | case4 _ _ name uses =>
    simp only [Option.bind_eq_bind, Option.bind_eq_some_iff, parameterIndex,
      Option.map_eq_some_iff] at hin
    obtain ⟨_, ⟨found, hfound, -⟩, -⟩ := hin
    have hmem := mem_reverse.mp (mem_of_find?_eq_some hfound)
    have hname : found.1 = name := by simpa using find?_some hfound
    exact hreads name (hname ▸ fst_mem_of_mem_zipIdx hmem)
  | case5 _ _ opd uses ih =>
    simp only [Option.bind_eq_bind, Option.bind_eq_some_iff] at hin
    obtain ⟨inner, hi, _⟩ := hin
    rw [evalPure, evalPure, ih hi]
  | case7 _ oper left right uses _ ihLeft ihRight =>
    simp only [Option.bind_eq_bind, Option.bind_eq_some_iff] at hin
    obtain ⟨leftResult, hl, rightResult, hr, _⟩ := hin
    rw [evalPure, evalPure, ihLeft hl, ihRight _ hr]
  | case2 => rfl
  | case3 => rfl
  | _ => simp_all

theorem isPure_substituteInlineParameters {arguments : String → Option Expression}
    (har : ∀ name arg, arguments name = some arg → arg.isPure = true) (hp : expr.isPure = true) :
    (substituteInlineParameters arguments expr).isPure = true := by
  fun_induction isPure expr with
  | case4 _ _ name =>
    cases ha : arguments name with
    | none => simp [substituteInlineParameters, ha, isPure]
    | some arg => simpa [substituteInlineParameters, ha] using har name arg ha
  | case7 _ _ opd ih => exact ih hp
  | case8 _ _ left right ihLeft ihRight =>
    simp only [Bool.and_eq_true] at hp
    simp [substituteInlineParameters, isPure, ihLeft hp.1, ihRight hp.2]
  | case9 => simp at hp
  | _ => rfl

theorem exposedLocals_of_isPure (hp : expr.isPure = true) : expr.exposedLocals = [] := by
  fun_induction isPure expr with
  | case7 _ _ opd ih => exact ih hp
  | case8 _ _ left right ihLeft ihRight =>
    simp only [Bool.and_eq_true] at hp
    simp [exposedLocals, ihLeft hp.1, ihRight hp.2]
  | case9 => simp at hp
  | _ => rfl

section

variable (hcandidate : inlineCandidate function = some candidate)
include hcandidate

/-- What being a candidate says about a function. -/
theorem inlineCandidate_eq_some : function.body = [.returnValues [candidate.result]] ∧
      (∃ inspected, inspectInlineExpression candidate.parameters
        candidate.result (List.replicate candidate.parameters.length 0) = some inspected) ∧
      (∃ type, function.signature.results = [type]) ∧
      candidate.parameters =
        (function.locals.take function.signature.params.length).map (·.id) := by
  unfold inlineCandidate at hcandidate
  split at hcandidate
  case h_2 => cases hcandidate
  case h_1 res hb =>
    split at hcandidate
    case isTrue => cases hcandidate
    case isFalse hs =>
      simp only [not_or, Decidable.not_not] at hs
      dsimp only at hcandidate
      split at hcandidate
      case h_2 => cases hcandidate
      case h_1 nodes uses hi =>
        split at hcandidate
        case isFalse => cases hcandidate
        case isTrue =>
          cases hcandidate
          exact ⟨hb, ⟨_, hi⟩, length_eq_one_iff.mp hs.2.2.2.1, rfl⟩

theorem inlineCandidate_result_isPure : candidate.result.isPure = true := by
  obtain ⟨-, ⟨_, hi⟩, -, -⟩ := inlineCandidate_eq_some hcandidate
  exact isPure_of_inspectInlineExpression hi

theorem context_not_exposed (name : String) : function.context.exposed name = false := by
  obtain ⟨hb, -, -, -⟩ := inlineCandidate_eq_some hcandidate
  have hp := inlineCandidate_result_isPure hcandidate
  simp [Function.context, hb, Statement.expressions, exposedLocalsOf, exposedLocals_of_isPure hp]

end

theorem findInlineCandidate_eq (hi : (functions.map (·.id)).Nodup) {name : String}
    (hfi : findInlineCandidate functions name = some candidate) :
    ∃ function, functions.find? (·.id == name) = some function ∧
      inlineCandidate function = some candidate := by
  obtain ⟨function, hmem, hfu⟩ :=
    exists_of_findSome?_eq_some hfi
  rw [mem_reverse] at hmem
  split at hfu
  case isFalse => cases hfu
  case isTrue hn =>
    refine ⟨function, ?_, hfu⟩
    subst hn
    cases hf : functions.find? (·.id == function.id) with
    | none =>
      have hnone := find?_eq_none.mp hf function hmem
      simp at hnone
    | some found =>
      have hid : found.id = function.id := by
        simpa using find?_some hf
      have hs := inj_on_of_nodup_map hi (mem_of_find?_eq_some hf) hmem hid
      rw [hs]

variable {site : InlineSite}

section Call

variable (I : Interp) (ctx : Context)

/-- The call before the rewrite: the arguments from left to right, then the
callee in a frame of its own. -/
def evalCall (functions : List Function) (steps : Nat) (name : String)
    (arguments : List Expression) (state : State I) :
    Option (Except I.Failure (List I.Value) × State I) :=
  (functions.find? (·.id == name)).bind fun function =>
    match evalExpressions I ctx arguments state with
    | (.error failure, state) => some (.error failure, state)
    | (.ok values, state) =>
      (callFunction I function steps values state.world).map
        fun (result, world) => (result, { state with world })

/-- The arguments converted to the types of the parameters that hold them. -/
def bindParameters (localType : String → TypeRef) :
    List String → List I.Value → (String → I.Value) → Except I.Failure (String → I.Value)
  | [], [], locals => .ok locals
  | parameter :: parameters, value :: values, locals => do
      let stored ← I.coerce (localType parameter) value
      bindParameters localType parameters values (Function.update locals parameter stored)
  | _, _, _ => .error I.arity

theorem storeTargets_parameters {fn : Context}
    (he : ∀ name, fn.exposed name = false) (parameters : List String)
    (vals : List I.Value) (st : State I) :
    ∃ stored, storeTargets I fn (parameters.map (.localVar · true)) vals st =
        ((fun _ => ()) <$> bindParameters I fn.localType parameters vals
          st.locals, { st with locals := stored }) ∧
      ∀ locals, bindParameters I fn.localType parameters vals
        st.locals = .ok locals → stored = locals := by
  induction parameters generalizing vals st with
  | nil =>
    cases vals with
    | nil => exact ⟨st.locals, rfl, fun locals h => by cases h; rfl⟩
    | cons val vals => exact ⟨st.locals, rfl, fun locals h => by cases h⟩
  | cons param parameters ih =>
    cases vals with
    | nil => exact ⟨st.locals, rfl, fun locals h => by cases h⟩
    | cons val vals =>
      simp only [map_cons, storeTargets, bindParameters, storeTarget]
      cases hc : I.coerce (fn.localType param) val with
      | error failure =>
        refine ⟨st.locals, Eval.bind_error ?_, fun locals h => by cases h⟩
        simp [storeLocal, hc]
      | ok converted =>
        obtain ⟨stored, heq, hst⟩ := ih vals { st with
            locals := Function.update st.locals param converted }
        have hs : storeLocal I fn param true val st = (.ok (), { st with
              locals := Function.update st.locals param converted }) := by
          simp [storeLocal, hc, he param]
        exact ⟨stored, (Eval.bind_ok hs).trans heq, hst⟩

/-- The outcome of the call before the rewrite. -/
def callOutcome (function : Function) (candidate : InlineCandidate)
    (state : State I) (arguments : List Expression) :
    Except I.Failure I.Value := do
  let values ← arguments.mapM (pureOutcome I ctx state)
  let locals ← bindParameters I function.localType candidate.parameters values
    fun name => I.zero (function.localType name)
  let result ← evalPure I ⟨function.id, 0⟩ state.world
    (fun name => .ok (locals name)) candidate.result
  I.coerce (function.signature.results.headD {}) result

/-- The outcome of the callee's expression when a parameter's read has the
outcome of its argument. -/
def inlinedOutcome (candidate : InlineCandidate) (state : State I)
    (arguments : List Expression) : Except I.Failure I.Value :=
  evalPure I ctx.site state.world (fun name =>
      match argumentOf candidate.parameters arguments name with
      | some argument => pureOutcome I ctx state argument
      | none => .ok (readLocal I ctx state name))
    candidate.result

variable {function : Function} {candidate : InlineCandidate}

/-- Returning the candidate's expression only reads the frame. -/
theorem execStatement_candidate
    (hcandidate : inlineCandidate function = some candidate) (st : State I) :
    (execStatement I function.context (.returnValues [candidate.result])).Reads st
      (Signal.returned <$> ([·]) <$> do
        let res ← evalPure I ⟨function.id, 0⟩ st.world
          (fun name => .ok (st.locals name)) candidate.result
        I.coerce (function.signature.results.headD {}) res) := by
  obtain ⟨-, -, ⟨type, hr⟩, -⟩ := inlineCandidate_eq_some hcandidate
  have hp := inlineCandidate_result_isPure hcandidate
  have hrd := evalExpressions_reads_of_isPure I function.context st
    [candidate.result] (by simpa using hp)
  have hl : ∀ name, readLocal I function.context st name = st.locals name := by
    intro name
    simp [readLocal, context_not_exposed hcandidate name]
  simp only [mapM_cons, mapM_nil, pure_bind, pureOutcome, hl] at hrd
  simp only [map_bind]
  refine hrd.bind_map fun res => ?_
  have hc : (Eval.lift (coerceResults I function.context.resultTypes
      [res])).Reads st (([·]) <$> I.coerce type res) := by
    simp only [Function.context, hr, coerceResults]
    cases I.coerce type res <;> rfl
  simp only [hr, headD_cons, ← bind_pure_comp, bind_assoc, pure_bind]
  exact hc.bind_map fun _ => Eval.Reads.pure _ _

variable {args : List Expression} {steps : Nat}

/-- A candidate's frame runs one statement. -/
theorem callFunction_candidate (hcandidate : inlineCandidate function = some candidate)
    (hst : 0 < steps) (vals : List I.Value) (world : I.World) :
    callFunction I function steps vals world = some (([·]) <$> (do
        let locals ← bindParameters I function.localType candidate.parameters
          vals fun name => I.zero (function.localType name)
        let res ← evalPure I ⟨function.id, 0⟩ world (fun name => .ok (locals name)) candidate.result
        I.coerce (function.signature.results.headD {}) res), world) := by
  obtain ⟨hb, -, -, hp⟩ := inlineCandidate_eq_some hcandidate
  obtain ⟨stored, heq, hs⟩ := storeTargets_parameters I
    (context_not_exposed hcandidate) candidate.parameters vals
    ⟨fun name => I.zero (function.localType name), world⟩
  obtain ⟨count, rfl⟩ : ∃ count, steps = count + 1 :=
    ⟨steps - 1, by omega⟩
  have htg : (function.locals.take function.signature.params.length).map
      (fun param => StoreTarget.localVar param.id true) =
      candidate.parameters.map (.localVar · true) := by
    rw [hp, map_map]
    rfl
  simp only [callFunction, htg, heq]
  have ht : function.context.localType = function.localType := rfl
  simp only [ht] at hs ⊢
  cases hbi : bindParameters I function.localType candidate.parameters vals
      (fun name => I.zero (function.localType name)) with
  | error failure => rfl
  | ok locals =>
    obtain rfl := hs locals hbi
    obtain ⟨status, hru, hr⟩ := run_single_return I function.context
      (execStatement_candidate I hcandidate ⟨stored, world⟩) count
    change ((run I function.context function.body (count + 1)
        (.at 0, ⟨stored, world⟩)).1.result I).map
      (·, (run I function.context function.body (count + 1) (.at 0, ⟨stored, world⟩)).2.world) = _
    rw [hb, hru]
    simp only [hr]
    rfl

theorem evalCall_eq {name : String} (hf : functions.find? (·.id == name) = some function)
    (hcandidate : inlineCandidate function = some candidate)
    (hsa : args.all inlineArgumentSafe)
    (hs : 0 < steps) (st : State I) :
    evalCall I ctx functions steps name args st =
      some (([·]) <$> callOutcome I ctx function candidate st args, st) := by
  have hp : ∀ arg ∈ args, arg.isPure = true :=
    fun arg hmem =>
      isPure_of_inlineArgumentSafe (all_eq_true.mp hsa arg hmem)
  have hrd := evalExpressions_reads_of_isPure I ctx st args hp
  simp only [Eval.Reads] at hrd
  simp only [evalCall, hf, Option.bind_some, hrd, callOutcome]
  cases args.mapM (pureOutcome I ctx st) with
  | error failure => rfl
  | ok vals =>
    simp only [callFunction_candidate I hcandidate hs]
    rfl

/-- The rewritten call reads the state and has this outcome. -/
theorem evalExpression_replacement (hcandidate : candidate.result.isPure = true)
    (hs : args.all inlineArgumentSafe) (st : State I) :
    evalExpression I ctx (substituteInlineParameters
        (argumentOf candidate.parameters args) candidate.result) st =
      (([·]) <$> inlinedOutcome I ctx candidate st args, st) := by
  have hp : (substituteInlineParameters (argumentOf candidate.parameters args)
      candidate.result).isPure = true :=
    isPure_substituteInlineParameters (fun name arg hf =>
      isPure_of_inlineArgumentSafe (all_eq_true.mp hs arg (argumentOf_mem hf))) hcandidate
  rw [evalExpression_reads_of_isPure I ctx st _ hp,
    pureOutcome, evalPure_substituteInlineParameters I _ _ _ _ _ hcandidate]
  rfl

/-- When the conversions are identities, a parameter holds its argument's value. -/
theorem bindParameters_identity {localType : String → TypeRef} {parameters : List String}
    {arguments : List Expression} {values : List I.Value} {state : State I}
    (hlength : parameters.length = arguments.length)
    (hvalues : arguments.mapM (pureOutcome I ctx state) = .ok values)
    (hsame : ∀ pair ∈ parameters.zip values, I.coerce (localType pair.1) pair.2 = .ok pair.2)
    (locals : String → I.Value) :
    ∃ bound, bindParameters I localType parameters values locals = .ok bound ∧
      ∀ name, (∀ argument, argumentOf parameters arguments name = some argument →
          pureOutcome I ctx state argument = .ok (bound name)) ∧
        (argumentOf parameters arguments name = none → bound name = locals name) := by
  induction parameters generalizing arguments values locals with
  | nil =>
    obtain rfl := length_eq_zero_iff.mp hlength.symm
    rw [mapM_nil] at hvalues
    cases hvalues
    exact ⟨locals, rfl, fun name => ⟨fun argument hnone => (by cases hnone), fun _ => rfl⟩⟩
  | cons parameter parameters ih =>
    cases arguments with
    | nil => cases hlength
    | cons argument arguments =>
      rw [mapM_cons] at hvalues
      cases hfirst : pureOutcome I ctx state argument with
      | error failure =>
        rw [hfirst] at hvalues
        cases hvalues
      | ok value =>
        rw [hfirst] at hvalues
        cases hrest : arguments.mapM (pureOutcome I ctx state) with
        | error failure =>
          rw [hrest] at hvalues
          cases hvalues
        | ok rest =>
          rw [hrest] at hvalues
          obtain rfl : value :: rest = values := Except.ok.inj hvalues
          obtain ⟨bound, hbound, hnames⟩ := ih (Nat.succ.inj hlength) hrest
            (fun pair hpair => hsame pair (mem_cons_of_mem _ hpair))
            (Function.update locals parameter value)
          refine ⟨bound, ?_, fun name => ?_⟩
          · rw [bindParameters, hsame (parameter, value) mem_cons_self]
            exact hbound
          · rw [argumentOf]
            cases hfound : argumentOf parameters arguments name with
            | some found =>
              exact ⟨fun other hother => (hnames name).1 other (hfound.trans hother),
                fun hnone => by cases hnone⟩
            | none =>
              have hlast := (hnames name).2 hfound
              by_cases heq : parameter = name
              · subst heq
                rw [Function.update_self] at hlast
                simp only [if_true, Option.some.injEq, reduceCtorEq, false_implies, and_true]
                rintro other rfl
                rw [hlast]
                exact hfirst
              · rw [Function.update_of_ne (Ne.symm heq)] at hlast
                simp [heq, hlast]

/-- The names of the parameters of a function. -/
def parameterNames (function : Function) : List String :=
  (function.locals.take function.signature.params.length).map (·.id)

/-- A call of a function that returns one expression, whose outcome does not depend on how
its arguments are passed. Either every argument has a value and the conversions to the types
of the parameters and of the result, and those of the callee's literals, leave what they
convert as it is; or an argument fails, and the first failure that the returned expression
comes to, before it applies an operator, is that of the first argument that fails. -/
inductive Undisturbed (function : Function) (result : Expression) (state : State I)
    (arguments : List Expression) : Prop where
  | values {values : List I.Value}
      (arguments_ok : arguments.mapM (pureOutcome I ctx state) = .ok values)
      (parameters : ∀ pair ∈ (parameterNames function).zip values,
        I.coerce (function.localType pair.1) pair.2 = .ok pair.2)
      (literals : I.literal ⟨function.id, 0⟩ = I.literal ctx.site)
      (returned : ∀ bound, bindParameters I function.localType (parameterNames function) values
          (fun name => I.zero (function.localType name)) = .ok bound → ∀ value,
        evalPure I ⟨function.id, 0⟩ state.world (fun name => .ok (bound name)) result =
          .ok value → I.coerce (function.signature.results.headD {}) value = .ok value)
  | failure {failure : I.Failure}
      (argument : arguments.mapM (pureOutcome I ctx state) = .error failure)
      (leads : result.leadingReads.findSome? (fun name =>
        (((parameterNames function).zip arguments).reverse.lookup name).bind fun argument =>
          failureOf (pureOutcome I ctx state argument)) = some failure)

/-- The rewritten call has the outcome of the call. -/
theorem Undisturbed.callOutcome_eq {state : State I}
    (hcandidate : inlineCandidate function = some candidate)
    (hlength : candidate.parameters.length = args.length)
    (h : Undisturbed I ctx function candidate.result state args) :
    callOutcome I ctx function candidate state args =
      inlinedOutcome I ctx candidate state args := by
  obtain ⟨-, ⟨_, hinspected⟩, -, hnames⟩ := inlineCandidate_eq_some hcandidate
  cases h with
  | @values values hvalues hparameters hliterals hreturned =>
    rw [parameterNames, ← hnames] at hparameters hreturned
    obtain ⟨bound, hbound, hreads⟩ := bindParameters_identity I ctx hlength hvalues hparameters
      fun name => I.zero (function.localType name)
    have hsame : evalPure I ⟨function.id, 0⟩ state.world (fun name => .ok (bound name))
        candidate.result = inlinedOutcome I ctx candidate state args := by
      refine evalPure_congr hinspected hliterals fun name hname => ?_
      obtain ⟨argument, hargument⟩ :=
        Option.ne_none_iff_exists'.mp (argumentOf_ne_none hlength hname)
      rw [hargument]
      exact ((hreads name).1 argument hargument).symm
    have hcoerce := hreturned bound hbound
    rw [hsame] at hcoerce
    simp only [callOutcome, hvalues, Bind.bind, Except.bind, hbound, hsame]
    cases hout : inlinedOutcome I ctx candidate state args with
    | error failure => rfl
    | ok value => exact hcoerce value hout
  | @failure failure hfailure hleads =>
    simp only [callOutcome, hfailure]
    refine (evalPure_of_leadingReads (Eq.trans ?_ hleads)).symm
    refine congrArg (candidate.result.leadingReads.findSome? ·) (funext fun name => ?_)
    rw [parameterNames, ← hnames, ← argumentOf_eq_lookup]
    cases argumentOf candidate.parameters args name <;> rfl

end Call

/-- A site of the pass, as one rewrite sees it. -/
def InlineSite.Valid (functions : List Function) (site : InlineSite) : Prop :=
  ∃ modulePath, inlineCall functions site.owner
    (.callDirect modulePath site.function) 1 site.arguments = some site.replacement

theorem inlineCall_eq_some {owner : String}
    {op : Operation} {resultCount : Nat} {arguments : List Expression}
    {replacement : Expression}
    (hc : inlineCall functions owner op resultCount arguments = some replacement) :
    ∃ modulePath name candidate, op = .callDirect modulePath name ∧ resultCount = 1 ∧
      findInlineCandidate functions name = some candidate ∧
      candidate.parameters.length = arguments.length ∧ arguments.all inlineArgumentSafe ∧
      replacement = substituteInlineParameters
        (argumentOf candidate.parameters arguments) candidate.result := by
  unfold inlineCall at hc
  split at hc
  case h_2 => cases hc
  case h_1 modulePath name =>
    split at hc
    case isTrue => cases hc
    case isFalse hd =>
      simp only [not_or, Decidable.not_not] at hd
      simp only [Option.bind_eq_bind, Option.bind_eq_some_iff] at hc
      obtain ⟨candidate, hf, hc⟩ := hc
      split at hc
      case isFalse => cases hc
      case isTrue hs =>
        cases hc
        exact ⟨modulePath, name, candidate, rfl, hd.2.2, hf, hs.1, hs.2, rfl⟩

theorem mem_rewriteInlineCallsAll {owner : String} {exprs : List Expression} :
    site ∈ (rewriteInlineCallsAll functions owner exprs).2 ↔ ∃ expr ∈ exprs,
        site ∈ (rewriteInlineCalls functions owner expr).2 := by
  induction exprs with
  | nil => simp [rewriteInlineCallsAll]
  | cons head tail ih => simp [rewriteInlineCallsAll, ih]

theorem rewriteInlineCalls_sites_valid (functions : List Function)
    (owner : String) (expr : Expression) :
    ∀ site ∈ (rewriteInlineCalls functions owner expr).2, site.Valid functions := by
  intro site hs
  induction expr with
  | letIn name bound body ihBound ihBody | letResults names bound body ihBound ihBody =>
    simp only [rewriteInlineCalls, mem_append] at hs
    exact hs.elim ihBound ihBody
  | unary type oper opd ih =>
    exact ih hs
  | binary type oper left right ihLeft ihRight =>
    simp only [rewriteInlineCalls, mem_append] at hs
    exact hs.elim ihLeft ihRight
  | apply op type resultCount resultTypes opds ih =>
    have hop : site ∈ (rewriteInlineCallsAll functions owner opds).2 → site.Valid functions := by
      intro hmem
      obtain ⟨opd, ho, hin⟩ := mem_rewriteInlineCallsAll.mp hmem
      exact ih opd ho hin
    simp only [rewriteInlineCalls] at hs
    split at hs
    case h_1 modulePath name replacement hc =>
      rcases mem_append.mp hs with hmem | hmem
      · exact hop hmem
      · obtain rfl := mem_singleton.mp hmem
        obtain ⟨_, _, _, _, rfl, _⟩ := inlineCall_eq_some hc
        exact ⟨modulePath, hc⟩
    case h_2 => exact hop hs
  | _ => simp [rewriteInlineCalls] at hs

/-- Every call the pass replaces is a valid site. -/
theorem inlineSmallPureCalls_sites_valid
    (hs : site ∈ (inlineSmallPureCalls functions).2) :
    site.Valid functions := by
  have hb : ∀ owner body, ∀ site ∈ (rewriteInlineBody functions owner body).2,
        site.Valid functions := by
    intro owner body site hmem
    simp only [rewriteInlineBody, mem_flatMap] at hmem
    obtain ⟨_, _, expr, _, hmem⟩ := hmem
    exact rewriteInlineCalls_sites_valid functions owner expr site hmem
  simp only [inlineSmallPureCalls, mem_flatMap, inlineFunction] at hs
  obtain ⟨function, _, hs⟩ := hs
  split at hs
  · simp at hs
  · exact (mem_append.mp hs).elim (hb _ _ site) (hb _ _ site)

section Divergence

open MiniGo.Runtime

/-- `func ignore(value bool) bool { return true }` and a caller that passes
`left == right` for two operands of type `any`. -/
def ignoringFunctions : List Function :=
  [{ id := "ignore"
     signature := { params := [.builtin .bool], results := [.builtin .bool] }
     locals := [⟨"value", .builtin .bool⟩]
     body := [.returnValues [.literal (.builtin .bool) false "" (some { text := "true" })]] },
   { id := "caller"
     signature := { params := [.anyType, .anyType], results := [.builtin .bool] }
     locals := [⟨"left", .anyType⟩, ⟨"right", .anyType⟩]
     body := [.returnValues [.apply (.callDirect "" "ignore") {} 1 [.builtin .bool]
         [.binary (.builtin .bool) .equal (.localVar .anyType false "left")
           (.localVar .anyType false "right")]]] }]

/-- The call of `ignore` that the pass replaces. -/
def ignoringSite : InlineSite where
  owner := "caller"
  function := "ignore"
  arguments :=
    [.binary (.builtin .bool) .equal (.localVar .anyType false "left")
      (.localVar .anyType false "right")]
  replacement := .literal (.builtin .bool) false "" (some { text := "true" })

def ignoringContext : Context where
  site := ⟨"caller", 0⟩
  localType _ := .anyType
  resultTypes := [.builtin .bool]
  exposed _ := false

/-- Both operands hold a value of the given dynamic type. -/
def boxedOperands (type : TypeRef) : State (comparingMachine flatTypes) where
  locals _ := .box .anyType (.plain type "")
  world _ := .nilBox .anyType

theorem ignoringSite_mem : ignoringSite ∈ (inlineSmallPureCalls ignoringFunctions).2 := by
  have hs : (inlineSmallPureCalls ignoringFunctions).2 = [ignoringSite] := rfl
  simp [hs]

end Divergence

end MiniGo.Hir
