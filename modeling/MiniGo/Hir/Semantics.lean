/-
What one frame does with its function body.

The frame owns the locals whose address is never taken and that no closure
captures; everything else a statement can reach (shared cells, globals, the
heap, other frames, the host) is the `World` of an `Interp`, and the only way
to act on it is through the interpretation's own functions. An interpretation
is arbitrary, so a result about `run` holds for every machine around the frame.
-/
import MiniGo.Hir.Syntax

namespace MiniGo.Hir

open List

/-- The statement kinds that evaluate their operands and then act on the
world. -/
inductive Action where
  | mapIterInit (iterator : String)
  | mapIterClose (iterator : String)
  | storeUpvalue (name : String)
  | storeGlobal (name : String)
  | storeIndex
  | storeField (field : String)
  | storeIndirect
  | chanSend
  | spawn
  | initModule (modulePath : String)
  | defer (ownerDepth : Nat)
deriving Repr, DecidableEq

/-- The statement that evaluates a literal. The emitter keeps a constant of
its own for every literal that is not primitive, so such a literal is one
object for each place it stands at. -/
structure Site where
  function : String
  pc : Nat
deriving Repr, DecidableEq

/-- The machine around a frame. `coerce` is the assignment conversion that
`slot.store` and a return apply to a value; a `Failure` is a panic or an error
that ends the frame. -/
structure Interp where
  Value : Type
  Failure : Type
  World : Type
  literal : Site → TypeRef → Bool → Option ConstantValue → Value
  constant : String → Value
  zero : TypeRef → Value
  coerce : TypeRef → Value → Except Failure Value
  truth : Value → Except Failure Bool
  ofBool : Bool → Value
  unary : UnaryOperator → World → Value → Except Failure Value
  binary : BinaryOperator → World → Value → Value → Except Failure Value
  upvalue : World → String → Value
  global : World → String → Value
  loadCell : World → String → Value
  storeCell : World → String → Bool → Value → World
  perform : Operation → TypeRef → List TypeRef → List Value → World →
    Except Failure (List Value) × World
  act : Action → List Value → World → Except Failure Unit × World
  raise : List Value → World → Failure
  select : List (Value × Option Value) → Bool → World →
    Except Failure (Option Nat × Value × Value × Value) × World
  matchType : World → Value → TypeRef → Option Value
  arity : Failure

/-- What the function declares: the types of its locals and results, and which
locals live in shared cells; and the statement in execution. -/
structure Context where
  site : Site
  localType : String → TypeRef
  resultTypes : List TypeRef
  exposed : String → Bool

def Context.atPC (ctx : Context) (pc : Nat) : Context :=
  { ctx with site.pc := pc }

def Variable.localName : Variable → Option String
  | .localVar name => some name
  | _ => none

def AddressSegment.localName : AddressSegment → Option String
  | .index name => some name
  | _ => none

/-- The locals an operation reaches by name rather than by value. -/
def Operation.exposedLocals : Operation → List String
  | .function _ _ captures => captures.filterMap Variable.localName
  | .addressOf (.variable target) path =>
    target.localName.toList ++ path.filterMap AddressSegment.localName
  | .addressOf (.exported ..) path => path.filterMap AddressSegment.localName
  | _ => []

mutual

def Expression.exposedLocals : Expression → List String
  | .letIn _ bound body => bound.exposedLocals ++ body.exposedLocals
  | .letResults _ bound body => bound.exposedLocals ++ body.exposedLocals
  | .unary _ _ operand => operand.exposedLocals
  | .binary _ _ left right => left.exposedLocals ++ right.exposedLocals
  | .apply operation _ _ _ operands =>
    operation.exposedLocals ++ exposedLocalsOf operands
  | _ => []

def exposedLocalsOf : List Expression → List String
  | [] => []
  | expression :: rest => expression.exposedLocals ++ exposedLocalsOf rest

end

/-- The context in which a function's frame runs. -/
def Function.context (function : Function) : Context where
  site := ⟨function.id, 0⟩
  localType := function.localType
  resultTypes := function.signature.results
  exposed name :=
    function.body.any fun statement =>
      (exposedLocalsOf statement.expressions).contains name

variable (I : Interp) (ctx : Context)

structure State where
  locals : String → I.Value
  world : I.World

/-- A computation of the frame; a failure keeps the effects made before it. -/
def Eval (α : Type) : Type :=
  State I → Except I.Failure α × State I

namespace Eval

variable {I} {α β : Type}

def pure (value : α) : Eval I α :=
  fun state => (.ok value, state)

def bind (first : Eval I α) (next : α → Eval I β) : Eval I β :=
  fun state =>
    match first state with
    | (.ok value, state) => next value state
    | (.error failure, state) => (.error failure, state)

instance : Monad (Eval I) where
  pure := pure
  bind := bind

def lift (result : Except I.Failure α) : Eval I α :=
  fun state => (result, state)

/-- A computation of the world alone. -/
def external (action : I.World → Except I.Failure α × I.World) : Eval I α :=
  fun state =>
    let (result, world) := action state.world
    (result, { state with world })

def inspect (read : I.World → Except I.Failure α) : Eval I α :=
  fun state => (read state.world, state)

variable {first : Eval I α} {next : α → Eval I β} {state state' : State I}

theorem bind_ok {val : α} (hf : first state = (.ok val, state')) :
    (first >>= next) state = next val state' := by
  change Eval.bind first next state = _
  simp [Eval.bind, hf]

theorem bind_error {failure : I.Failure} (hf : first state = (.error failure, state')) :
    (first >>= next) state = (.error failure, state') := by
  change Eval.bind first next state = _
  simp [Eval.bind, hf]

/-- The computation only looks at the state. -/
def Reads (computation : Eval I α) (state : State I)
    (outcome : Except I.Failure α) : Prop :=
  computation state = (outcome, state)

theorem Reads.pure (val : α) (state : State I) :
    Reads (Pure.pure val : Eval I α) state (.ok val) := rfl

theorem Reads.lift (outcome : Except I.Failure α) (state : State I) :
    Reads (Eval.lift outcome) state outcome := rfl

theorem Reads.inspect (read : I.World → Except I.Failure α) (state : State I) :
    Reads (Eval.inspect read) state (read state.world) := rfl

theorem Reads.bind {out : Except I.Failure α} {following : α → Except I.Failure β}
    (hf : Reads first state out)
    (hnext : ∀ val, Reads (next val) state (following val)) :
    Reads (first >>= next) state (out >>= following) := by
  cases out with
  | error failure => exact bind_error hf
  | ok val => exact (bind_ok hf).trans (hnext val)

theorem Reads.bind_map {γ : Type} {wrap : γ → α} {out : Except I.Failure γ}
    {following : γ → Except I.Failure β}
    (hf : Reads first state (wrap <$> out))
    (hnext : ∀ val, Reads (next (wrap val)) state (following val)) :
    Reads (first >>= next) state (out >>= following) := by
  cases out with
  | error failure => exact bind_error hf
  | ok val => exact (bind_ok hf).trans (hnext val)

end Eval

/-- Exactly one operand, as the emitted instruction takes it. -/
def expectOne : List I.Value → Eval I I.Value
  | [value] => pure value
  | _ => Eval.lift (.error I.arity)

/-- An instruction writes as many results as it has outputs. -/
def expectCount (count : Nat) (values : List I.Value) : Eval I (List I.Value) :=
  if values.length = count then pure values else Eval.lift (.error I.arity)

def loadLocal (name : String) : Eval I I.Value :=
  fun state =>
    (.ok (if ctx.exposed name then I.loadCell state.world name
      else state.locals name), state)

/-- `slot.store`: the value is converted to the local's declared type. -/
def storeLocal (name : String) (rebind : Bool) (value : I.Value) :
    Eval I Unit :=
  fun state =>
    match I.coerce (ctx.localType name) value with
    | .error failure => (.error failure, state)
    | .ok stored =>
      if ctx.exposed name then
        (.ok (), { state with
          world := I.storeCell state.world name rebind stored })
      else
        (.ok (), { state with
          locals := Function.update state.locals name stored })

/-- Let bindings are stored from the last to the first. -/
def storeBindings : List String → List I.Value → Eval I Unit
  | [], [] => pure ()
  | name :: names, value :: values => do
      storeBindings names values
      storeLocal I ctx name true value
  | _, _ => Eval.lift (.error I.arity)

def evalUnary (operator : UnaryOperator) (operand : I.Value) :
    Eval I (List I.Value) :=
  Eval.inspect fun world => (I.unary operator world operand).map ([·])

def evalBinary (operator : BinaryOperator) (left right : I.Value) :
    Eval I (List I.Value) :=
  Eval.inspect fun world => (I.binary operator world left right).map ([·])

/-- The short-circuit operators: the value of the left operand on which the
right one is not evaluated. -/
def shortCircuit : BinaryOperator → Option Bool
  | .logicalAnd => some false
  | .logicalOr => some true
  | _ => none

mutual

/-- The values an expression yields, in the evaluation order of the emitter. -/
def evalExpression : Expression → Eval I (List I.Value)
  | .literal type untyped _ value =>
    pure [I.literal ctx.site type untyped value]
  | .const _ _ constantID _ => pure [I.constant constantID]
  | .zero type => pure [I.zero type]
  | .localVar _ _ name => do
      let value ← loadLocal I ctx name
      pure [value]
  | .upvalue _ name => Eval.inspect fun world => .ok [I.upvalue world name]
  | .global _ name => Eval.inspect fun world => .ok [I.global world name]
  | .letIn name bound body => do
      let values ← evalExpression bound
      storeBindings I ctx [name] values
      evalExpression body
  | .letResults names bound body => do
      let values ← evalExpression bound
      storeBindings I ctx names values
      evalExpression body
  | .unary _ operator operand => do
      let value ← evalExpression operand >>= expectOne I
      evalUnary I operator value
  | .binary _ operator left right => do
      let leftValue ← evalExpression left >>= expectOne I
      match shortCircuit operator with
      | some short =>
        let decided ← Eval.lift (I.truth leftValue)
        if decided = short then
          pure [I.ofBool short]
        else
          let rightValue ← evalExpression right >>= expectOne I
          let result ← Eval.lift (I.truth rightValue)
          pure [I.ofBool result]
      | none =>
        let rightValue ← evalExpression right >>= expectOne I
        evalBinary I operator leftValue rightValue
  | .apply operation type resultCount resultTypes operands => do
      let values ← evalExpressions operands
      match operation with
      | .values => pure values
      | _ =>
        let results ← Eval.external (I.perform operation type resultTypes values)
        expectCount I (Expression.apply operation type resultCount resultTypes
            operands).count results

def evalExpressions : List Expression → Eval I (List I.Value)
  | [] => pure []
  | expression :: rest => do
      let values ← evalExpression expression
      let others ← evalExpressions rest
      pure (values ++ others)

end

/-- What a statement leaves to the frame's program counter. -/
inductive Signal where
  | next
  | goto (label : String)
  | returned (values : List I.Value)
  | tailCall (call : Operation) (arguments : List I.Value)

def storeTarget : StoreTarget → I.Value → Eval I Unit
  | .localVar name rebind, value => storeLocal I ctx name rebind value
  | .upvalue name, value => Eval.external (I.act (.storeUpvalue name) [value])
  | .global name, value => Eval.external (I.act (.storeGlobal name) [value])
  | .discard, _ => pure ()

/-- All right-hand values are known before the first target is written. -/
def storeTargets : List StoreTarget → List I.Value → Eval I Unit
  | [], [] => pure ()
  | target :: targets, value :: values => do
      storeTarget I ctx target value
      storeTargets targets values
  | _, _ => Eval.lift (.error I.arity)

/-- The assignment conversion of a return. -/
def coerceResults : List TypeRef → List I.Value → Except I.Failure (List I.Value)
  | [], [] => .ok []
  | type :: types, value :: values => do
      let result ← I.coerce type value
      let results ← coerceResults types values
      pure (result :: results)
  | _, _ => .error I.arity

/-- A store whose destination may be absent. -/
def storeOptional (name : String) (value : I.Value) : Eval I Unit :=
  if name = "" then pure () else storeLocal I ctx name false value

def loadSelectCase (selected : SelectCase) :
    Eval I (I.Value × Option I.Value) := do
  let channel ← loadLocal I ctx selected.channel
  if selected.send = "" then
    pure (channel, none)
  else
    let send ← loadLocal I ctx selected.send
    pure (channel, some send)

def loadSelectCases : List SelectCase → Eval I (List (I.Value × Option I.Value))
  | [] => pure []
  | selected :: rest => do
      let operands ← loadSelectCase I ctx selected
      let others ← loadSelectCases rest
      pure (operands :: others)

def storeSelected (cases : List SelectCase) :
    Option Nat × I.Value × I.Value × I.Value → String → Eval I Unit
  | (chosen, index, value, ok), indexLocal => do
      storeLocal I ctx indexLocal false index
      match chosen.bind (cases[·]?) with
      | none => pure ()
      | some selected => do
          storeOptional I ctx selected.value value
          storeOptional I ctx selected.ok ok

/-- The first matching case of a type dispatch, in source order. -/
def dispatchType (subject : I.Value) (defaultLabel defaultLocal : String) :
    List TypeCase → Eval I (Signal I)
  | [] => do
      storeOptional I ctx defaultLocal subject
      pure (.goto defaultLabel)
  | typeCase :: rest => do
      let matched ← Eval.inspect fun world =>
        .ok (I.matchType world subject typeCase.type)
      match matched with
      | none => dispatchType subject defaultLabel defaultLocal rest
      | some bound => do
          storeOptional I ctx typeCase.binding (if typeCase.original then subject else bound)
          pure (.goto typeCase.label)

/-- A statement that evaluates its operands and then acts on the world. -/
def execAction (action : Action) (operands : List Expression) :
    Eval I (Signal I) := do
  let values ← evalExpressions I ctx operands
  Eval.external (I.act action values)
  pure .next

def execStatement : Statement → Eval I (Signal I)
  | .expr expression => do
      let _ ← evalExpression I ctx expression
      pure .next
  | .mapIterInit iterator expression =>
    execAction I ctx (.mapIterInit iterator) [expression]
  | .mapIterClose iterator => execAction I ctx (.mapIterClose iterator) []
  | .returnValues results => do
      let values ← evalExpressions I ctx results
      let values ← Eval.lift (coerceResults I ctx.resultTypes values)
      pure (.returned values)
  | .tailCallDirect (.apply call _ _ _ arguments) => do
      let values ← evalExpressions I ctx arguments
      pure (.tailCall call values)
  | .tailCallDirect _ => Eval.lift (.error I.arity)
  | .storeLocal name rebind expression => do
      let value ← evalExpression I ctx expression >>= expectOne I
      storeLocal I ctx name rebind value
      pure .next
  | .storeUpvalue name expression =>
    execAction I ctx (.storeUpvalue name) [expression]
  | .storeGlobal name expression =>
    execAction I ctx (.storeGlobal name) [expression]
  | .storeResults targets expression => do
      let values ← evalExpression I ctx expression
      storeTargets I ctx targets values
      pure .next
  | .storeValues targets expressions => do
      let values ← evalExpressions I ctx expressions
      storeTargets I ctx targets values
      pure .next
  | .storeIndex object index expression =>
    execAction I ctx .storeIndex [object, index, expression]
  | .storeField object field expression =>
    execAction I ctx (.storeField field) [object, expression]
  | .storeIndirect object expression =>
    execAction I ctx .storeIndirect [object, expression]
  | .chanSend object expression =>
    execAction I ctx .chanSend [object, expression]
  | .select index cases hasDefault => do
      let operands ← loadSelectCases I ctx cases
      let result ← Eval.external (I.select operands hasDefault)
      storeSelected I ctx cases result index
      pure .next
  | .spawn expression args => execAction I ctx .spawn (expression :: args)
  | .initModule modulePath => execAction I ctx (.initModule modulePath) []
  | .panic expression => do
      let values ← evalExpressions I ctx [expression]
      Eval.inspect fun world => .error (I.raise values world)
  | .defer expression ownerDepth =>
    execAction I ctx (.defer ownerDepth) [expression]
  | .label _ => pure .next
  | .jump target => pure (.goto target)
  | .jumpIf condition target negated => do
      let value ← evalExpression I ctx condition >>= expectOne I
      let decided ← Eval.lift (I.truth value)
      pure (if decided = negated then .next else .goto target)
  | .typeDispatch subject cases defaultLabel defaultLocal => do
      let value ← loadLocal I ctx subject
      dispatchType I ctx value defaultLabel defaultLocal cases

def Statement.isLabel (name : String) : Statement → Bool
  | .label other => other == name
  | _ => false

/-- Where a label is defined; the last definition of a name counts, as in the
maps that the compiler and the loader build. -/
def labelIndex (body : List Statement) (name : String) : Option Nat :=
  (body.zipIdx.reverse.find? (·.1.isLabel name)).map (·.2)

/-- Where a frame stands. -/
inductive Status where
  | at (pc : Nat)
  | returned (values : List I.Value)
  | tailCalled (call : Operation) (arguments : List I.Value)
  | failed (failure : I.Failure)

def Signal.status (body : List Statement) (pc : Nat) : Signal I → Status I
  | .next => .at (pc + 1)
  | .goto label =>
    match labelIndex body label with
    | some target => .at target
    | none => .failed I.arity
  | .returned values => .returned values
  | .tailCall call arguments => .tailCalled call arguments

/-- One statement of the body; a frame that has left the body stays as it is. -/
def step (body : List Statement) : Status I × State I → Status I × State I
  | (.at pc, state) =>
    match body[pc]? with
    | none => (.at pc, state)
    | some statement =>
      match execStatement I (ctx.atPC pc) statement state with
      | (.ok signal, state) => (signal.status I body pc, state)
      | (.error failure, state) => (.failed failure, state)
  | finished => finished

def run (body : List Statement) : Nat → Status I × State I → Status I × State I
  | 0, config => config
  | steps + 1, config => run body steps (step I ctx body config)

/-- How a frame that has left its body ended. -/
def Status.result : Status I → Option (Except I.Failure (List I.Value))
  | .returned values => some (.ok values)
  | .failed failure => some (.error failure)
  | _ => none

variable {body : List Statement} {status : Status I}

theorem run_ended (he : ∀ pc, status ≠ .at pc) (steps : Nat) (state : State I) :
    run I ctx body steps (status, state) = (status, state) := by
  induction steps with
  | zero => rfl
  | succ steps ih =>
    cases status with
    | «at» pc => exact absurd rfl (he pc)
    | returned | tailCalled | failed => exact ih

theorem run_of_result {out : Except I.Failure (List I.Value)}
    (hr : status.result I = some out) (steps : Nat) (state : State I) :
    run I ctx body steps (status, state) = (status, state) := by
  refine run_ended I ctx (fun pc hs => ?_) steps state
  simp [hs, Status.result] at hr

/-- A body of one returning statement ends in its first step. -/
theorem run_single_return {stmt : Statement} {state : State I}
    {values : Except I.Failure (List I.Value)}
    (hrd : (execStatement I (ctx.atPC 0) stmt).Reads state
      (Signal.returned <$> values)) (steps : Nat) :
    ∃ status : Status I, run I ctx [stmt] (steps + 1) (.at 0, state) = (status, state) ∧
        status.result I = some values := by
  have he : ∃ status : Status I, step I ctx [stmt] (.at 0, state) = (status, state) ∧
      status.result I = some values := by
    simp only [step, getElem?_cons_zero]
    rw [hrd]
    cases values with
    | error failure => exact ⟨.failed failure, rfl, rfl⟩
    | ok values => exact ⟨.returned values, rfl, rfl⟩
  obtain ⟨status, hs, hr⟩ := he
  refine ⟨status, ?_, hr⟩
  rw [run, hs]
  exact run_of_result I ctx hr steps state

/-- A call whose frame runs for at most `steps` statements; `none` when it has
not ended by then. The locals start as zero values and the converted arguments
are stored in the first ones. -/
def callFunction (function : Function) (steps : Nat) (arguments : List I.Value)
    (world : I.World) : Option (Except I.Failure (List I.Value) × I.World) :=
  let parameters :=
    (function.locals.take function.signature.params.length).map
      fun parameter => StoreTarget.localVar parameter.id true
  match storeTargets I function.context parameters arguments
      ⟨fun name => I.zero (function.localType name), world⟩ with
  | (.error failure, state) => some (.error failure, state.world)
  | (.ok (), state) =>
    let (status, state) :=
      run I function.context function.body steps (.at 0, state)
    (status.result I).map (·, state.world)

end MiniGo.Hir
