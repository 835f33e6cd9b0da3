/-
Activations, deferred calls, panics and recovery (`runtime/scheduler_state.go`,
`runtime/scheduler_control.go`, `runtime/scheduler_completion.go`).

A task is a stack of frames. What the guest code does is left open: a run is any
sequence of the instructions that touch the stack, together with writes to the result
locals of any active frame, which closures and other tasks may make at any time.

Frames and panics have identities, which stand for their addresses. A task also
keeps how every activation was started and a log of what has happened; the source
has neither, and no decision depends on them.
-/
import MiniGo.Lib.Result

namespace MiniGo.Runtime.Frames

abbrev ActivationId := Nat

/-- `machinePanic`. -/
structure MachinePanic (V : Type) where
  id : Nat
  value : V
deriving Repr, DecidableEq

/-- The part of a loaded function that calls and returns read. -/
structure Function where
  resultTypes : List String := []
  resultLocals : List String := []
deriving Repr, DecidableEq

/-- A function value. The value of a yield function knows the activation of the
source function that its loop stands in. -/
structure FunctionRef where
  function : Function
  lexical : Option ActivationId := none
deriving Repr, DecidableEq

/-- `deferredCall`. -/
structure DeferredCall where
  id : Nat
  ref : FunctionRef
deriving Repr, DecidableEq

/-- `frameCompletion`. -/
structure FrameCompletion (V : Type) where
  returnValues : List V := []
  panic : Option (MachinePanic V) := none
  resume : Bool := false
deriving Repr, DecidableEq

/-- What happens in the caller when a frame returns: the results are pushed, or the
caller returns them (a tail call that kept its frame), or the host continues. -/
inductive Resume where
  | push
  | completeCaller
  | host
deriving Repr, DecidableEq

/-- `executionFrame`, with the result locals and the deferred calls of its `frame`.
The call that was deferred last comes first. -/
structure ExecutionFrame (V : Type) where
  id : ActivationId
  function : Function
  lexical : ActivationId
  cells : List (String × V)
  defers : List DeferredCall := []
  expectedResults : Nat := 0
  qualifyResults : Bool := false
  resume : Resume := .push
  deferred : Bool := false
  recoveredPanic : Option (MachinePanic V) := none
  completion : FrameCompletion V := {}
  completionActive : Bool := false
deriving Repr, DecidableEq

/-- How an activation was started. -/
inductive Origin (V : Type) where
  | root
  | called (caller : ActivationId)
  | deferred (owner : ActivationId) (cause : Option (MachinePanic V))
deriving Repr, DecidableEq

/-- An activation that has been started; `lexical` is the activation of the source
function that contains its code. -/
structure Activation (V : Type) where
  origin : Origin V
  lexical : ActivationId
deriving Repr, DecidableEq

/-- How an activation ended. -/
inductive Ending (V : Type) where
  | returned (values : List V)
  | panicked (panic : MachinePanic V)
  | tailCalled
deriving Repr, DecidableEq

/-- What happens to an activation. A deferred call is `registered` by the activation
that runs the defer statement. At the end of a deferred call, the completion of its
owner is `replaced` by a new panic or `restored` to a return. -/
inductive Event (V : Type) where
  | registered (owner : ActivationId) (call : Nat) (source : ActivationId)
  | started (owner : ActivationId) (call : Nat)
  | raised (activation : ActivationId) (panic : MachinePanic V)
  | returning (activation : ActivationId)
  | recovered (activation : ActivationId) (panic : MachinePanic V)
  | replaced (activation : ActivationId) (panic : MachinePanic V)
  | propagated (activation : ActivationId) (panic : MachinePanic V)
  | restored (activation : ActivationId)
  | left (activation : ActivationId) (ending : Ending V)
deriving Repr, DecidableEq

/-- `executionTask`; the running frame comes first. -/
structure Task (V : Type) where
  frames : List (ExecutionFrame V)
  activations : List (Activation V)
  nextPanic : Nat := 0
  nextDefer : Nat := 0
  log : List (Event V) := []
deriving Repr, DecidableEq

/-- What the frames need of the modules: the zero value of a type, the check of a value
against a type, the renaming of the types of exported values, and the value that a
panic with nil carries. -/
structure Modules (V : Type) where
  zeroValue : String → V
  coerceAssignable : V → String → Except String V
  qualifyForExport : V → V
  normalizePanicValue : V → V

namespace ExecutionFrame

variable {V : Type} (modules : Modules V) (frame : ExecutionFrame V)

def setCompletion (completion : FrameCompletion V) : ExecutionFrame V :=
  { frame with completion := completion, completionActive := true }

def clearCompletion : ExecutionFrame V :=
  { frame with completion := {}, completionActive := false }

def hasResultLocals : Bool :=
  !frame.function.resultLocals.isEmpty

def validateReturnValues (values : List V) : Except String (List V) :=
  if values.length ≠ frame.function.resultTypes.length then
    .error "return value count mismatch"
  else
    (values.zip frame.function.resultTypes).mapM fun (value, type) =>
      modules.coerceAssignable value type

/-- The value in the cell of a local. -/
def load (name : String) : Except String V :=
  match frame.cells.lookup name with
  | some value => .ok value
  | none => .error "unknown result local"

def currentResultValues : Except String (List V) :=
  if frame.function.resultTypes.isEmpty then
    .ok []
  else if frame.function.resultLocals.isEmpty then
    frame.validateReturnValues modules (frame.function.resultTypes.map modules.zeroValue)
  else if frame.function.resultLocals.length ≠ frame.function.resultTypes.length then
    .error "result local count mismatch"
  else do
    let values ← frame.function.resultLocals.mapM frame.load
    frame.validateReturnValues modules values

/-- The results of a function whose code ends without a return. -/
def implicitResults : Except String (List V) :=
  if frame.hasResultLocals then frame.currentResultValues modules
  else frame.validateReturnValues modules []

/-- A return of a function with named results takes the values that they have when
its last deferred call is over. -/
def refreshResults : Except String (ExecutionFrame V) :=
  if frame.completion.panic.isNone && frame.hasResultLocals then do
    let values ← frame.currentResultValues modules
    .ok { frame with completion := { frame.completion with returnValues := values } }
  else
    .ok frame

/-- The values that a frame delivers to its caller. -/
def resultValues : List V :=
  if frame.qualifyResults then
    frame.completion.returnValues.map modules.qualifyForExport
  else
    frame.completion.returnValues

/-- A deferred call has recovered the panic of its owner; panics are compared by
identity. -/
def recovers (owner : ExecutionFrame V) : Bool :=
  match frame.recoveredPanic, owner.completion.panic with
  | some recovered, some panic => recovered.id = panic.id
  | _, _ => false

end ExecutionFrame

namespace Task

variable {V : Type} (modules : Modules V) (task : Task V)

/-- `newExecutionFrame`: the result locals start with the zero values of their types. -/
def newExecutionFrame (ref : FunctionRef) : ExecutionFrame V where
  id := task.activations.length
  function := ref.function
  lexical := ref.lexical.getD task.activations.length
  cells := ref.function.resultLocals.zip (ref.function.resultTypes.map modules.zeroValue)

/-- The task with a new activation and new events on record. -/
def enter (frames : List (ExecutionFrame V)) (frame : ExecutionFrame V)
    (origin : Origin V) (events : List (Event V)) : Task V :=
  { task with
    frames := frames
    activations := task.activations ++ [{ origin := origin, lexical := frame.lexical }]
    log := task.log ++ events }

/-- The task with other frames and new events on record. -/
def update (frames : List (ExecutionFrame V)) (events : List (Event V)) : Task V :=
  { task with frames := frames, log := task.log ++ events }

def startPanic (current : ExecutionFrame V) (below : List (ExecutionFrame V))
    (value : V) (events : List (Event V)) : Task V :=
  let panic : MachinePanic V :=
    { id := task.nextPanic, value := modules.normalizePanicValue value }
  { task.update (current.setCompletion { panic := some panic } :: below)
      (events ++ [.raised current.id panic]) with
    nextPanic := task.nextPanic + 1 }

/-- The instruction `preparedCallDirect` and its kind; module initialisers and the
callbacks of the host are frames with a continuation of the host. -/
def call (current : ExecutionFrame V) (below : List (ExecutionFrame V))
    (ref : FunctionRef) (expectedResults : Nat) (qualify host : Bool) : Task V :=
  let callee := { task.newExecutionFrame modules ref with
    expectedResults := expectedResults
    qualifyResults := qualify
    resume := if host then .host else .push }
  task.enter (callee :: current :: below) callee (.called current.id) []

def enterDirectTailCall (current : ExecutionFrame V) (below : List (ExecutionFrame V))
    (function : Function) (resultCount : Nat) (debugging qualify : Bool) : Task V :=
  if !debugging && current.defers.isEmpty && !qualify then
    let callee := { task.newExecutionFrame modules { function := function } with
      expectedResults := current.expectedResults
      qualifyResults := current.qualifyResults
      resume := current.resume
      deferred := current.deferred
      recoveredPanic := current.recoveredPanic }
    task.enter (callee :: below) callee (.called current.id) [.left current.id .tailCalled]
  else
    let callee := { task.newExecutionFrame modules { function := function } with
      expectedResults := resultCount
      qualifyResults := qualify
      resume := .completeCaller }
    task.enter (callee :: current :: below) callee (.called current.id) []

/-- `preparedDeferPush`. -/
def deferPush (current : ExecutionFrame V) (ref : FunctionRef) (ownerDepth : Int) :
    Except String (Task V) :=
  if ownerDepth < 0 then
    .error "defer owner depth exceeds frame stack"
  else
    match task.frames[ownerDepth.toNat]? with
    | none => .error "defer owner depth exceeds frame stack"
    | some owner =>
      let record : DeferredCall := { id := task.nextDefer, ref := ref }
      .ok { task.update
              (task.frames.set ownerDepth.toNat { owner with defers := record :: owner.defers })
              [.registered owner.id record.id current.id] with
            nextDefer := task.nextDefer + 1 }

/-- The frame that `recoverValue` looks at: the running one, or the one that has
called it. -/
def recoverIndex (frames : List (ExecutionFrame V)) : Nat :=
  match frames with
  | top :: _ => if top.deferred then 0 else 1
  | [] => 0

/-- `recoverValue` gives the frames and the panic whose value it returns, if any. -/
def recoverValue (frames : List (ExecutionFrame V)) :
    List (ExecutionFrame V) × Option (MachinePanic V) :=
  match frames[recoverIndex frames]?, frames[recoverIndex frames + 1]? with
  | some frame, some owner =>
    if !frame.deferred || frame.recoveredPanic.isSome || !owner.completionActive then
      (frames, none)
    else
      match owner.completion.panic with
      | none => (frames, none)
      | some panic =>
        (frames.set (recoverIndex frames) { frame with recoveredPanic := some panic }, some panic)
  | _, _ => (frames, none)

/-- `preparedRecover`. -/
def recover (current : ExecutionFrame V) : Task V :=
  match recoverValue task.frames with
  | (_, none) => task
  | (frames, some panic) => task.update frames [.recovered current.id panic]

/-- `preparedReturn`. -/
def returnValues (current : ExecutionFrame V) (below : List (ExecutionFrame V))
    (values : List V) : Except String (Task V) := do
  let values ← current.validateReturnValues modules values
  .ok (task.update (current.setCompletion { returnValues := values } :: below)
    [.returning current.id])

/-- The end of the code of a function. -/
def finish (current : ExecutionFrame V) (below : List (ExecutionFrame V)) :
    Except String (Task V) := do
  let values ← current.implicitResults modules
  .ok (task.update (current.setCompletion { returnValues := values } :: below)
    [.returning current.id])

/-- A write to a result local of an active frame. -/
def store (depth : Nat) (name : String) (value : V) : Except String (Task V) :=
  match task.frames[depth]? with
  | none => .error "no such frame"
  | some frame =>
    let cells := frame.cells.map fun (other, old) =>
      if other = name then (other, value) else (other, old)
    .ok { task with frames := task.frames.set depth { frame with cells := cells } }

/-- The deferred call that `advanceCompletion` starts. -/
def startDeferred (current : ExecutionFrame V) (below : List (ExecutionFrame V))
    (record : DeferredCall) (rest : List DeferredCall) : Task V :=
  let deferred := { task.newExecutionFrame modules record.ref with deferred := true }
  task.enter (deferred :: { current with defers := rest } :: below) deferred
    (.deferred current.id current.completion.panic) [.started current.id record.id]

/-- The end of a frame that has been called and returns. -/
def deliver (current caller : ExecutionFrame V) (below : List (ExecutionFrame V))
    (hostPanic : Option V) : Except String (Task V) :=
  let values := current.resultValues modules
  if values.length ≠ current.expectedResults then
    .error "call returned a wrong number of values"
  else
    match current.resume, hostPanic with
    | .completeCaller, _ => do
        let normalized ← caller.validateReturnValues modules values
        .ok (task.update (caller.setCompletion { returnValues := normalized } :: below)
          [.left current.id (.returned values), .returning caller.id])
    | .host, some value =>
      .ok (task.startPanic modules caller below value [.left current.id (.returned values)])
    | _, _ => .ok (task.update (caller :: below) [.left current.id (.returned values)])

/-- The loop of `advanceCompletion`, by the frames below the one that completes.
`hostPanic` is the failure of a continuation of the host, if it fails. -/
def advanceFrom (hostPanic : Option V) (task : Task V) (current : ExecutionFrame V)
    (below : List (ExecutionFrame V)) : Except String (Task V) :=
  match current.defers with
  | record :: rest => .ok (task.startDeferred modules current below record rest)
  | [] =>
    if current.completion.resume then
      .ok (task.update (current.clearCompletion :: below) [])
    else
      match current.refreshResults modules with
      | .error fault => .error fault
      | .ok current =>
        match below with
        | [] =>
          if current.deferred then .error "deferred call has no owner frame"
          else
            match current.completion.panic with
            | some panic => .ok (task.update [] [.left current.id (.panicked panic)])
            | none =>
              .ok (task.update [] [.left current.id (.returned (current.resultValues modules))])
        | owner :: rest =>
          if current.deferred then
            match current.completion.panic with
            | some panic =>
              let owner := owner.setCompletion { panic := some panic }
              advanceFrom hostPanic (task.update (owner :: rest)
                [.left current.id (.panicked panic), .replaced owner.id panic]) owner rest
            | none =>
              if current.completion.returnValues.length ≠ 0 then
                .error "deferred function returned values"
              else if current.recovers owner then
                match owner.currentResultValues modules with
                | .error fault => .error fault
                | .ok values =>
                  let owner := owner.setCompletion { returnValues := values }
                  advanceFrom hostPanic (task.update (owner :: rest)
                    [.left current.id (.returned []), .restored owner.id]) owner rest
              else
                advanceFrom hostPanic (task.update (owner :: rest)
                  [.left current.id (.returned [])]) owner rest
          else
            match current.completion.panic with
            | some panic =>
              let owner := owner.setCompletion { panic := some panic }
              advanceFrom hostPanic (task.update (owner :: rest)
                [.left current.id (.panicked panic), .propagated owner.id panic]) owner rest
            | none => task.deliver modules current owner rest hostPanic

end Task

/-- What a task may do next. -/
inductive Action (V : Type) where
  | call (ref : FunctionRef) (expectedResults : Nat) (qualify host : Bool)
  | tailCall (function : Function) (resultCount : Nat) (debugging qualify : Bool)
  | deferPush (ref : FunctionRef) (ownerDepth : Int)
  | recover
  | panic (value : V)
  | returnValues (values : List V)
  | finish
  | store (depth : Nat) (name : String) (value : V)
  | advance (hostPanic : Option V)
deriving Repr, DecidableEq

namespace Task

variable {V : Type} (modules : Modules V)

/-- One round of `runTask`: a completing frame is advanced, any other runs its next
instruction. -/
def step (task : Task V) (action : Action V) : Except String (Task V) :=
  match task.frames with
  | [] => .error "execution task has no frame"
  | current :: below =>
    match action with
    | .store depth name value => task.store depth name value
    | .advance hostPanic =>
      if current.completionActive then task.advanceFrom modules hostPanic current below
      else .error "frame is running"
    | action =>
      if current.completionActive then .error "frame is completing"
      else
        match action with
        | .call ref expectedResults qualify host =>
          .ok (task.call modules current below ref expectedResults qualify host)
        | .tailCall function resultCount debugging qualify =>
          .ok (task.enterDirectTailCall modules current below function resultCount
            debugging qualify)
        | .deferPush ref ownerDepth => task.deferPush current ref ownerDepth
        | .recover => .ok (task.recover current)
        | .panic value => .ok (task.startPanic modules current below value [])
        | .returnValues values => task.returnValues modules current below values
        | .finish => task.finish modules current below
        | .store depth name value => task.store depth name value
        | .advance _ => .error "frame is running"

/-- A new task runs one function. -/
def start (ref : FunctionRef) : Task V :=
  let empty : Task V := { frames := [], activations := [] }
  let frame := empty.newExecutionFrame modules ref
  empty.enter [frame] frame .root []

def run (task : Task V) : List (Action V) → Except String (Task V)
  | [] => .ok task
  | action :: rest => do
      let next ← task.step modules action
      next.run rest

end Task

end MiniGo.Runtime.Frames
