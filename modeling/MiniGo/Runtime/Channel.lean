/-
Waitables and selections (`runtime/channel_select.go`, `waitable.go`).

A selection offers one case per operand. A transaction commits one case, with
its peer for a rendezvous, or registers all cases on the wait lists of their
waitables. Transactions run one at a time under the scheduler's control lock;
blocked selections are tried again later or withdrawn. The history records what
each transaction reports to its caller.
-/
import MiniGo.Lib.LinkedList
import MiniGo.Runtime.WaitableBuffer

namespace MiniGo.Runtime

open LinkedList

/-- A case of a selection: the selection and the index of the case in it. -/
abbrev CaseId := Nat × Nat

/-- `channelSelectCase`; `resource` is none for a nil channel. -/
structure SelectCase (Value : Type) where
  resource : Option Nat := none
  send : Bool := false
  value : Value
  zero : Value

/-- `channelSelection`; an index of none stands for -1. -/
structure Selection (Value : Type) where
  cases : List (SelectCase Value) := []
  index : Option Nat := none
  done : Bool := false
  value : Value
  ok : Bool := false
  error : Option Fault := none

/-- `waitableResource` without its wait list. -/
structure Waitable (Value Raw : Type) where
  capacity : Nat
  storage : Storage Value Raw
  closed : Bool := false

/-- The wait lists: the links and flags of the cases, the ends of each list. -/
structure WaitLists where
  links : Links CaseId := ⟨fun _ => none, fun _ => none⟩
  ends : Nat → Ends CaseId := fun _ => ⟨none, none⟩
  registered : CaseId → Bool := fun _ => false

/-- What a transaction reports: the completion of a selection with the case it
committed, or the result of a try. -/
inductive Event (Value : Type) where
  | completed (selection : Nat) (selected : Option (SelectCase Value))
      (value : Value) (ok : Bool) (error : Option Fault)
  | trySent (waitable : Nat) (value : Value)
  | tryReceived (waitable : Nat) (value : Value)

structure World (Value Raw : Type) where
  waitables : Nat → Waitable Value Raw
  waitableCount : Nat := 0
  selections : Nat → Selection Value
  selectionCount : Nat := 0
  lists : WaitLists := {}
  history : List (Event Value) := []

section Lists

variable {Value : Type}

/-- The body of the loop of `register`. -/
def WaitLists.register (lists : WaitLists) (id : Nat)
    (entry : SelectCase Value × Nat) : WaitLists :=
  match entry.1.resource with
  | none => lists
  | some resource =>
    let (links, ends) := append lists.links (lists.ends resource) (id, entry.2)
    { links, ends := Function.update lists.ends resource ends
      registered := Function.update lists.registered (id, entry.2) true }

/-- The body of the loop of `unregister`. -/
def WaitLists.unregister (lists : WaitLists) (id : Nat)
    (entry : SelectCase Value × Nat) : WaitLists :=
  match lists.registered (id, entry.2), entry.1.resource with
  | true, some resource =>
    let (links, ends) := unlink lists.links (lists.ends resource) (id, entry.2)
    { links, ends := Function.update lists.ends resource ends
      registered := Function.update lists.registered (id, entry.2) false }
  | _, _ => lists

end Lists

namespace World

variable {Value Raw : Type} [Inhabited Value] (codec : Codec Value Raw) (world : World Value Raw)

/-- The case of a case identifier. -/
def case? (id : CaseId) : Option (SelectCase Value) :=
  (world.selections id.1).cases[id.2]?

/-- `channelSelection.register`. -/
def register (id : Nat) : World Value Raw :=
  { world with
    lists := (world.selections id).cases.zipIdx.foldl
      (fun lists entry => lists.register id entry) world.lists }

/-- `channelSelection.unregister`. -/
def unregister (id : Nat) : World Value Raw :=
  { world with
    lists := (world.selections id).cases.zipIdx.foldl
      (fun lists entry => lists.unregister id entry) world.lists }

/-- `channelSelection.complete`. -/
def complete (id : Nat) (index : Option Nat) (value : Value) (ok : Bool) :
    World Value Raw :=
  let withdrawn := world.unregister id
  let selection := world.selections id
  { withdrawn with
    selections := Function.update world.selections id
      { selection with index, value, ok, done := true }
    history := world.history ++ [.completed id
      (index.bind fun index => selection.cases[index]?) value ok
      selection.error] }

/-- `selection.err = err`. -/
def setError (id : Nat) (fault : Fault) : World Value Raw :=
  { world with
    selections := Function.update world.selections id
      { world.selections id with error := some fault } }

def setStorage (resource : Nat) (storage : Storage Value Raw) :
    World Value Raw :=
  { world with
    waitables := Function.update world.waitables resource
      { world.waitables resource with storage } }

/-- A bound on the number of registered cases. -/
def caseCount : Nat :=
  ((List.range world.selectionCount).map fun id =>
    (world.selections id).cases.length).sum

/-- `selectionPeer`. -/
def selectionPeer (resource : Nat) (send : Bool) (owner : Option Nat) :
    Option CaseId :=
  findFrom world.lists.links (fun peer => some peer.1 ≠ owner &&
      (world.case? peer).any (·.send ≠ send) &&
      !(world.selections peer.1).done)
    (world.caseCount + 1) (world.lists.ends resource).head

/-- The readiness test of the first loop of `tryCommit`. -/
def available (id : Nat) (selected : SelectCase Value) : Bool :=
  match selected.resource with
  | none => false
  | some resource =>
    let waitable := world.waitables resource
    waitable.closed ||
      if selected.send then
        (world.selectionPeer resource true (some id)).isSome ||
          waitable.capacity > waitable.storage.bufferLen
      else
        waitable.storage.bufferLen ≠ 0 || (world.selectionPeer resource false (some id)).isSome

/-- The indexes that the first loop of `tryCommit` collects. -/
def ready (id : Nat) : List Nat :=
  (List.range (world.selections id).cases.length).filter fun index =>
    (world.case? (id, index)).any (world.available id)

/-- `chooseReadyIndex`; `pick` is the state of the generator. -/
def chooseReadyIndex (ready : List Nat) (pick : Nat) : Option Nat :=
  ready[pick % ready.length]?

/-- A send that is ready. -/
def commitSend (faults : BufferFaults) (id index resource : Nat)
    (selected : SelectCase Value) : World Value Raw :=
  let waitable := world.waitables resource
  if waitable.closed then
    (world.setError id (.guestPanic "send on closed waitable")).complete id
      (some index) default false
  else
    match world.selectionPeer resource true (some id) with
    | some peer =>
      (world.complete peer.1 (some peer.2) selected.value true).complete id
        (some index) default false
    | none =>
      match waitable.storage.appendBuffer codec faults selected.value with
      | (.ok (), storage) =>
        (world.setStorage resource storage).complete id (some index) default false
      | (.error fault, storage) =>
        ((world.setStorage resource storage).setError id fault).complete id
          (some index) default false

/-- A receive that is ready. -/
def commitReceive (faults : BufferFaults) (id index resource : Nat)
    (selected : SelectCase Value) : World Value Raw :=
  let waitable := world.waitables resource
  if waitable.storage.bufferLen ≠ 0 then
    match waitable.storage.popBuffer codec faults with
    | (.ok value, storage) =>
      (world.setStorage resource storage).complete id (some index) value true
    | (.error fault, storage) =>
      ((world.setStorage resource storage).setError id fault).complete id (some index) default false
  else
    match world.selectionPeer resource false (some id), waitable.closed with
    | some peer, false =>
      let value := ((world.case? peer).map (·.value)).getD default
      (world.complete peer.1 (some peer.2) default false).complete id (some index) value true
    | _, _ => world.complete id (some index) selected.zero false

/-- `tryCommit`; a ready case has a waitable. -/
def tryCommit (faults : BufferFaults) (pick id : Nat) : World Value Raw × Bool :=
  if (world.selections id).done then (world, true)
  else
    match (chooseReadyIndex (world.ready id) pick).bind fun index =>
        (world.case? (id, index)).bind fun selected =>
          selected.resource.map (index, selected, ·) with
    | none => (world, false)
    | some (index, selected, resource) =>
      (if selected.send then
        world.commitSend codec faults id index resource selected
      else world.commitReceive codec faults id index resource selected, true)

end World

/-- What the runtime's module answers about a channel value. -/
structure ChannelModule (Channel Value : Type) where
  waitableValueData : Channel → Except Fault (Option Nat)
  waitableCanSend : Channel → Bool
  waitableCanRecv : Channel → Bool
  normalizeWaitableSendValue : Channel → Value → Except Fault Value
  waitableZeroValue : Channel → Value
  typeText : Channel → String

/-- An operand of a select: `channelSelectCase` before it is prepared. -/
structure SelectOperand (Channel Value : Type) where
  channel : Channel
  send : Bool
  value : Value

/-- What a selection does when no case is ready: it blocks, it completes with
the default case, or (`reflect.Select`) it is dropped for the default. -/
inductive Otherwise where
  | block | complete | drop
deriving Repr, DecidableEq

/-- The transactions that the scheduler runs under its control lock. `charged`
is the result of charging the allocation of a selection. -/
inductive Transaction (Channel Value : Type) where
  | make (capacity : Nat) (managed : Bool)
  | select (operands : List (SelectOperand Channel Value))
      (charged : Except Fault Unit) (otherwise : Otherwise) (pick : Nat)
      (faults : BufferFaults)
  | retry (selection pick : Nat) (faults : BufferFaults)
  | cancel (selection : Nat)
  | trySend (channel : Channel) (value : Value) (faults : BufferFaults)
  | tryReceive (channel : Channel) (faults : BufferFaults)
  | close (channel : Channel) (faults : BufferFaults)

namespace World

variable {Channel Value Raw : Type} [Inhabited Value]
  (modules : ChannelModule Channel Value) (codec : Codec Value Raw)
  (world : World Value Raw)

/-- `waitableValueData`: a channel value names a waitable that exists. -/
def waitableValueData (channel : Channel) : Except Fault (Option Nat) := do
  match ← modules.waitableValueData channel with
  | none => pure none
  | some resource =>
    if resource < world.waitableCount then pure (some resource)
    else throw (.error ("invalid waitable resource backing for " ++ modules.typeText channel))

/-- The body of the loop of `prepareChannelSelection`. -/
def prepareCase (operand : SelectOperand Channel Value) :
    Except Fault (SelectCase Value) := do
  let resource ← world.waitableValueData modules operand.channel
  if operand.send then
    if !modules.waitableCanSend operand.channel then
      throw (.error ("cannot send on receive-only waitable " ++ modules.typeText operand.channel))
    let value ← if resource.isSome then
        modules.normalizeWaitableSendValue operand.channel operand.value
      else pure operand.value
    pure { resource, send := true, value, zero := default }
  else
    if !modules.waitableCanRecv operand.channel then
      throw (.error ("cannot receive from send-only waitable " ++ modules.typeText operand.channel))
    pure { resource, send := false, value := operand.value
           zero := modules.waitableZeroValue operand.channel }

/-- `prepareChannelSelection`. -/
def prepareChannelSelection (charged : Except Fault Unit)
    (operands : List (SelectOperand Channel Value)) :
    Except Fault (List (SelectCase Value)) := do
  charged
  operands.mapM (world.prepareCase modules)

/-- A new selection with the given cases. -/
def addSelection (cases : List (SelectCase Value)) : World Value Raw :=
  { world with
    selections := Function.update world.selections world.selectionCount { cases, value := default }
    selectionCount := world.selectionCount + 1 }

/-- The channel operations of `executeControlBody` and `reflect.Select`. -/
def select (faults : BufferFaults) (otherwise : Otherwise) (pick : Nat)
    (cases : List (SelectCase Value)) : World Value Raw :=
  let id := world.selectionCount
  match (world.addSelection cases).tryCommit codec faults pick id, otherwise with
  | (after, true), _ => after
  | (after, false), .block => after.register id
  | (after, false), .complete => after.complete id none default false
  | (after, false), .drop => after

def record (event : Event Value) : World Value Raw :=
  { world with history := world.history ++ [event] }

/-- The commit of `waitableTrySendValue` on an open waitable. -/
def trySendNormalized (faults : BufferFaults) (resource : Nat)
    (normalized : Value) : World Value Raw × Except Fault Bool :=
  let waitable := world.waitables resource
  match world.selectionPeer resource true none with
  | some peer =>
    ((world.complete peer.1 (some peer.2) normalized true).record
      (.trySent resource normalized), .ok true)
  | none =>
    if waitable.storage.bufferLen ≥ waitable.capacity then (world, .ok false)
    else
      match waitable.storage.appendBuffer codec faults normalized with
      | (.error fault, storage) =>
        (world.setStorage resource storage, .error fault)
      | (.ok (), storage) =>
        ((world.setStorage resource storage).record (.trySent resource normalized), .ok true)

/-- `waitableTrySendValue`. -/
def waitableTrySendValue (faults : BufferFaults) (channel : Channel)
    (value : Value) : World Value Raw × Except Fault Bool :=
  match world.waitableValueData modules channel with
  | .error fault => (world, .error fault)
  | .ok resource =>
    if !modules.waitableCanSend channel then
      (world, .error (.error ("cannot send on receive-only waitable " ++ modules.typeText channel)))
    else
      match resource with
      | none => (world, .ok false)
      | some resource =>
        if (world.waitables resource).closed then
          (world, .error (.guestPanic "send on closed waitable"))
        else
          match modules.normalizeWaitableSendValue channel value with
          | .error fault => (world, .error fault)
          | .ok normalized =>
            world.trySendNormalized codec faults resource normalized

/-- The commit of `waitableTryRecvValue`. -/
def tryReceive (faults : BufferFaults) (resource : Nat) (zero : Value) :
    World Value Raw × Except Fault (Value × Bool × Bool) :=
  let waitable := world.waitables resource
  if waitable.storage.bufferLen = 0 then
    match world.selectionPeer resource false none, waitable.closed with
    | some peer, false =>
      let value := ((world.case? peer).map (·.value)).getD default
      ((world.complete peer.1 (some peer.2) default false).record
        (.tryReceived resource value), .ok (value, true, false))
    | _, _ => (world, .ok (zero, false, waitable.closed))
  else
    match waitable.storage.popBuffer codec faults with
    | (.error fault, storage) =>
      (world.setStorage resource storage, .error fault)
    | (.ok value, storage) =>
      ((world.setStorage resource storage).record
        (.tryReceived resource value), .ok (value, true, waitable.closed))

/-- `waitableTryRecvValue`: the value, whether one was received, and whether the
waitable is closed. -/
def waitableTryRecvValue (faults : BufferFaults) (channel : Channel) :
    World Value Raw × Except Fault (Value × Bool × Bool) :=
  match world.waitableValueData modules channel with
  | .error fault => (world, .error fault)
  | .ok resource =>
    if !modules.waitableCanRecv channel then
      (world, .error (.error ("cannot receive from send-only waitable " ++
        modules.typeText channel)))
    else
      match resource with
      | none => (world, .ok (modules.waitableZeroValue channel, false, false))
      | some resource =>
        world.tryReceive codec faults resource (modules.waitableZeroValue channel)

/-- `waitableCloseValue`. -/
def waitableCloseValue (faults : BufferFaults) (channel : Channel) :
    World Value Raw × Except Fault Unit :=
  match world.waitableValueData modules channel with
  | .error fault => (world, .error fault)
  | .ok resource =>
    if !modules.waitableCanSend channel then
      (world, .error (.error ("cannot close receive-only waitable " ++ modules.typeText channel)))
    else
      match resource with
      | none => (world, .error (.guestPanic "close of nil waitable"))
      | some resource =>
        let waitable := world.waitables resource
        if waitable.closed then
          (world, .error (.guestPanic "close of closed waitable"))
        else
          match waitable.storage, faults.state with
          | .managed _, true => (world, .error heapFault)
          | storage, _ =>
            ({ world with
              waitables := Function.update world.waitables resource { waitable with
                  closed := true, storage := storage.setClosed } }, .ok ())

/-- `makeWaitableValue`. -/
def makeWaitable (capacity : Nat) (managed : Bool) : World Value Raw :=
  { world with
    waitables := Function.update world.waitables world.waitableCount {
      capacity
      storage :=
        if managed then
          .managed { capacity, elements := fun _ => codec.cleared }
        else .host {} }
    waitableCount := world.waitableCount + 1 }

/-- One transaction. -/
def step : Transaction Channel Value → World Value Raw
  | .make capacity managed => world.makeWaitable codec capacity managed
  | .select operands charged otherwise pick faults =>
    match world.prepareChannelSelection modules charged operands with
    | .error _ => world
    | .ok cases => world.select codec faults otherwise pick cases
  | .retry selection pick faults => (world.tryCommit codec faults pick selection).1
  | .cancel selection => world.unregister selection
  | .trySend channel value faults =>
    (world.waitableTrySendValue modules codec faults channel value).1
  | .tryReceive channel faults =>
    (world.waitableTryRecvValue modules codec faults channel).1
  | .close channel faults =>
    (world.waitableCloseValue modules faults channel).1

/-- Transactions one after the other. -/
def run (transactions : List (Transaction Channel Value)) : World Value Raw :=
  transactions.foldl (fun world transaction => world.step modules codec transaction) world

/-- No waitables and no selections. -/
def initial : World Value Raw where
  waitables _ := { capacity := 0, storage := .host {} }
  selections _ := { value := default }

end World

section History

variable {Value : Type}

/-- The value that an event commits to a waitable. -/
def Event.sent (waitable : Nat) : Event Value → Option Value
  | .completed _ (some selected) _ _ none =>
    if selected.send ∧ selected.resource = some waitable then
      some selected.value
    else none
  | .trySent target value => if target = waitable then some value else none
  | _ => none

/-- The value that an event takes from a waitable with ok. -/
def Event.received (waitable : Nat) : Event Value → Option Value
  | .completed _ (some selected) value true _ =>
    if !selected.send ∧ selected.resource = some waitable then some value
    else none
  | .tryReceived target value => if target = waitable then some value else none
  | _ => none

/-- The values whose send committed, in commit order. -/
def sentValues (history : List (Event Value)) (waitable : Nat) : List Value :=
  history.filterMap (Event.sent waitable)

/-- The values delivered with ok, in order. -/
def receivedValues (history : List (Event Value)) (waitable : Nat) :
    List Value :=
  history.filterMap (Event.received waitable)

/-- The selections that completed, one entry for each completion. -/
def completedSelections (history : List (Event Value)) : List Nat :=
  history.filterMap fun
    | .completed selection _ _ _ _ => some selection
    | _ => none

end History

end MiniGo.Runtime
