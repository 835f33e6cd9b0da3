/-
The inbound half of an endpoint (`rpc/endpoint_transport.go`,
`rpc/endpoint_dispatch.go`, `rpc/endpoint_lease.go`, `rpc/endpoint_lifecycle.go`).

A step is one critical section of the endpoint's lock, or the end of something that
runs outside of it. What services, contexts and connections do is part of the event:
whether a context has been cancelled, which routes a binder returned, how long an
encoded reply is. Times are natural numbers. A dispatched operation has a token of
its own, which stands for the `cancel` function in its entry of the active table.
-/
import MiniGo.Lib.Replay
import MiniGo.Lib.Table
import MiniGo.Rpc.Frame

namespace MiniGo.Rpc

/-- `endpointActive`. -/
structure Active where
  control : Bool
  binding : UInt64
  owner : Nat
deriving Repr, DecidableEq

/-- `endpointResult`, with the operation that produced the result. -/
structure PendingResult where
  binding : UInt64
  result : Nat
  expiresAt : Nat
  deciding : Bool := false
  accepting : Bool := false
  retiring : Bool := false
deriving Repr, DecidableEq

/-- Where a dispatched operation is. `settles` tells that a decision has been made,
which is forgotten after the reply. -/
inductive Stage where
  /-- About to write `accepted`. -/
  | admitted
  | accepting
  | started
  /-- Outside of the lock, with the routes that were found. -/
  | working (routes : Nat)
  /-- The result of a call has been offered; its execution is still to be finished. -/
  | offered
  /-- About to write the reply. -/
  | answering (settles : Bool)
  | replying (settles : Bool)
  | settling
  /-- At the deferred functions. -/
  | leaving
deriving Repr, DecidableEq

/-- A goroutine that runs `dispatch`. -/
structure Operation where
  frame : EndpointFrame
  stage : Stage
  reserved : Bool
  finished : Bool := false
deriving Repr, DecidableEq

/-- A message that has been queued and not been completed, with the operation that
waits for it. -/
structure QueuedWrite where
  owner : Option Nat
  control : Bool
  bytes : Nat
deriving Repr, DecidableEq

/-- What `expireLeases` leaves to goroutines of its own. -/
inductive Cleanup where
  | result (id : UInt64)
  | binding (id : UInt64)
deriving Repr, DecidableEq

structure Endpoint where
  limits : Limits
  outboundLimits : Limits
  leaseTTL : Nat
  /-- The state is `endpointOpen`. -/
  isOpen : Bool := true
  peerID : UInt64 := 0
  peerRenewID : UInt64 := 0
  nextBind : UInt64 := 0
  active : Table UInt64 Active := ∅
  inbound : Table UInt64 Nat := ∅
  inboundLease : Table UInt64 Nat := ∅
  inboundOperations : Table UInt64 Nat := ∅
  results : Table UInt64 PendingResult := ∅
  activeControls : Int := 0
  activeData : Int := 0
  inboundReservations : Int := 0
  resultReservations : Int := 0
  queuedControlBytes : Int := 0
  queuedWriteBytes : Int := 0
  writes : List QueuedWrite := []
  operations : Table Nat Operation := ∅
  cleanups : List Cleanup := []
  nextToken : Nat := 0

/-- `endpointControlFrame`. -/
def endpointControlFrame : FrameKind → Bool
  | .bind | .decision | .drop | .close | .renew | .renewAck | .accepted | .offer | .done => true
  | _ => false

/-- `endpointPhysicalControl`. -/
def endpointPhysicalControl : FrameKind → Bool
  | .accepted | .renew | .renewAck | .cancel | .decision | .done => true
  | _ => false

def maxFragmentHeaderBytes : Int := 35

def endpointReplyQueueCapacity : Int := 32

namespace Endpoint

variable (endpoint : Endpoint)

section Writing

/-- The bytes that may wait in the control lane. -/
def controlBudget : Int :=
  let budget := endpoint.outboundLimits.maxInFlightBytes.toInt
  let frame := endpoint.outboundLimits.maxFrameBytes.toInt
  if frame ≤ budget / endpointReplyQueueCapacity then frame * endpointReplyQueueCapacity
  else budget

/-- The reservation of `writeContext` for an encoded frame; `none` if it is refused. -/
def reserveWrite (owner : Option Nat) (kind : FrameKind) (bytes : Nat) : Option Endpoint :=
  let control := endpointPhysicalControl kind &&
    decide ((bytes : Int) ≤ endpoint.outboundLimits.maxFrameBytes.toInt - maxFragmentHeaderBytes)
  let budget := endpoint.outboundLimits.maxInFlightBytes.toInt
  if (kind = .renew ∨ kind = .renewAck) ∧ control = false then none
  else if endpoint.isOpen = false then none
  else if control then
    if endpoint.controlBudget - bytes < endpoint.queuedControlBytes then none
    else some
      { endpoint with
        queuedControlBytes := endpoint.queuedControlBytes + bytes
        writes := ⟨owner, true, bytes⟩ :: endpoint.writes }
  else if budget < bytes ∨ budget - bytes < endpoint.queuedWriteBytes then none
  else some
    { endpoint with
      queuedWriteBytes := endpoint.queuedWriteBytes + bytes
      writes := ⟨owner, false, bytes⟩ :: endpoint.writes }

/-- `completeWrite`. -/
def completeWrite (write : QueuedWrite) : Endpoint :=
  { endpoint with
    writes := endpoint.writes.erase write
    queuedControlBytes := endpoint.queuedControlBytes - if write.control then write.bytes else 0
    queuedWriteBytes := endpoint.queuedWriteBytes - if write.control then 0 else write.bytes }

/-- `fail`: the tables are dropped; what runs is left to end by itself. -/
def fail : Endpoint :=
  { endpoint with
    isOpen := false, active := ∅, activeData := 0, activeControls := 0, inbound := ∅,
    inboundOperations := ∅, inboundLease := ∅, results := ∅ }

end Writing

section Admission

/-- What `readLoop` makes of a request before it looks at the load. -/
inductive Verdict where
  | refused
  | ignored
  | request (endpoint : Endpoint)

def checkIdentity (frame : EndpointFrame) : Verdict :=
  match frame.kind with
  | .renew =>
    if frame.id ≤ endpoint.peerRenewID then .refused
    else .request { endpoint with peerRenewID := frame.id }
  | .decision =>
    if frame.id ≠ frame.targetID ∨ endpoint.peerID < frame.id then .refused
    else match (endpoint.results.lookup frame.id).filter PendingResult.deciding with
      | some entry => if entry.accepting ≠ frame.accept then .refused else .ignored
      | none => if frame.id ∈ endpoint.active then .refused else .request endpoint
  | _ =>
    if frame.id ≤ endpoint.peerID then .refused
    else .request { endpoint with peerID := frame.id }

/-- Too many requests of this kind are under way. -/
def overloaded (frame : EndpointFrame) : Bool :=
  let control := endpointControlFrame frame.kind
  control && decide (endpoint.limits.maxPendingControls.toInt ≤ endpoint.activeControls) ||
  !control && decide (endpoint.limits.maxPendingCalls.toInt ≤ endpoint.activeData) ||
  decide (frame.kind = .bind) && decide (endpoint.limits.maxBindings.toInt ≤
    Table.size endpoint.inbound + endpoint.inboundReservations) ||
  decide (frame.kind = .call) && decide (endpoint.limits.maxPendingResults.toInt ≤
    Table.size endpoint.results + endpoint.resultReservations)

def refusalKind : FrameKind → FrameKind
  | .call => .offer
  | .renew => .renewAck
  | _ => .done

/-- The end of `readLoop`: the request gets its entries and a goroutine. -/
def admitRequest (frame : EndpointFrame) (now : Nat) : Endpoint :=
  let control := endpointControlFrame frame.kind
  { endpoint with
    inboundReservations := endpoint.inboundReservations + if frame.kind = .bind then 1 else 0
    resultReservations := endpoint.resultReservations + if frame.kind = .call then 1 else 0
    active := endpoint.active.insert frame.id ⟨control, frame.binding, endpoint.nextToken⟩
    inboundOperations :=
      if frame.kind = .renew ∨ frame.kind = .decision then endpoint.inboundOperations
      else endpoint.inboundOperations.insert frame.id (now + endpoint.leaseTTL)
    activeControls := endpoint.activeControls + if control then 1 else 0
    activeData := endpoint.activeData + if control then 0 else 1
    operations := endpoint.operations.insert endpoint.nextToken
      { frame
        stage := if frame.kind = .renew then .started else .admitted
        reserved := decide (frame.kind = .bind ∨ frame.kind = .call) }
    nextToken := endpoint.nextToken + 1 }

/-- A cancelled decision is not undone, but its result is on its way out. -/
def cancelResult (id : UInt64) : Endpoint :=
  match endpoint.results.lookup id with
  | some entry =>
    if entry.deciding then
      { endpoint with results := endpoint.results.insert id { entry with retiring := true } }
    else endpoint
  | none => endpoint

/-- The request that a frame makes, unless it is refused or ignored. -/
def requested (frame : EndpointFrame) : Option Endpoint :=
  if endpoint.isOpen = false ∨ frame.reply ∨
      frame.kind = .hello ∨ frame.kind = .ready ∨ frame.kind = .cancel then none
  else match endpoint.checkIdentity frame with
    | .request next => if next.overloaded frame then none else some next
    | _ => none

/-- `readLoop` for one frame. Replies and the handshake belong to the outbound half. -/
def receive (frame : EndpointFrame) (now bytes : Nat) : Endpoint :=
  if endpoint.isOpen = false ∨ frame.reply ∨ frame.kind = .hello ∨ frame.kind = .ready then
    endpoint
  else if frame.kind = .cancel then endpoint.cancelResult frame.targetID
  else match endpoint.checkIdentity frame with
    | .refused => endpoint.fail
    | .ignored => endpoint
    | .request next =>
      if next.overloaded frame then
        (next.reserveWrite none (refusalKind frame.kind) bytes).getD next.fail
      else next.admitRequest frame now

end Admission

section Dispatch

variable (token : Nat) (operation : Operation)

def setOperation : Endpoint :=
  { endpoint with operations := endpoint.operations.insert token operation }

def moveTo (stage : Stage) : Endpoint := endpoint.setOperation token { operation with stage }

/-- `finish`, the first time. -/
def finishOperation : Endpoint :=
  let id := operation.frame.id
  let removed := match endpoint.active.lookup id with
    | some entry =>
      { endpoint with
        active := endpoint.active.erase id
        activeControls := endpoint.activeControls - if entry.control then 1 else 0
        activeData := endpoint.activeData - if entry.control then 0 else 1 }
    | none => endpoint
  let forgotten :=
    if operation.frame.kind = .renew ∨ id ∈ removed.results then removed
    else { removed with inboundOperations := removed.inboundOperations.erase id }
  forgotten.setOperation token { operation with finished := true }

/-- `releaseReservation` of an operation that has one. -/
def releaseReservation : Endpoint :=
  setOperation
    { endpoint with
      inboundReservations :=
        endpoint.inboundReservations - if operation.frame.kind = .bind then 1 else 0
      resultReservations :=
        endpoint.resultReservations - if operation.frame.kind = .bind then 0 else 1 }
    token { operation with reserved := false }

/-- The routes of a binding whose lease has not expired. -/
def boundRoutes (binding : UInt64) (now : Nat) : Option Nat :=
  match endpoint.inboundLease.lookup binding with
  | some expires => if now < expires then endpoint.inbound.lookup binding else none
  | none => none

/-- The beginning of `call` and `drop`. -/
def findRoutes (complete : Bool) (now : Nat) : Endpoint :=
  match (endpoint.boundRoutes operation.frame.binding now).filter fun _ => complete with
  | some routes => endpoint.moveTo token operation (.working routes)
  | none => endpoint.moveTo token operation (.answering false)

/-- The end of `bind`: the binding is entered unless the request has been cancelled. -/
def commitBind (routes : Nat) (cancelled : Bool) (now : Nat) : Endpoint :=
  let binding := endpoint.nextBind + 1
  let entered :=
    if endpoint.isOpen ∧ operation.frame.id ∈ endpoint.active ∧ cancelled = false ∧
        endpoint.nextBind ≠ 18446744073709551615 then
      { endpoint with
        nextBind := binding
        inbound := endpoint.inbound.insert binding routes
        inboundLease := endpoint.inboundLease.insert binding (now + endpoint.leaseTTL) }
    else endpoint
  (entered.releaseReservation token operation).moveTo token { operation with reserved := false }
    (.answering false)

/-- The end of `call`: the result is offered unless the operation is over. -/
def commitCall (routes : Nat) (cancelled : Bool) (now : Nat) : Endpoint :=
  let id := operation.frame.id
  let released := { operation with reserved := false }
  match (endpoint.inboundOperations.lookup id).filter fun expires =>
      endpoint.isOpen && decide (id ∈ endpoint.active) && !cancelled &&
        decide (endpoint.inbound.lookup operation.frame.binding = some routes) &&
        decide (now < expires) with
  | some expires =>
    (releaseReservation
      { endpoint with
        results := endpoint.results.insert id
          { binding := operation.frame.binding, result := token, expiresAt := expires } }
      token operation).moveTo token released .offered
  | none =>
    (endpoint.releaseReservation token operation).moveTo token released (.answering false)

/-- The beginning of `decision`. -/
def beginDecision (now : Nat) : Endpoint :=
  match (endpoint.results.lookup operation.frame.targetID).filter fun entry =>
      decide (entry.binding = operation.frame.binding) && !entry.retiring &&
        decide (now < entry.expiresAt) with
  | some entry =>
    moveTo
      { endpoint with
        results := endpoint.results.insert operation.frame.targetID
          { entry with deciding := true, accepting := operation.frame.accept } }
      token operation (.working entry.result)
  | none => endpoint.moveTo token operation (.answering false)

/-- The end of `decision`, after the reply. -/
def settleDecision : Endpoint :=
  moveTo
    { endpoint with
      results := endpoint.results.erase operation.frame.targetID
      inboundOperations := endpoint.inboundOperations.erase operation.frame.targetID }
    token operation .leaving

/-- The beginning of `close`: the lease ends and the results are on their way out. -/
def beginClose : Endpoint :=
  let binding := operation.frame.binding
  moveTo
    { endpoint with
      inboundLease := endpoint.inboundLease.erase binding
      inboundOperations := Table.restrict (fun id _ =>
        !(endpoint.results.lookup id).any fun entry => decide (entry.binding = binding))
        endpoint.inboundOperations
      results := Table.revise (fun _ entry =>
        if entry.binding = binding then { entry with retiring := true } else entry)
        endpoint.results }
    token operation (.working 0)

/-- The end of `close`. -/
def endClose : Endpoint :=
  let binding := operation.frame.binding
  moveTo
    { endpoint with
      inbound := endpoint.inbound.erase binding
      results := Table.restrict (fun _ entry =>
        !(decide (entry.binding = binding) && !entry.deciding)) endpoint.results }
    token operation (.answering false)

/-- `renewInboundTargets` for the identifiers in the payload. -/
def renewTargets (bindings operations : List UInt64) (now : Nat) : Endpoint :=
  let expires := now + endpoint.leaseTTL
  { endpoint with
    inboundLease := Table.revise (fun id current =>
      if id ∈ bindings ∧ now < current then expires else current) endpoint.inboundLease
    inboundOperations := Table.revise (fun id current =>
      if id ∈ operations ∧ now < current then expires else current) endpoint.inboundOperations
    results := Table.revise (fun id entry =>
      if id ∈ operations ∧ entry.retiring = false ∧ now < entry.expiresAt then
        { entry with expiresAt := expires }
      else entry) endpoint.results }

end Dispatch

section Leases

/-- `expireLeases`, as far as it is about the inbound half. The contexts that it
cancels are seen by the operations. -/
def expireLeases (now : Nat) : Endpoint :=
  if endpoint.isOpen = false then endpoint
  else
    let expired := Table.restrict (fun _ expires => decide (expires ≤ now)) endpoint.inboundLease
    let leases := Table.restrict (fun _ expires => decide (now < expires)) endpoint.inboundLease
    let orphaned := fun id : UInt64 =>
      (endpoint.active.lookup id).any fun entry => decide (entry.binding ∈ expired)
    let retires := fun entry : PendingResult =>
      !entry.retiring && (decide (entry.binding ∉ leases) || decide (entry.expiresAt ≤ now))
    { endpoint with
      inboundOperations := Table.restrict (fun id expires =>
        decide (now < expires) && !orphaned id) endpoint.inboundOperations
      inboundLease := leases
      results := Table.revise (fun _ entry =>
        if retires entry then { entry with retiring := true } else entry) endpoint.results
      cleanups := endpoint.cleanups ++
        (Table.restrict (fun _ entry => retires entry && !entry.deciding)
          endpoint.results).keys.map .result ++
        (Table.restrict (fun id _ => decide (id ∈ expired)) endpoint.inbound).keys.map .binding }

def finishCleanup (cleanup : Cleanup) : Endpoint :=
  match cleanup with
  | .result id =>
    { endpoint with
      cleanups := endpoint.cleanups.erase cleanup
      results := endpoint.results.erase id
      inboundOperations := endpoint.inboundOperations.erase id }
  | .binding id =>
    { endpoint with
      cleanups := endpoint.cleanups.erase cleanup
      inbound := endpoint.inbound.erase id }

end Leases

end Endpoint

/-- One step of a dispatched operation. -/
inductive Action where
  /-- The frame that is due, `accepted` or the reply, is queued or refused. -/
  | write (kind : FrameKind) (bytes : Nat)
  /-- The write that it waits for is over, or the endpoint stops. -/
  | resume (stopping : Bool)
  /-- What it asked for failed after the reservation was released. -/
  | failed
  /-- It is refused at once: there is no binder, the targets of a renewal are malformed, or
  the frame is unknown. -/
  | refused
  | bound (routes : Nat) (cancelled : Bool) (now : Nat)
  | lookup (now : Nat)
  | returned (cancelled : Bool) (now : Nat)
  | decide (now : Nat)
  | decided
  | settle
  | close
  | closed
  | renew (bindings operations : List UInt64) (now : Nat)
  | finish
  | release
deriving Repr, DecidableEq

inductive Event where
  /-- A frame of the peer, and the length of a reply that refuses it. -/
  | receive (frame : EndpointFrame) (now bytes : Nat)
  | operate (token : Nat) (action : Action)
  /-- The writer has completed a message. -/
  | completed (write : QueuedWrite)
  /-- A frame of the outbound half. -/
  | send (kind : FrameKind) (bytes : Nat)
  | expire (now : Nat)
  | cleaned (cleanup : Cleanup)
  /-- A failure of the connection, of the protocol, or `Close`. -/
  | fail
  /-- The coordinator of a failed endpoint has waited for everything. -/
  | stopped
deriving Repr, DecidableEq

namespace Endpoint

/-- Neither the write of an operation is over nor the endpoint stopping. Where both hold,
the select takes either. -/
def mustWait (endpoint : Endpoint) (token : Nat) (stopping : Bool) : Bool :=
  if stopping then endpoint.isOpen
  else endpoint.writes.any fun write => write.owner == some token

/-- What an operation at a stage of its kind does. -/
def operate (endpoint : Endpoint) (token : Nat) (operation : Operation) :
    Action → Option Endpoint
  | .write kind bytes =>
    match operation.stage with
    | .admitted =>
      match endpoint.reserveWrite (some token) .accepted bytes with
      | some next => some (next.moveTo token operation .accepting)
      | none => some (endpoint.fail.moveTo token operation .leaving)
    | .answering settles =>
      match endpoint.reserveWrite (some token) kind bytes with
      | some next => some (next.moveTo token operation (.replying settles))
      | none => some (endpoint.fail.moveTo token operation
          (if settles then .settling else .leaving))
    | _ => none
  | .resume stopping =>
    if endpoint.mustWait token stopping then none
    else match operation.stage with
      | .accepting =>
        some (endpoint.moveTo token operation (if stopping then .leaving else .started))
      | .replying settles =>
        some (endpoint.moveTo token operation (if settles then .settling else .leaving))
      | _ => none
  | .failed =>
    match operation.frame.kind, operation.stage with
    | .bind, .started | .call, .working _ =>
      some ((endpoint.releaseReservation token operation).moveTo token
        { operation with reserved := false } (.answering false))
    | .drop, .working _ => some (endpoint.moveTo token operation (.answering false))
    | _, _ => none
  | .refused =>
    match operation.frame.kind, operation.stage with
    | .call, _ | .decision, _ | .drop, _ | .close, _ => none
    | _, .started => some (endpoint.moveTo token operation (.answering false))
    | _, _ => none
  | .bound routes cancelled now =>
    match operation.frame.kind, operation.stage with
    | .bind, .started => some (endpoint.commitBind token operation routes cancelled now)
    | _, _ => none
  | .lookup now =>
    match operation.frame.kind, operation.stage with
    | .call, .started =>
      some (endpoint.findRoutes token operation operation.frame.call.isSome now)
    | .drop, .started =>
      some (endpoint.findRoutes token operation operation.frame.ref.isSome now)
    | _, _ => none
  | .returned cancelled now =>
    match operation.frame.kind, operation.stage with
    | .call, .working routes =>
      some (endpoint.commitCall token operation routes cancelled now)
    | .drop, .working _ => some (endpoint.moveTo token operation (.answering false))
    | _, _ => none
  | .decide now =>
    match operation.frame.kind, operation.stage with
    | .decision, .started => some (endpoint.beginDecision token operation now)
    | _, _ => none
  | .decided =>
    match operation.frame.kind, operation.stage with
    | .decision, .working _ => some (endpoint.moveTo token operation (.answering true))
    | _, _ => none
  | .settle =>
    match operation.stage with
    | .settling => some (endpoint.settleDecision token operation)
    | _ => none
  | .close =>
    match operation.frame.kind, operation.stage with
    | .close, .started => some (endpoint.beginClose token operation)
    | _, _ => none
  | .closed =>
    match operation.frame.kind, operation.stage with
    | .close, .working _ => some (endpoint.endClose token operation)
    | _, _ => none
  | .renew bindings operations now =>
    match operation.frame.kind, operation.stage with
    | .renew, .started =>
      some ((endpoint.renewTargets bindings operations now).moveTo token operation
        (.answering false))
    | _, _ => none
  | .finish =>
    if operation.finished then none
    else match operation.stage with
      | .offered =>
        some ((endpoint.finishOperation token operation).moveTo token
          { operation with finished := true } (.answering false))
      | .leaving => some (endpoint.finishOperation token operation)
      | _ => none
  | .release =>
    -- The last deferred functions: the reservation, if it is left, and the goroutine.
    if operation.stage = .leaving ∧ operation.finished then
      let released :=
        if operation.reserved then endpoint.releaseReservation token operation else endpoint
      some { released with operations := released.operations.erase token }
    else none

def step (event : Event) (endpoint : Endpoint) : Option Endpoint :=
  match event with
  | .receive frame now bytes => some (endpoint.receive frame now bytes)
  | .operate token action =>
    (endpoint.operations.lookup token).bind fun operation =>
      endpoint.operate token operation action
  | .completed write =>
    if write ∈ endpoint.writes then some (endpoint.completeWrite write) else none
  | .send kind bytes => endpoint.reserveWrite none kind bytes
  | .expire now => some (endpoint.expireLeases now)
  | .cleaned cleanup =>
    if cleanup ∈ endpoint.cleanups then some (endpoint.finishCleanup cleanup) else none
  | .fail => some endpoint.fail
  | .stopped =>
    if endpoint.isOpen = false ∧ endpoint.operations.keys = [] ∧ endpoint.cleanups = [] ∧
        endpoint.writes = [] then
      some
        { endpoint with
          queuedWriteBytes := 0, queuedControlBytes := 0, inboundReservations := 0,
          resultReservations := 0 }
    else none

/-- An endpoint after its handshake. -/
def opened (limits outboundLimits : Limits) (leaseTTL : Nat) : Endpoint :=
  { limits, outboundLimits, leaseTTL }

end Endpoint

end MiniGo.Rpc
