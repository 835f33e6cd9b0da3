/-
Calls and resources of a local route set (`rpc/route_set.go`,
`rpc/route_set_resources.go`, `rpc/result.go`).

A step is one critical section of the set's lock, the beginning or the end of a
`Close` of a resource, or the point at which a wait is over. What handlers and
providers do is part of the event. A call and the result it returns are one thread,
since a result is decided only after the call has returned it. Resources are closed by
closers: the goroutine of a `Drop`, or whoever runs `releaseObjects`. The wait group
`calls` is represented by the threads that hold it.
-/
import MiniGo.Lib.Replay
import MiniGo.Lib.Table
import MiniGo.Rpc.Value

namespace MiniGo.Rpc

/-- `routeSetState`. -/
inductive RouteSetState where
  | opened | draining | cleaning | closed
deriving Repr, DecidableEq

namespace RouteSetState

def acceptsServiceCalls : RouteSetState → Bool
  | .opened => true
  | _ => false

def acceptsResourceCalls : RouteSetState → Bool
  | .opened | .draining => true
  | .cleaning | .closed => false

/-- A call is accepted, by a service or by a resource. -/
def acceptsCall (state : RouteSetState) : Option ResourceRef → Bool
  | none => state.acceptsServiceCalls
  | some _ => state.acceptsResourceCalls

end RouteSetState

/-- `providerResource`. The channel `borrowDone` is named by the call that made it. -/
structure ProviderResource where
  typeHash : Bytes
  active : Bool := false
  borrowed : Nat := 0
  borrowDone : Option UInt64 := none
deriving Repr, DecidableEq

namespace ProviderResource

/-- A call borrows the resource. -/
def borrow (call : UInt64) (entry : ProviderResource) : ProviderResource :=
  { entry with
    borrowed := entry.borrowed + 1
    borrowDone := if entry.borrowed = 0 then some call else entry.borrowDone }

/-- A call gives the resource back; the last one closes the channel. -/
def giveBack (entry : ProviderResource) : ProviderResource :=
  { entry with
    borrowed := entry.borrowed - 1
    borrowDone := if entry.borrowed = 1 then none else entry.borrowDone }

end ProviderResource

/-- `resourceClose`, made by a closer. -/
structure ResourceClose where
  closer : Nat
  done : Bool := false
deriving Repr, DecidableEq

/-- Where a call is, with the resources that its result owns. -/
inductive CallStage where
  /-- In its handler. -/
  | invoking
  | returned
  /-- The handler did not fail; its result is still to be looked at. -/
  | kept (objects : List UInt64)
  /-- The call has failed and releases what it exported. -/
  | rejecting
  | leaving
  | ended
  /-- The result has an owner; the deferred function is still to run. -/
  | published (objects : List UInt64)
  | pending (objects : List UInt64)
  | deciding (objects : List UInt64) (accepted : Bool)
  | releasing (objects : List UInt64) (accepted failed : Bool)
  | settling (objects : List UInt64) (accepted failed : Bool)
  | finished (objects : List UInt64) (accepted failed : Bool)
deriving Repr, DecidableEq

namespace CallStage

/-- The call has not left the wait group. -/
def working : CallStage → Bool
  | .invoking | .returned | .kept _ | .rejecting | .leaving | .published _ => true
  | _ => false

/-- The result is one of `pendingResultOwners`. -/
def owned : CallStage → Bool
  | .published _ | .pending _ | .deciding .. | .releasing .. | .settling .. => true
  | _ => false

end CallStage

structure CallThread where
  borrows : List UInt64
  stage : CallStage
deriving Repr, DecidableEq

/-- On whose behalf a closer works. -/
inductive CloserOwner where
  | call (id : UInt64)
  | release
  | cleanup
  | drop
deriving Repr, DecidableEq

inductive CloserStage where
  /-- About to look at the next object. -/
  | next
  /-- Waiting until the borrows are over. -/
  | waiting (borrows : Option UInt64)
  /-- In the `Close` of the resource. -/
  | closing
  | closed (failed : Bool)
  /-- The goroutine of a `Drop` has left the wait group. -/
  | leaving
deriving Repr, DecidableEq

structure Closer where
  owner : CloserOwner
  objects : List UInt64
  stage : CloserStage
  failed : Bool := false
deriving Repr, DecidableEq

/-- `finishCleanup`, with the resources that are left to it. -/
inductive CleanupStage where
  | calls (resources : List UInt64)
  | results (owners resources : List UInt64)
  | releasing
  | leaving
deriving Repr, DecidableEq

structure RouteSet where
  epoch : UInt64
  limits : Limits
  state : RouteSetState := .opened
  nextCall : UInt64 := 0
  nextResource : UInt64 := 0
  pendingCalls : Nat := 0
  pendingResults : Nat := 0
  resources : Table UInt64 ProviderResource := ∅
  resourceCloses : Table UInt64 ResourceClose := ∅
  resourceOrder : List UInt64 := []
  provisionalResources : Table UInt64 (List UInt64) := ∅
  calls : Table UInt64 CallThread := ∅
  closers : Table Nat Closer := ∅
  cleanup : Option CleanupStage := none
  nextCloser : Nat := 0
  /-- The channels that have been closed, with their resources. -/
  borrowsDone : List (UInt64 × UInt64) := []
  /-- The resources whose `Close` has been called. -/
  closeCalls : List UInt64 := []
  /-- The resources whose `Close` has succeeded. -/
  closeSuccesses : List UInt64 := []
  /-- The resources that have been dropped or released. -/
  released : List UInt64 := []

namespace RouteSet

variable (routes : RouteSet)

section Resources

/-- The reference is to an active resource of the set that nobody is closing. -/
def usable (ref : ResourceRef) : Bool :=
  decide (ref.epoch = routes.epoch) && (routes.resources.lookup ref.objectID).any (fun entry =>
      entry.active && decide (entry.typeHash = ref.typeHash)) &&
    decide (ref.objectID ∉ routes.resourceCloses)

/-- `RouteSet.Resolve`. -/
def resolve (ref : ResourceRef) : Option UInt64 :=
  if validateResourceRef ref && routes.state.acceptsResourceCalls && routes.usable ref then
    some ref.objectID
  else none

/-- `Export`, for a call that has been given an exporter. -/
def exportResource (call : UInt64) (typeHash : Bytes) : Option RouteSet :=
  if call ∉ routes.calls ∨ typeHash.length ≠ 64 ∨ routes.state.acceptsResourceCalls = false ∨
      routes.limits.maxResources.toInt ≤ Table.size routes.resources ∨
      routes.nextResource = 18446744073709551615 then
    none
  else
    let id := routes.nextResource + 1
    some { routes with
        nextResource := id
        resources := routes.resources.insert id { typeHash }
        provisionalResources := routes.provisionalResources.insert call
          ((routes.provisionalResources.lookup call).getD [] ++ [id]) }

/-- `detachResourceLocked`. -/
def detachResource (id : UInt64) : RouteSet :=
  { routes with
    resources := routes.resources.erase id
    resourceOrder := routes.resourceOrder.erase id }

def setCall (id : UInt64) (thread : CallThread) (stage : CallStage) : RouteSet :=
  { routes with calls := routes.calls.insert id { thread with stage } }

def setCloser (token : Nat) (closer : Closer) : RouteSet :=
  { routes with closers := routes.closers.insert token closer }

/-- `releaseObjects` is started. -/
def startCloser (owner : CloserOwner) (objects : List UInt64) : RouteSet :=
  { routes with
    closers := routes.closers.insert routes.nextCloser { owner, objects, stage := .next }
    nextCloser := routes.nextCloser + 1 }

end Resources

section Calls

/-- The receiver is one that the method may be called on. -/
def receiverFits (receiver : Option ResourceRef) (resourceTypeHash : Bytes) (bound : Bool) : Bool :=
  match receiver with
  | none => bound
  | some ref =>
    validateResourceRef ref && decide (resourceTypeHash ≠ []) &&
      decide (resourceTypeHash = ref.typeHash) && routes.usable ref

/-- The beginning of `Call`; `bound` tells whether the service has a provider. -/
def beginCall (receiver : Option ResourceRef) (arguments : List ResourceRef)
    (resourceTypeHash : Bytes) (bound : Bool) : Option RouteSet :=
  let id := routes.nextCall + 1
  let borrows := ((arguments ++ receiver.toList).map ResourceRef.objectID).dedup
  if routes.state.acceptsCall receiver = false ∨ receiver.isNone ≠ decide (resourceTypeHash = []) ∨
      routes.limits.maxPendingCalls.toInt ≤ (routes.pendingCalls + routes.pendingResults : Nat) ∨
      arguments.all routes.usable = false ∨ routes.nextCall = 18446744073709551615 then
    none
  else if routes.receiverFits receiver resourceTypeHash bound = false then
    -- The number has been given away before the receiver is looked at.
    some { routes with nextCall := id }
  else
    some { routes with
        nextCall := id
        pendingCalls := routes.pendingCalls + 1
        resources := Table.revise (fun object entry =>
          if object ∈ borrows then entry.borrow id else entry) routes.resources
        calls := routes.calls.insert id { borrows, stage := .invoking } }

/-- The channels that are closed when a call gives its resources back. -/
def channelsClosed (borrows : List UInt64) : List (UInt64 × UInt64) :=
  borrows.filterMap fun id =>
    ((routes.resources.lookup id).filter fun entry => decide (entry.borrowed = 1)).bind fun entry =>
      entry.borrowDone.map fun channel => (id, channel)

/-- `releaseResourceBorrows`, when the handler has returned. -/
def releaseResourceBorrows (id : UInt64) (thread : CallThread) : RouteSet :=
  setCall { routes with
      resources := Table.revise (fun object entry =>
        if object ∈ thread.borrows then entry.giveBack else entry) routes.resources
      borrowsDone := routes.channelsClosed thread.borrows ++ routes.borrowsDone }
    id thread .returned

/-- The call fails: what it is known to have exported is released. -/
def rejectCall (id : UInt64) (thread : CallThread) (objects : List UInt64) : RouteSet :=
  (startCloser { routes with provisionalResources := routes.provisionalResources.erase id }
    (.call id) objects).setCall id thread .rejecting

/-- `finishResult`, after the provider has been told. -/
def finishResult (id : UInt64) (thread : CallThread) (objects : List UInt64)
    (accepted failed : Bool) : RouteSet :=
  if id ∉ routes.provisionalResources then
    routes.setCall id thread (.settling objects accepted failed)
  else
    let forgotten :=
      { routes with provisionalResources := routes.provisionalResources.erase id }
    if accepted && !failed && routes.state.acceptsResourceCalls then
      setCall { forgotten with
          resources := Table.revise (fun object entry =>
            if object ∈ objects then { entry with active := true } else entry) routes.resources
          resourceOrder := routes.resourceOrder ++
            objects.filter fun object => decide (object ∈ routes.resources) }
        id thread (.settling objects accepted failed)
    else
      (forgotten.startCloser (.call id) objects).setCall id thread
        (.releasing objects accepted failed)

end Calls

section Closing

/-- `Drop`; the caller is the call whose context it is given, if any. -/
def drop (ref : ResourceRef) (caller : Option UInt64) : Option RouteSet :=
  let borrowedByCaller := caller.any fun call =>
    (routes.calls.lookup call).any fun thread =>
      decide (thread.stage = .invoking) && decide (ref.objectID ∈ thread.borrows)
  let busy := (routes.resourceCloses.lookup ref.objectID).any fun attempt => !attempt.done
  match routes.resources.lookup ref.objectID with
  | none => none
  | some entry =>
    if validateResourceRef ref = false ∨ routes.state.acceptsResourceCalls = false ∨
        ref.epoch ≠ routes.epoch ∨ entry.active = false ∨ entry.typeHash ≠ ref.typeHash ∨
        borrowedByCaller ∨ busy then
      none
    else
      some { routes with
          resourceCloses := routes.resourceCloses.insert ref.objectID ⟨routes.nextCloser, false⟩
          closers := routes.closers.insert routes.nextCloser
            { owner := .drop, objects := [ref.objectID], stage := .waiting entry.borrowDone }
          nextCloser := routes.nextCloser + 1
          released := ref.objectID :: routes.released }

/-- `releaseObjects` is over; its owner goes on. -/
def endCloser (token : Nat) (closer : Closer) : RouteSet :=
  let removed := { routes with closers := routes.closers.erase token }
  match closer.owner with
  | .call id =>
    match routes.calls.lookup id with
    | some thread =>
      match thread.stage with
      | .rejecting => removed.setCall id thread .leaving
      | .releasing objects accepted failed =>
        removed.setCall id thread (.settling objects accepted (failed || closer.failed))
      | _ => removed
    | none => removed
  | .cleanup => { removed with cleanup := some .leaving }
  | .release | .drop => removed

/-- The critical section after a `Close`. -/
def recordClose (token : Nat) (closer : Closer) (id : UInt64) (rest : List UInt64)
    (failed : Bool) : RouteSet :=
  let detached :=
    { routes.detachResource id with resourceCloses := routes.resourceCloses.erase id }
  match closer.owner with
  | .drop =>
    -- A failed attempt stays until the goroutine has left.
    (if failed then routes else detached).setCloser token { closer with stage := .leaving }
  | _ =>
    let next := { closer with objects := rest, stage := .next, failed := closer.failed || failed }
    if failed && routes.state.acceptsResourceCalls then
      setCloser { routes with
          resourceOrder :=
            if id ∈ routes.resourceOrder then routes.resourceOrder
            else routes.resourceOrder ++ [id]
          resourceCloses := routes.resourceCloses.insert id ⟨token, true⟩ }
        token next
    else detached.setCloser token next

/-- The last step of the goroutine of a `Drop`. -/
def leaveDrop (token : Nat) (id : UInt64) : RouteSet :=
  { routes with
    closers := routes.closers.erase token
    resourceCloses := Table.revise (fun object attempt =>
      if object = id ∧ attempt.closer = token then { attempt with done := true } else attempt)
      routes.resourceCloses }

/-- A closer gets on, where that does not depend on a resource. -/
def advance (token : Nat) (closer : Closer) : Option RouteSet :=
  match closer.stage, closer.objects with
  | .next, [] => some (routes.endCloser token closer)
  | .next, id :: rest =>
    if (routes.resourceCloses.lookup id).any fun attempt => !attempt.done then none
    else match routes.resources.lookup id with
      | none => some (routes.setCloser token { closer with objects := rest })
      | some entry =>
        some (setCloser { routes with
            resourceCloses := routes.resourceCloses.insert id ⟨token, false⟩
            released := id :: routes.released }
          token { closer with stage := .waiting entry.borrowDone })
  | .waiting borrows, id :: _ =>
    if borrows.all fun channel => decide ((id, channel) ∈ routes.borrowsDone) then
      some (setCloser { routes with closeCalls := id :: routes.closeCalls } token
        { closer with stage := .closing })
    else none
  | .closed failed, id :: rest => some (routes.recordClose token closer id rest failed)
  | .leaving, id :: _ => some (routes.leaveDrop token id)
  | _, _ => none

end Closing

section Cleanup

/-- `beginCleanup`. -/
def beginCleanup (force : Bool) : Option RouteSet :=
  if routes.state.acceptsResourceCalls = false ∨
      force = false ∧ (routes.state ≠ .draining ∨ routes.pendingCalls ≠ 0 ∨
        routes.pendingResults ≠ 0 ∨ Table.size routes.resources ≠ 0) then
    none
  else
    some { routes with
        state := .cleaning
        cleanup := some (.calls (if force then
            routes.resourceOrder ++ (routes.provisionalResources.entries.map (·.2)).flatten
          else [])) }

/-- Whether somebody holds the wait group. -/
def callsHeld : Bool :=
  routes.calls.entries.any (fun entry => entry.2.stage.working) ||
    routes.closers.entries.any fun entry => match entry.2.owner with
      | .release => true
      | .drop => decide (entry.2.stage ≠ .leaving)
      | _ => false

/-- The results that have not been settled. -/
def resultOwners : List UInt64 :=
  (routes.calls.entries.filter fun entry => entry.2.stage.owned).map (·.1)

/-- The end of `finishCleanup`. -/
def endCleanup : RouteSet :=
  { routes with
    state := .closed
    cleanup := none
    resources := ∅
    resourceCloses := ∅
    resourceOrder := []
    provisionalResources := ∅ }

/-- `finishCleanup` gets on: it waits for the calls, decides the results, releases the
resources and drops the tables. -/
def continueCleanup : Option RouteSet :=
  match routes.cleanup with
  | some (.calls resources) =>
    if routes.callsHeld then none
    else some { routes with cleanup := some (.results routes.resultOwners resources) }
  | some (.results (id :: rest) resources) =>
    match routes.calls.lookup id with
    | some thread =>
      match thread.stage with
      | .pending objects => some (routes.setCall id thread (.deciding objects false))
      | .finished .. => some { routes with cleanup := some (.results rest resources) }
      | _ => none
    | none => none
  | some (.results [] resources) =>
    some (startCloser { routes with cleanup := some .releasing } .cleanup resources.reverse)
  | some .leaving => some routes.endCleanup
  | _ => none

end Cleanup

end RouteSet

inductive RouteEvent where
  | call (receiver : Option ResourceRef) (arguments : List ResourceRef)
      (resourceTypeHash : Bytes) (bound : Bool)
  | exported (call : UInt64) (typeHash : Bytes)
  /-- The handler of a call has returned. -/
  | returned (call : UInt64)
  /-- Its outcome is looked at. -/
  | inspect (call : UInt64) (failed : Bool)
  /-- There is no result, or its values are invalid. -/
  | reject (call : UInt64)
  | publish (call : UInt64)
  | leave (call : UInt64)
  /-- `Accept` or `Discard` is the first to decide. -/
  | decide (call : UInt64) (accept : Bool)
  /-- The provider has been told. -/
  | provided (call : UInt64) (failed : Bool)
  | settle (call : UInt64)
  /-- An accepted result is given up. -/
  | release (call : UInt64)
  | drop (ref : ResourceRef) (caller : Option UInt64)
  | advance (closer : Nat)
  /-- The `Close` of a resource has returned. -/
  | closed (closer : Nat) (failed : Bool)
  | close
  | cleanup (force : Bool)
  | continueCleanup
deriving Repr, DecidableEq

namespace RouteSet

/-- What a call at its stage does. -/
def operateCall (routes : RouteSet) (id : UInt64) (thread : CallThread) (event : RouteEvent) :
    Option RouteSet :=
  match event, thread.stage with
  | .returned _, .invoking => some (routes.releaseResourceBorrows id thread)
  | .inspect _ failed, .returned =>
    let objects := (routes.provisionalResources.lookup id).getD []
    if failed then some (routes.rejectCall id thread objects)
    else some (routes.setCall id thread (.kept objects))
  | .reject _, .kept objects => some (routes.rejectCall id thread objects)
  | .publish _, .kept objects =>
    some (setCall { routes with pendingResults := routes.pendingResults + 1 } id thread
      (.published objects))
  | .leave _, .leaving =>
    some (setCall { routes with pendingCalls := routes.pendingCalls - 1 } id thread .ended)
  | .leave _, .published objects =>
    some (setCall { routes with pendingCalls := routes.pendingCalls - 1 } id thread
      (.pending objects))
  | .decide _ accept, .pending objects =>
    some (routes.setCall id thread (.deciding objects accept))
  | .provided _ failed, .deciding objects accepted =>
    some (routes.finishResult id thread objects accepted failed)
  | .settle _, .settling objects accepted failed =>
    some (setCall { routes with pendingResults := routes.pendingResults - 1 } id thread
      (.finished objects accepted failed))
  | .release _, .finished objects true false =>
    if objects = [] ∨ routes.state.acceptsResourceCalls = false then none
    else some (routes.startCloser .release objects)
  | _, _ => none

def operateCloser (routes : RouteSet) (token : Nat) (closer : Closer) (event : RouteEvent) :
    Option RouteSet :=
  match event with
  | .closed _ failed =>
    match closer.stage, closer.objects with
    | .closing, id :: _ =>
      some (setCloser { routes with
          closeSuccesses :=
            if failed then routes.closeSuccesses else id :: routes.closeSuccesses }
        token { closer with stage := .closed failed })
    | _, _ => none
  | _ => routes.advance token closer

def step (event : RouteEvent) (routes : RouteSet) : Option RouteSet :=
  match event with
  | .call receiver arguments resourceTypeHash bound =>
    routes.beginCall receiver arguments resourceTypeHash bound
  | .exported call typeHash => routes.exportResource call typeHash
  | .returned call | .inspect call _ | .reject call | .publish call | .leave call
  | .decide call _ | .provided call _ | .settle call | .release call =>
    (routes.calls.lookup call).bind fun thread => routes.operateCall call thread event
  | .drop ref caller => routes.drop ref caller
  | .advance token | .closed token _ =>
    (routes.closers.lookup token).bind fun closer => routes.operateCloser token closer event
  | .close =>
    if routes.state = .opened then some { routes with state := .draining } else none
  | .cleanup force => routes.beginCleanup force
  | .continueCleanup => routes.continueCleanup

/-- `newRouteSet`. -/
def opened (epoch : UInt64) (limits : Limits) : RouteSet := { epoch, limits }

end RouteSet

end MiniGo.Rpc
