/-
What a critical section of a route set can change.

`Change` has one case for every way in which calls, closers and resources are updated
together, and `step_change` shows that a step is one of them.
-/
import MiniGo.Rpc.RouteSet

namespace MiniGo.Rpc

namespace CallStage

/-- The call or its result has a closer that works for it. -/
def closing : CallStage → Bool
  | .rejecting | .releasing .. => true
  | _ => false

/-- A call gets on by itself. -/
structure Quiet (old new : CallStage) : Prop where
  old_ne : old ≠ .invoking
  new_ne : new ≠ .invoking
  closing : old.closing = false
  working : new.working = true → old.working = true
  owned : new.owned = true → old.owned = true ∨ old.working = true

end CallStage

namespace CloserStage

/-- The closer has made an attempt that it has not recorded yet. -/
def engaged : CloserStage → Bool
  | .waiting _ | .closing | .closed _ => true
  | .next | .leaving => false

end CloserStage

namespace RouteSet

/-- What is forgotten about a call while resources are still accepted is known to it. -/
def Knows (routes : RouteSet) (id : UInt64) (objects : List UInt64) : Prop :=
  routes.state.acceptsResourceCalls = true →
    ∀ object ∈ (routes.provisionalResources.lookup id).getD [], object ∈ objects

/-- An event does not forget a resource that was exported after the handler had returned. -/
def KeepsExports (routes : RouteSet) : RouteEvent → Prop
  | .reject id => ∀ thread objects, routes.calls.lookup id = some thread →
      thread.stage = .kept objects → routes.Knows id objects
  | .provided id _ => ∀ thread objects accepted, routes.calls.lookup id = some thread →
      thread.stage = .deciding objects accepted → routes.Knows id objects
  | _ => True

/-- A change of a route set, where exports are kept if it is careful. -/
inductive Change (careful : Prop) : RouteSet → RouteSet → Prop
  /-- A call is refused after it has been numbered. -/
  | number {routes : RouteSet} (hnext : routes.nextCall ≠ 18446744073709551615) :
      Change careful routes { routes with nextCall := routes.nextCall + 1 }
  | begin {routes : RouteSet} {borrows : List UInt64} (pendingCalls : Nat)
      (haccepts : routes.state.acceptsResourceCalls = true)
      (hnext : routes.nextCall ≠ 18446744073709551615)
      (hborrows : ∀ object ∈ borrows, object ∈ routes.resources ∧ object ∉ routes.resourceCloses) :
      Change careful routes { routes with
          nextCall := routes.nextCall + 1
          pendingCalls
          resources := Table.revise (fun object entry =>
            if object ∈ borrows then entry.borrow (routes.nextCall + 1) else entry)
            routes.resources
          calls := routes.calls.insert (routes.nextCall + 1) { borrows, stage := .invoking } }
  | exported {routes : RouteSet} {id : UInt64} (typeHash : Bytes)
      (haccepts : routes.state.acceptsResourceCalls = true)
      (hnext : routes.nextResource ≠ 18446744073709551615) :
      Change careful routes { routes with
          nextResource := routes.nextResource + 1
          resources := routes.resources.insert (routes.nextResource + 1) { typeHash }
          provisionalResources := routes.provisionalResources.insert id
            ((routes.provisionalResources.lookup id).getD [] ++ [routes.nextResource + 1]) }
  | giveBack {routes : RouteSet} {id : UInt64} {thread : CallThread}
      (hlookup : routes.calls.lookup id = some thread) (hstage : thread.stage = .invoking) :
      Change careful routes (routes.releaseResourceBorrows id thread)
  | move {routes : RouteSet} {id : UInt64} {thread : CallThread} (stage : CallStage)
      (pendingCalls pendingResults : Nat)
      (hlookup : routes.calls.lookup id = some thread) (hquiet : thread.stage.Quiet stage) :
      Change careful routes (setCall { routes with pendingCalls, pendingResults } id thread stage)
  | reject {routes : RouteSet} {id : UInt64} {thread : CallThread} {objects : List UInt64}
      (hlookup : routes.calls.lookup id = some thread)
      (hworking : thread.stage.working = true) (hquiet : thread.stage.Quiet .rejecting)
      (hknows : careful → routes.Knows id objects) :
      Change careful routes (routes.rejectCall id thread objects)
  | accept {routes : RouteSet} {id : UInt64} {thread : CallThread} {objects : List UInt64}
      (stage : CallStage) (hlookup : routes.calls.lookup id = some thread)
      (haccepts : routes.state.acceptsResourceCalls = true)
      (hquiet : thread.stage.Quiet stage)
      (hknows : careful → routes.Knows id objects) :
      Change careful routes (setCall { routes with
            provisionalResources := routes.provisionalResources.erase id
            resources := Table.revise (fun object entry =>
              if object ∈ objects then { entry with active := true } else entry)
              routes.resources
            resourceOrder := routes.resourceOrder ++
              objects.filter fun object => decide (object ∈ routes.resources) }
          id thread stage)
  | discard {routes : RouteSet} {id : UInt64} {thread : CallThread} {objects : List UInt64}
      {accepted failed : Bool} (hlookup : routes.calls.lookup id = some thread)
      (hquiet : thread.stage.Quiet (.releasing objects accepted failed))
      (hknows : careful → routes.Knows id objects) :
      Change careful routes ((startCloser
          { routes with provisionalResources := routes.provisionalResources.erase id }
          (.call id) objects).setCall id thread (.releasing objects accepted failed))
  | release {routes : RouteSet} (objects : List UInt64)
      (haccepts : routes.state.acceptsResourceCalls = true) :
      Change careful routes (routes.startCloser .release objects)
  | drop {routes : RouteSet} {id : UInt64} {entry : ProviderResource}
      (haccepts : routes.state.acceptsResourceCalls = true)
      (hlookup : routes.resources.lookup id = some entry)
      (hidle : ∀ attempt, routes.resourceCloses.lookup id = some attempt → attempt.done = true) :
      Change careful routes { routes with
          resourceCloses := routes.resourceCloses.insert id ⟨routes.nextCloser, false⟩
          closers := routes.closers.insert routes.nextCloser
            { owner := .drop, objects := [id], stage := .waiting entry.borrowDone }
          nextCloser := routes.nextCloser + 1
          released := id :: routes.released }
  /-- `releaseObjects` is over and its call goes on. -/
  | endCall {routes : RouteSet} {token : Nat} {closer : Closer} {id : UInt64}
      {thread : CallThread} (stage : CallStage)
      (hcloser : routes.closers.lookup token = some closer)
      (howner : closer.owner = .call id) (hobjects : closer.objects = [])
      (hlookup : routes.calls.lookup id = some thread)
      (hclosing : thread.stage.closing = true) (hstage : stage.closing = false)
      (hinvoking : stage ≠ .invoking)
      (hworking : stage.working = true → thread.stage.working = true)
      (howned : stage.owned = true → thread.stage.owned = true) :
      Change careful routes
        (setCall { routes with closers := routes.closers.erase token } id thread stage)
  | remove {routes : RouteSet} {token : Nat} {closer : Closer}
      (hcloser : routes.closers.lookup token = some closer) (hobjects : closer.objects = [])
      (howner : closer.owner ≠ .cleanup) :
      Change careful routes { routes with closers := routes.closers.erase token }
  | endRelease {routes : RouteSet} {token : Nat} {closer : Closer}
      (hcloser : routes.closers.lookup token = some closer) (hobjects : closer.objects = [])
      (howner : closer.owner = .cleanup) :
      Change careful routes
        { routes with closers := routes.closers.erase token, cleanup := some .leaving }
  | skip {routes : RouteSet} {token : Nat} {closer : Closer} {id : UInt64} {rest : List UInt64}
      (hcloser : routes.closers.lookup token = some closer) (hstage : closer.stage = .next)
      (hobjects : closer.objects = id :: rest) (hlookup : routes.resources.lookup id = none) :
      Change careful routes (routes.setCloser token { closer with objects := rest })
  | attempt {routes : RouteSet} {token : Nat} {closer : Closer} {id : UInt64}
      {rest : List UInt64} {entry : ProviderResource}
      (hcloser : routes.closers.lookup token = some closer) (hstage : closer.stage = .next)
      (hobjects : closer.objects = id :: rest)
      (hlookup : routes.resources.lookup id = some entry)
      (hidle : ∀ attempt, routes.resourceCloses.lookup id = some attempt → attempt.done = true) :
      Change careful routes (setCloser { routes with
            resourceCloses := routes.resourceCloses.insert id ⟨token, false⟩
            released := id :: routes.released }
          token { closer with stage := .waiting entry.borrowDone })
  /-- The `Close` of a resource is called. -/
  | closing {routes : RouteSet} {token : Nat} {closer : Closer} {id : UInt64}
      {rest : List UInt64} {borrows : Option UInt64}
      (hcloser : routes.closers.lookup token = some closer)
      (hstage : closer.stage = .waiting borrows) (hobjects : closer.objects = id :: rest)
      (hborrows : ∀ channel, borrows = some channel → (id, channel) ∈ routes.borrowsDone) :
      Change careful routes (setCloser { routes with closeCalls := id :: routes.closeCalls } token
          { closer with stage := .closing })
  | closed {routes : RouteSet} {token : Nat} {closer : Closer} {id : UInt64}
      {rest : List UInt64} (failed : Bool)
      (hcloser : routes.closers.lookup token = some closer) (hstage : closer.stage = .closing)
      (hobjects : closer.objects = id :: rest) :
      Change careful routes (setCloser { routes with
            closeSuccesses :=
              if failed then routes.closeSuccesses else id :: routes.closeSuccesses }
          token { closer with stage := .closed failed })
  /-- The resource is gone, whether its `Close` succeeded or cleaning gives it up. -/
  | detach {routes : RouteSet} {token : Nat} {closer other : Closer} {id : UInt64}
      {rest : List UInt64} {failed : Bool}
      (hcloser : routes.closers.lookup token = some closer)
      (hstage : closer.stage = .closed failed) (hobjects : closer.objects = id :: rest)
      (howner : other.owner = closer.owner)
      (hother : closer.owner = .drop ∧ other.stage = .leaving ∧ other.objects = id :: rest ∨
        closer.owner ≠ .drop ∧ other.stage = .next ∧ other.objects = rest) :
      Change careful routes (setCloser
          { routes.detachResource id with resourceCloses := routes.resourceCloses.erase id }
          token other)
  | failedDrop {routes : RouteSet} {token : Nat} {closer : Closer} {id : UInt64}
      {rest : List UInt64} (hcloser : routes.closers.lookup token = some closer)
      (hstage : closer.stage = .closed true) (hobjects : closer.objects = id :: rest)
      (howner : closer.owner = .drop) :
      Change careful routes (routes.setCloser token { closer with stage := .leaving })
  /-- A resource whose `Close` failed is kept for the cleanup. -/
  | failedRelease {routes : RouteSet} {token : Nat} {closer other : Closer} {id : UInt64}
      {rest order : List UInt64} (hcloser : routes.closers.lookup token = some closer)
      (hstage : closer.stage = .closed true) (hobjects : closer.objects = id :: rest)
      (howner : closer.owner ≠ .drop) (hother : other.owner = closer.owner)
      (hnext : other.stage = .next) (hrest : other.objects = rest)
      (horder : ∀ object ∈ routes.resourceOrder, object ∈ order) :
      Change careful routes (setCloser { routes with
            resourceOrder := order
            resourceCloses := routes.resourceCloses.insert id ⟨token, true⟩ }
          token other)
  | leaveDrop {routes : RouteSet} {token : Nat} {closer : Closer} {id : UInt64}
      {rest : List UInt64} (hcloser : routes.closers.lookup token = some closer)
      (hstage : closer.stage = .leaving) (hobjects : closer.objects = id :: rest) :
      Change careful routes (routes.leaveDrop token id)
  | drain {routes : RouteSet} (hstate : routes.state = .opened) :
      Change careful routes { routes with state := .draining }
  | beginCleanup {routes : RouteSet} {resources : List UInt64}
      (haccepts : routes.state.acceptsResourceCalls = true)
      (hresources : Table.size routes.resources = 0 ∨ resources = routes.resourceOrder ++
          (routes.provisionalResources.entries.map (·.2)).flatten) :
      Change careful routes { routes with state := .cleaning, cleanup := some (.calls resources) }
  | callsDone {routes : RouteSet} {resources : List UInt64}
      (hcleanup : routes.cleanup = some (.calls resources))
      (hheld : routes.callsHeld = false) :
      Change careful routes { routes with cleanup := some (.results routes.resultOwners resources) }
  | resultDone {routes : RouteSet} {id : UInt64} {rest resources : List UInt64}
      {thread : CallThread} (hcleanup : routes.cleanup = some (.results (id :: rest) resources))
      (hlookup : routes.calls.lookup id = some thread) (howned : thread.stage.owned = false) :
      Change careful routes { routes with cleanup := some (.results rest resources) }
  | resultsDone {routes : RouteSet} {resources : List UInt64}
      (hcleanup : routes.cleanup = some (.results [] resources)) :
      Change careful routes
        (startCloser { routes with cleanup := some .releasing } .cleanup resources.reverse)
  | endCleanup {routes : RouteSet} (hcleanup : routes.cleanup = some .leaving) :
      Change careful routes routes.endCleanup

section Steps

variable {careful : Prop} {routes next : RouteSet}

variable {receiver : Option ResourceRef} {thread : CallThread} {ref : ResourceRef}

theorem acceptsResourceCalls_of_acceptsCall {st : RouteSetState}
    (h : st.acceptsCall receiver = true) : st.acceptsResourceCalls = true := by
  cases receiver with
  | none => cases st <;> first | rfl | cases h
  | some ref => exact h

theorem usable_imp (h : routes.usable ref = true) :
    ref.objectID ∈ routes.resources ∧ ref.objectID ∉ routes.resourceCloses := by
  rw [usable, Bool.and_eq_true, Bool.and_eq_true, decide_eq_true_iff, decide_eq_true_iff] at h
  obtain ⟨⟨-, he⟩, hc⟩ := h
  refine ⟨?_, hc⟩
  rw [← AList.lookup_isSome]
  cases hl : routes.resources.lookup ref.objectID with
  | none =>
    rw [hl] at he
    cases he
  | some entry => rfl

theorem beginCall_change {arguments : List ResourceRef} {resourceTypeHash : Bytes} {bound : Bool}
    (h : routes.beginCall receiver arguments resourceTypeHash bound = some next) :
    Change careful routes next := by
  unfold beginCall at h
  split at h
  · cases h
  · rename_i href
    simp only [not_or, Bool.not_eq_false, ne_eq] at href
    obtain ⟨ha, -, -, har, hnext⟩ := href
    split at h
    · cases h
      exact .number hnext
    · rename_i hr
      cases h
      refine .begin _ (acceptsResourceCalls_of_acceptsCall ha) hnext ?_
      intro obj ho
      rw [List.mem_dedup, List.mem_map] at ho
      obtain ⟨ref, hre, rfl⟩ := ho
      refine usable_imp ?_
      rcases List.mem_append.mp hre with hre | hre
      · exact List.all_eq_true.mp har ref hre
      · obtain rfl := Option.mem_toList.mp hre
        rw [Bool.not_eq_false] at hr
        exact (Bool.and_eq_true_iff.mp hr).2

variable {id : UInt64} {event : RouteEvent} {token : Nat} {closer : Closer}

theorem exportResource_change {typeHash : Bytes}
    (h : routes.exportResource id typeHash = some next) : Change careful routes next := by
  unfold exportResource at h
  split at h
  · cases h
  · rename_i hr
    simp only [not_or, Bool.not_eq_false] at hr
    cases h
    exact .exported typeHash hr.2.2.1 hr.2.2.2.2

theorem drop_change {caller : Option UInt64}
    (h : routes.drop ref caller = some next) : Change careful routes next := by
  unfold drop at h
  dsimp only at h
  split at h
  · cases h
  · rename_i entry hl
    split at h
    · cases h
    · rename_i hr
      simp only [not_or, Bool.not_eq_false] at hr
      cases h
      refine .drop hr.2.1 hl ?_
      intro attempt ha
      have hb := hr.2.2.2.2.2.2
      rw [ha] at hb
      simpa using hb

theorem finishResult_change {objs : List UInt64}
    {accepted failed : Bool} (hl : routes.calls.lookup id = some thread)
    (hs : thread.stage = .deciding objs accepted)
    (hk : careful → routes.Knows id objs) :
    Change careful routes (routes.finishResult id thread objs accepted failed) := by
  unfold finishResult
  split
  · exact .move _ _ _ hl (hs ▸ ⟨nofun, nofun, rfl, nofun, fun _ => .inl rfl⟩)
  · split
    · rename_i ha
      exact .accept _ hl (Bool.and_eq_true_iff.mp ha).2
        (hs ▸ ⟨nofun, nofun, rfl, nofun, fun _ => .inl rfl⟩) hk
    · exact .discard hl (hs ▸ ⟨nofun, nofun, rfl, nofun, fun _ => .inl rfl⟩) hk

theorem operateCall_change (hl : routes.calls.lookup id = some thread)
    (hr : ∀ objs, event = .reject id → thread.stage = .kept objs → careful → routes.Knows id objs)
    (hp : ∀ objs accepted failed, event = .provided id failed →
      thread.stage = .deciding objs accepted → careful → routes.Knows id objs)
    (hc : ∀ call, event = .reject call ∨ (∃ failed, event = .provided call failed) → call = id)
    (h : routes.operateCall id thread event = some next) : Change careful routes next := by
  unfold operateCall at h
  split at h
  case h_1 hs =>
    cases h
    exact .giveBack hl hs
  case h_2 failed hs =>
    split at h
    · cases h
      exact .reject hl (by rw [hs]; rfl)
        (hs ▸ ⟨nofun, nofun, rfl, fun _ => rfl, nofun⟩) fun _ _ obj ho => ho
    · cases h
      exact .move _ _ _ hl (hs ▸ ⟨nofun, nofun, rfl, fun _ => rfl, nofun⟩)
  case h_3 call objs hs =>
    cases h
    obtain rfl := hc call (.inl rfl)
    exact .reject hl (by rw [hs]; rfl)
      (hs ▸ ⟨nofun, nofun, rfl, fun _ => rfl, nofun⟩) (hr objs rfl hs)
  case h_4 objs hs =>
    cases h
    exact .move _ _ _ hl (hs ▸ ⟨nofun, nofun, rfl, fun _ => rfl, fun _ => .inr rfl⟩)
  case h_5 hs =>
    cases h
    exact .move _ _ _ hl (hs ▸ ⟨nofun, nofun, rfl, nofun, nofun⟩)
  case h_6 objs hs =>
    cases h
    exact .move _ _ _ hl (hs ▸ ⟨nofun, nofun, rfl, nofun, fun _ => .inl rfl⟩)
  case h_7 accept objs hs =>
    cases h
    exact .move _ _ _ hl (hs ▸ ⟨nofun, nofun, rfl, nofun, fun _ => .inl rfl⟩)
  case h_8 call failed objs accepted hs =>
    obtain rfl := hc call (.inr ⟨failed, rfl⟩)
    cases h
    exact finishResult_change hl hs (hp objs accepted failed rfl hs)
  case h_9 objs accepted failed hs =>
    cases h
    exact .move _ _ _ hl (hs ▸ ⟨nofun, nofun, rfl, nofun, nofun⟩)
  case h_10 objs hs =>
    split_ifs at h with hre
    cases h
    rw [not_or, Bool.not_eq_false] at hre
    exact .release objs hre.2
  case h_11 => cases h

section

variable (hcloser : routes.closers.lookup token = some closer)
include hcloser

theorem endCloser_change (hob : closer.objects = []) :
    Change careful routes (routes.endCloser token closer) := by
  unfold endCloser
  split
  case h_1 id ho =>
    have hr : Change careful routes { routes with closers := routes.closers.erase token } :=
      .remove hcloser hob (by rw [ho]; nofun)
    split
    case h_1 thread hl =>
      split
      case h_1 hs =>
        exact .endCall .leaving hcloser ho hob hl (by rw [hs]; rfl) rfl nofun
          (fun _ => by rw [hs]; rfl) nofun
      case h_2 objs accepted failed hs =>
        exact .endCall _ hcloser ho hob hl (by rw [hs]; rfl) rfl nofun nofun
          fun _ => by rw [hs]; rfl
      case h_3 => exact hr
    case h_2 => exact hr
  case h_2 ho => exact .endRelease hcloser hob ho
  case h_3 ho => exact .remove hcloser hob (by rw [ho]; nofun)
  case h_4 ho => exact .remove hcloser hob (by rw [ho]; nofun)

theorem recordClose_change {rest : List UInt64} {failed : Bool}
    (hs : closer.stage = .closed failed) (hob : closer.objects = id :: rest) :
    Change careful routes (routes.recordClose token closer id rest failed) := by
  unfold recordClose
  split
  case h_1 ho =>
    cases failed with
    | false => exact .detach hcloser hs hob rfl (.inl ⟨ho, rfl, hob⟩)
    | true => exact .failedDrop hcloser hs hob ho
  case h_2 ho =>
    have hd : closer.owner ≠ .drop := ho
    split
    · rename_i hf
      obtain rfl : failed = true := (Bool.and_eq_true_iff.mp hf).1
      refine .failedRelease hcloser hs hob hd rfl rfl rfl ?_
      intro obj hobj
      split_ifs
      · exact hobj
      · exact List.mem_append_left [id] hobj
    · exact .detach hcloser hs hob rfl (.inr ⟨hd, rfl, rfl⟩)

theorem advance_change (h : routes.advance token closer = some next) :
    Change careful routes next := by
  unfold advance at h
  split at h
  case h_1 ho =>
    cases h
    exact endCloser_change hcloser ho
  case h_2 id rest hs ho =>
    split_ifs at h with hb
    have hidle : ∀ attempt, routes.resourceCloses.lookup id = some attempt →
        attempt.done = true := by
      intro attempt ha
      rw [ha] at hb
      simpa using hb
    split at h
    case h_1 hl =>
      cases h
      exact .skip hcloser hs ho hl
    case h_2 entry hl =>
      cases h
      exact .attempt hcloser hs ho hl hidle
  case h_3 borrows id rest hs ho =>
    split_ifs at h with hbo
    cases h
    refine .closing hcloser hs ho ?_
    rintro chan rfl
    simpa using hbo
  case h_4 failed id rest hs ho =>
    cases h
    exact recordClose_change hcloser hs ho
  case h_5 id rest hs ho =>
    cases h
    exact .leaveDrop hcloser hs ho
  case h_6 => cases h

theorem operateCloser_change (h : routes.operateCloser token closer event = some next) :
    Change careful routes next := by
  unfold operateCloser at h
  split at h
  · split at h
    · rename_i hs ho
      cases h
      exact .closed _ hcloser hs ho
    · cases h
  · exact advance_change hcloser h

end

theorem beginCleanup_change {force : Bool} (h : routes.beginCleanup force = some next) :
    Change careful routes next := by
  unfold beginCleanup at h
  split_ifs at h with hr hf
  · cases h
    rw [not_or, Bool.not_eq_false] at hr
    exact .beginCleanup hr.1 (.inr rfl)
  · cases h
    rw [not_or, Bool.not_eq_false, not_and, not_or, not_or, not_or, not_not] at hr
    exact .beginCleanup hr.1 (.inl (not_not.mp (hr.2 (Bool.eq_false_iff.mpr hf)).2.2.2))

theorem continueCleanup_change (h : routes.continueCleanup = some next) :
    Change careful routes next := by
  unfold continueCleanup at h
  split at h
  case h_1 ress hc =>
    split_ifs at h with hheld
    cases h
    exact .callsDone hc (Bool.eq_false_iff.mpr hheld)
  case h_2 id rest ress hc =>
    split at h
    case h_1 thread hl =>
      split at h
      case h_1 objs hs =>
        cases h
        exact .move _ _ _ hl (hs ▸ ⟨nofun, nofun, rfl, nofun, fun _ => .inl rfl⟩)
      case h_2 hs =>
        cases h
        exact .resultDone hc hl (by rw [hs]; rfl)
      case h_3 => cases h
    case h_2 => cases h
  case h_3 ress hc =>
    cases h
    exact .resultsDone hc
  case h_4 hc =>
    cases h
    exact .endCleanup hc
  case h_5 => cases h

/-- Every step of a route set is one of its changes. -/
theorem step_change (hk : careful → routes.KeepsExports event)
    (h : step event routes = some next) : Change careful routes next := by
  have hc : ∀ id, (∀ call, event = .reject call ∨ (∃ failed, event = .provided call failed) →
      call = id) →
      ((routes.calls.lookup id).bind fun thread => routes.operateCall id thread event) =
        some next → Change careful routes next := by
    intro id hid h
    obtain ⟨thread, hl, h⟩ := Option.bind_eq_some_iff.mp h
    refine operateCall_change hl ?_ ?_ hid h
    · rintro objs rfl hs hca
      exact hk hca thread objs hl hs
    · rintro objs accepted failed rfl hs hca
      exact hk hca thread objs accepted hl hs
  have hcloser : ∀ token, ((routes.closers.lookup token).bind fun closer =>
      routes.operateCloser token closer event) = some next → Change careful routes next := by
    intro token h
    obtain ⟨closer, hl, h⟩ := Option.bind_eq_some_iff.mp h
    exact operateCloser_change hl h
  cases event with
  | call receiver arguments hash bound => exact beginCall_change h
  | exported id hash => exact exportResource_change h
  | returned id | inspect id failed | reject id | publish id | leave id | decide id accept
  | provided id failed | settle id | release id => exact hc id (by simp) h
  | drop ref caller => exact drop_change h
  | advance token => exact hcloser token h
  | closed token failed => exact hcloser token h
  | close =>
    rw [step] at h
    split_ifs at h with hst
    cases h
    exact .drain hst
  | cleanup force => exact beginCleanup_change h
  | continueCleanup => exact continueCleanup_change h

end Steps

end RouteSet

end MiniGo.Rpc
