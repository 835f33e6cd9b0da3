/-
Provisional results.

`Accept`, `Discard` and `finishForShutdown` enter a result in one lock section and leave it in
another; the decision callback and the release run in goroutines of their own, outside of the
lock, and any party may run between two sections. The first call fixes the decision. An
accepted result is delivered to one of its waiters, abandoned by the last of them, failed, or
still waited for.
-/
import MiniGo.Lib.Table
import MiniGo.Lib.Replay

namespace MiniGo.Rpc.Provisional

open Replay Table

/-- The errors that a call returns; `errors.Join` is a list of them and `[]` is no error. -/
inductive Failure
  | failedPrecondition (message : String)
  | canceled (message : String)
  | deadlineExceeded (message : String)
  | internal (message : String)
  /-- An error of the callback or of the release. -/
  | other (message : String)
deriving DecidableEq

inductive ContextError
  | canceled
  | deadlineExceeded
deriving DecidableEq

def statusError : ContextError → Failure
  | .canceled => .canceled "context canceled"
  | .deadlineExceeded => .deadlineExceeded "context deadline exceeded"

/-- How the decision callback ends. -/
inductive Outcome
  | returns (errors : List Failure)
  | panics (failure : String)
deriving DecidableEq

@[grind] def Outcome.errors : Outcome → List Failure
  | returns errors => errors
  | panics failure => [.internal ("rpc result decision panic: " ++ failure)]

/-- A result, with its goroutines and a log of what they have run. -/
structure Result where
  /-- There is a decision callback. -/
  accept : Bool := true
  /-- There is something to release. -/
  release : Bool := true
  /-- The channel, once it is made, and whether it is closed. -/
  done : Option Bool := none
  accepted : Bool := false
  waiters : Nat := 0
  delivered : Bool := false
  abandoned : Bool := false
  cleaned : Bool := false
  decisionErr : List Failure := []
  /-- The goroutines of `finishDecision` that have not run the callback. -/
  deciding : Nat := 0
  /-- The errors of those that have, before their lock section. -/
  decided : List (List Failure) := []
  /-- The calls of `releaseAbandoned` that have not run the release. -/
  releasing : Nat := 0
  /-- The errors of those that have, before their lock section. -/
  released : List (List Failure) := []
  /-- The invocations of the callback. -/
  decisions : List (Bool × Outcome) := []
  /-- How often the release has been run. -/
  releases : Nat := 0

/-- A call of `Accept` or `Discard`, by its decision, or of `finishForShutdown`. -/
structure Call where
  decision : Option Bool
  /-- The error of its context, once that is cancelled. -/
  context : Option ContextError
  returned : Option (List Failure)

/-- The call is counted as a waiter. -/
@[grind] def Call.waits (call : Call) : Bool := call.decision != none && call.returned == none

namespace Result

variable (r : Result)

/-- The channel is made and `finishDecision` starts. -/
@[grind] def start (accepted : Bool) : Result :=
  { r with accepted, done := some false, deciding := r.deciding + 1 }

/-- The first lock section of `decide`. -/
@[grind] def enter (accept : Bool) (context : Option ContextError) : Result × Call :=
  if r.done ≠ none ∧ r.accepted ≠ accept then
    (r, ⟨some accept, context,
      some [.failedPrecondition "rpc result already has a different decision"]⟩)
  else
    let r := if r.done = none then r.start (accept && decide (context = none)) else r
    if r.abandoned && accept then
      (r, ⟨some accept, context, some [.canceled "rpc result delivery was abandoned"]⟩)
    else ({ r with waiters := r.waiters + 1 }, ⟨some accept, context, none⟩)

/-- The first lock section of `finishForShutdown`. -/
@[grind] def join : Result := if r.done = none then r.start r.accepted else r

/-- Together with the call of `releaseAbandoned` that follows a claim. -/
@[grind] def claimAbandonedReleaseLocked : Result :=
  if r.done ≠ some true then r
  else if !r.accepted || !r.abandoned || r.cleaned || r.decisionErr ≠ [] then r
  else { r with cleaned := true, releasing := r.releasing + r.release.toNat }

/-- The second lock section of `decide` with a cancelled context. -/
@[grind] def withdraw : Result :=
  let r := { r with waiters := r.waiters - 1 }
  claimAbandonedReleaseLocked
    (if r.waiters = 0 ∧ r.delivered = false then { r with abandoned := true } else r)

/-- The second lock section of `decide` otherwise. -/
@[grind] def deliver : Result :=
  let r := { r with waiters := r.waiters - 1 }
  if r.decisionErr = [] then { r with delivered := true } else r

/-- `finishDecision` up to its lock section. -/
@[grind] def callback (outcome : Outcome) : Option Result :=
  if r.deciding = 0 then none
  else if r.accept then
    some { r with decided := outcome.errors :: r.decided, deciding := r.deciding - 1
                  decisions := (r.accepted, outcome) :: r.decisions }
  else some { r with decided := [] :: r.decided, deciding := r.deciding - 1 }

/-- The lock section of `finishDecision`. Without a result the channel cannot be closed. -/
@[grind] def finishDecision : Option Result :=
  match r.decided, r.done with
  | errors :: decided, some false =>
    some (claimAbandonedReleaseLocked { r with decided, decisionErr := errors, done := some true })
  | _, _ => none

/-- `releaseAbandoned` up to its lock section. -/
@[grind] def runRelease (errors : List Failure) : Option Result :=
  if r.releasing = 0 then none
  else some { r with releasing := r.releasing - 1, releases := r.releases + 1
                     released := errors :: r.released }

/-- The lock section of `releaseAbandoned`. -/
@[grind] def releaseAbandoned : Option Result :=
  match r.released with
  | errors :: released => some { r with released, decisionErr := r.decisionErr ++ errors }
  | [] => none

end Result

inductive Action
  | decide (accept : Bool) (context : Option ContextError)
  | finishForShutdown
  /-- The context of a call is cancelled. -/
  | cancel (error : ContextError)
  /-- A call returns. -/
  | leave
  | callback (outcome : Outcome)
  | finishDecision
  | runRelease (errors : List Failure)
  | releaseAbandoned

/-- One operation. The `select` of a call lets it leave when the channel is closed or its
context is cancelled, which both remain so. -/
def advance : Action → Result → Option Call → Option (Result × Option Call)
  | .decide accept context, r, none =>
    some ((r.enter accept context).1, some (r.enter accept context).2)
  | .finishForShutdown, r, none => some (r.join, some ⟨none, none, none⟩)
  | .cancel error, r, some ⟨decision, none, none⟩ => some (r, some ⟨decision, some error, none⟩)
  | .leave, r, some ⟨none, context, none⟩ =>
    if r.done = some true then some (r, some ⟨none, context, some r.decisionErr⟩) else none
  | .leave, r, some ⟨some accept, some error, none⟩ =>
    some (r.withdraw, some ⟨some accept, some error, some [statusError error]⟩)
  | .leave, r, some ⟨some accept, none, none⟩ =>
    if r.done = some true then some (r.deliver, some ⟨some accept, none, some r.decisionErr⟩)
    else none
  | .callback outcome, r, call => (r.callback outcome).map (·, call)
  | .finishDecision, r, call => r.finishDecision.map (·, call)
  | .runRelease errors, r, call => (r.runRelease errors).map (·, call)
  | .releaseAbandoned, r, call => r.releaseAbandoned.map (·, call)
  | _, _, _ => none

/-- A result with the calls on it. -/
structure State extends Result where
  calls : Table Nat Call := ∅

def step (event : Nat × Action) (state : State) : Option State :=
  (advance event.2 state.toResult (state.calls.lookup event.1)).map fun next =>
    ⟨next.1, put state.calls event.1 next.2⟩

/-- The callback, if there is one, has been run once with the decision and gave the errors. -/
def Logged (callback accepted : Bool) (decisions : List (Bool × Outcome))
    (errors : List Failure) : Prop :=
  if callback then ∃ outcome, outcome.errors = errors ∧ decisions = [(accepted, outcome)]
  else errors = [] ∧ decisions = []

/-- What is true of a result between two operations. -/
structure Coherent (r : Result) : Prop where
  fresh : r.done = none → r.waiters = 0 ∧ r.accepted = false ∧ r.abandoned = false ∧
    r.delivered = false ∧ r.deciding = 0 ∧ r.decided = [] ∧ r.decisions = []
  running : r.done = some false → r.deciding = 1 ∧ r.decided = [] ∧ r.decisions = [] ∨
    r.deciding = 0 ∧ ∃ errors, r.decided = [errors] ∧ Logged r.accept r.accepted r.decisions errors
  closed : r.done = some true → r.deciding = 0 ∧ r.decided = [] ∧ ∃ errors,
    Logged r.accept r.accepted r.decisions errors ∧ (r.cleaned = false → r.decisionErr = errors)
  claims : r.releasing + r.releases = (r.cleaned && r.release).toNat
  unclaimed : r.cleaned = false → r.released = []
  cleaned : r.cleaned = true → r.done = some true ∧ r.accepted = true ∧ r.abandoned = true
  claimed : r.done = some true → r.accepted = true → r.abandoned = true → r.decisionErr = [] →
    r.cleaned = true
  lost : r.accepted = true → r.abandoned = true → r.waiters = 0 ∧ r.delivered = false
  kept : r.accepted = true → r.waiters = 0 → r.delivered = true ∨ r.abandoned = true ∨
    r.done = some true ∧ r.decisionErr ≠ []

/-- What a result knows of a call on it. -/
structure Fits (r : Result) (call : Call) : Prop where
  made : r.done ≠ none
  waits : call.returned = none → call.context = none → call.decision ≠ some !r.accepted
  opposed : call.returned = none → call.decision = some false → r.accepted = false
  accepted : call.returned = some [] → call.decision = some true →
    r.accepted = true ∧ r.delivered = true ∧ r.done = some true
  discarded : call.returned = some [] → call.decision = some false → r.accepted = false

namespace Coherent

variable {result after : Result} (hcoherent : Coherent result)
include hcoherent

theorem enter (accept : Bool) (context : Option ContextError) :
    Coherent (result.enter accept context).1 := by
  cases hcoherent
  constructor <;> grind -linarith

theorem withdraw (hwaits : 0 < result.waiters) : Coherent result.withdraw := by
  cases hcoherent
  constructor <;> grind -linarith

theorem deliver (hwaits : 0 < result.waiters) (hdone : result.done = some true) :
    Coherent result.deliver := by
  cases hcoherent
  constructor <;> grind -linarith

theorem callback {outcome : Outcome} (hcallback : result.callback outcome = some after) :
    Coherent after := by
  cases hcoherent
  constructor <;> grind -linarith [Logged]

theorem finishDecision (hfinish : result.finishDecision = some after) : Coherent after := by
  cases hcoherent
  constructor <;> grind -linarith

end Coherent

/-- How many of at most one call are waiters. -/
@[grind] def weight (call : Option Call) : Nat := (call.any Call.waits).toNat

section Advance

variable {action : Action} {before after : Result} {old new : Option Call}
  (hadvance : advance action before old = some (after, new))
include hadvance

theorem advance_waiters (hold : weight old ≤ before.waiters) :
    after.waiters + weight old = before.waiters + weight new := by
  unfold advance at hadvance
  split at hadvance <;> grind -linarith

/-- A delivery is a call that has returned without an error. -/
theorem advance_delivered (hdelivered : after.delivered = true) :
    (∃ call, new = some call ∧ call.decision ≠ none ∧ call.returned = some []) ∨
      before.delivered = true ∧
        ∀ call, old = some call → call.returned ≠ none → new = some call := by
  unfold advance at hadvance
  split at hadvance <;> grind -linarith

variable (hcoherent : Coherent before)
include hcoherent

theorem advance_coherent (hwaits : weight old ≤ before.waiters) : Coherent after := by
  have hfields := hcoherent
  cases hfields
  unfold advance at hadvance
  split at hadvance
  · grind -linarith [hcoherent.enter]
  · constructor <;> grind -linarith
  · grind -linarith
  · grind -linarith
  · grind -linarith [hcoherent.withdraw]
  · grind -linarith [hcoherent.deliver]
  · grind -linarith [hcoherent.callback]
  · grind -linarith [hcoherent.finishDecision]
  · constructor <;> grind -linarith
  · constructor <;> grind -linarith
  · cases hadvance

/-- A decision that is made stands, and so do a delivery and the closing of the channel. -/
theorem advance_keeps {call : Call} (hfits : Fits before call) : Fits after call := by
  have hfresh := hcoherent.fresh
  cases hfits
  unfold advance at hadvance
  split at hadvance <;> constructor <;> grind -linarith

theorem advance_fits (hold : ∀ call, old = some call → Fits before call) :
    ∀ call, new = some call → Fits after call := by
  have hfresh := hcoherent.fresh
  have hkeeps := @advance_keeps _ _ _ _ _ hadvance hcoherent
  rintro call rfl
  unfold advance at hadvance
  split at hadvance
  · constructor <;> grind -linarith
  · constructor <;> grind -linarith
  -- the calls that are cancelled or leave were there before
  · constructor <;> grind -linarith [Fits]
  · constructor <;> grind -linarith [Fits]
  · constructor <;> grind -linarith [Fits]
  · constructor <;> grind -linarith [Fits]
  all_goals grind -linarith

end Advance

structure Invariant (state : State) : Prop where
  waiters : state.waiters = tally Call.waits state.calls
  coherent : Coherent state.toResult
  fits : ∀ caller call, state.calls.lookup caller = some call → Fits state.toResult call
  delivered : state.delivered = true → ∃ caller call,
    state.calls.lookup caller = some call ∧ call.decision ≠ none ∧ call.returned = some []

theorem initial_invariant (accept release : Bool) : Invariant { accept, release } where
  waiters := rfl
  coherent := by constructor <;> grind -linarith
  fits caller _ hc := nomatch (AList.lookup_empty caller).symm.trans hc
  delivered hd := nomatch hd

theorem Invariant.step {event : Nat × Action} {before after : State} (hi : Invariant before)
    (hs : step event before = some after) : Invariant after := by
  obtain ⟨⟨res, new⟩, ha, rfl⟩ := Option.map_eq_some_iff.mp hs
  have hp := @tally_put _ _ _ Call.waits before.calls event.1
  have hw : weight (before.calls.lookup event.1) ≤ before.waiters := by
    rw [hi.waiters, weight, ← Nat.add_zero (tally Call.waits before.calls)]
    exact hp none ▸ Nat.le_add_left _ _
  refine ⟨?_, advance_coherent ha hi.coherent hw, fun caller call hc => ?_, fun hd => ?_⟩
  · have hwa := advance_waiters ha hw
    rw [hi.waiters, weight, weight] at hwa
    change res.waiters = tally Call.waits (put before.calls event.1 new)
    have := hp new
    omega
  · by_cases hca : caller = event.1
    · rw [hca, lookup_put_self] at hc
      exact advance_fits ha hi.coherent (hi.fits event.1) call hc
    · rw [lookup_put_of_ne new hca] at hc
      exact advance_keeps ha hi.coherent (hi.fits caller call hc)
  · rcases advance_delivered ha hd with ⟨call, rfl, hc⟩ | ⟨hb, hk⟩
    · exact ⟨event.1, call, lookup_put_self _, hc⟩
    · obtain ⟨caller, call, hl, hdc, hr⟩ := hi.delivered hb
      refine ⟨caller, call, ?_, hdc, hr⟩
      by_cases hca : caller = event.1
      · subst hca
        rw [lookup_put_self]
        exact hk call hl (hr ▸ Option.some_ne_none _)
      · exact (lookup_put_of_ne new hca).trans hl

/-- What a result promises in a state. -/
structure Sound (state : State) : Prop where
  /-- The callback is invoked at most once, and its goroutine can finish. -/
  once : state.decisions.length ≤ 1 ∧ (state.decided ≠ [] → state.finishDecision ≠ none)
  /-- If some `Accept` returned without an error, the callback was invoked with it and nothing
  is released. -/
  accepted : ∀ caller call, state.calls.lookup caller = some call → call.decision = some true →
    call.returned = some [] → state.releasing + state.releases = 0 ∧
      (state.accept = true → ∃ outcome, state.decisions = [(true, outcome)])
  releases : state.releasing + state.releases ≤ 1
  /-- If the callback accepted and every `Accept` returned an error, there has been one release
  when no goroutine is left. -/
  released : state.release = true →
    (∃ outcome, outcome.errors = [] ∧ (true, outcome) ∈ state.decisions) →
    (∀ caller call, state.calls.lookup caller = some call → call.decision = some true →
      ∃ error errors, call.returned = some (error :: errors)) →
    state.decided = [] → state.releasing = 0 → state.releases = 1
  /-- A `Discard` without an error excludes an `Accept` without one. -/
  excluded : ∀ caller call, state.calls.lookup caller = some call → call.decision = some false →
    call.returned = some [] → ∀ other found, state.calls.lookup other = some found →
      found.decision = some true → found.returned ≠ some []

theorem Invariant.sound {state : State} (hi : Invariant state) : Sound state := by
  obtain ⟨hfr, hru, hcls, hcm, hu, hcle, hcla, hlo, hk⟩ := hi.coherent
  have hca : state.done = none ∨ state.done = some false ∨ state.done = some true := by
    rcases state.done with _ | _ | _ <;> simp
  refine ⟨⟨?_, ?_⟩, ?_, hcm ▸ Bool.toNat_le _, ?_, ?_⟩
  · grind -linarith [Logged]
  · grind -linarith
  · intro c ca hc hd hre
    have := (hi.fits c ca hc).accepted hre hd
    grind -linarith [Logged]
  · intro hrel hacc hre hde hr
    have hac : state.accepted = true := by grind -linarith [Logged]
    have hw : state.waiters = 0 := by
      rw [hi.waiters]
      refine tally_eq_zero fun c ca hc => ?_
      have ho := (hi.fits c ca hc).opposed
      rcases ca with ⟨_ | _ | _, co, re⟩ <;> grind -linarith
    have hdl : state.delivered = false := by
      by_contra hnot
      obtain ⟨c, ca, hc, hd, hn⟩ := hi.delivered (Bool.not_eq_false _ ▸ hnot)
      have hdi := (hi.fits c ca hc).discarded hn
      rcases ca with ⟨_ | _ | _, co, re⟩ <;> grind -linarith
    -- nobody waits and nothing was delivered, so the last waiter has abandoned the result
    have hdo : state.done = some true := by grind -linarith
    obtain ⟨-, -, e, hl, he⟩ := hcls hdo
    have hn : e = [] := by grind -linarith [Logged]
    have hcl : state.cleaned = true := by grind -linarith
    rw [hcl, hrel, hr, Nat.zero_add] at hcm
    exact hcm
  · intro c ca hc hd hre o f hf hac hn
    have hfa := (hi.fits c ca hc).discarded hre hd
    have ht := ((hi.fits o f hf).accepted hn hac).1
    cases hfa.symm.trans ht

/-- In every interleaving of calls on one result, with contexts cancelled at any time and a
callback that may fail, every state that is passed keeps the promises of the result. -/
theorem result_sound {accept release : Bool} {log : List (Nat × Action)} {state : State}
    (hpasses : Passes step log { accept, release } state) : Sound state := by
  have hinv : Invariant state :=
    passes_induction (initial_invariant accept release) (fun before event after hoccurs hbef => by
      obtain ⟨-, -, -, -, hstep⟩ := hoccurs
      exact hbef.step hstep) state hpasses
  exact hinv.sound

/-- Both callers of `Accept` give up, the second one before the callback's lock section. -/
def abandonedLog : List (Nat × Action) :=
  [(0, .decide true none), (1, .decide true none), (2, .finishForShutdown), (0, .cancel .canceled),
    (0, .leave), (3, .callback (.returns [])), (1, .cancel .deadlineExceeded), (1, .leave),
    (3, .finishDecision), (4, .decide false none), (5, .decide true none), (3, .runRelease [])]

theorem abandonedLog_sound : ∃ state, replay step abandonedLog {} = some state ∧
    state.releases = 1 ∧ state.decisions = [(true, .returns [])] ∧ Sound state :=
  ⟨_, rfl, rfl, rfl, @result_sound true true abandonedLog _ ⟨abandonedLog, [], rfl, rfl⟩⟩

/-- No call waits in vain: it can return, or the goroutine that decides can go on. -/
theorem call_not_stuck {accept release : Bool} {log : List (Nat × Action)} {state : State}
    (hpasses : Passes step log { accept, release } state) {caller : Nat} {call : Call}
    (hcall : state.calls.lookup caller = some call) (hwaits : call.returned = none) :
    (step (caller, .leave) state).isSome ∨ (step (caller, .finishDecision) state).isSome ∨
      ∀ outcome, (step (caller, .callback outcome) state).isSome := by
  have hinv : Invariant state :=
    passes_induction (initial_invariant accept release) (fun before event after hoccurs hbef => by
      obtain ⟨-, -, -, -, hstep⟩ := hoccurs
      exact hbef.step hstep) state hpasses
  have hmade := (hinv.fits caller call hcall).made
  have hrunning := hinv.coherent.running
  simp only [step, Option.isSome_map, hcall]
  obtain ⟨decision, context, returned⟩ := call
  obtain rfl : returned = none := hwaits
  rcases hdone : state.done with _ | _ | _
  · exact absurd hdone hmade
  · rcases hrunning hdone with hdeciding | hdecided
    · exact .inr (.inr fun outcome => by grind [advance])
    · exact .inr (.inl (by grind [advance]))
  · exact .inl (by cases decision <;> cases context <;> simp [advance, hdone])

theorem abandonedLog_not_stuck : ∃ state, replay step abandonedLog {} = some state ∧
    ((step (2, .leave) state).isSome ∨ (step (2, .finishDecision) state).isSome ∨
      ∀ outcome, (step (2, .callback outcome) state).isSome) :=
  ⟨_, rfl, @call_not_stuck true true abandonedLog _ ⟨abandonedLog, [], rfl, rfl⟩ 2 _ rfl rfl⟩

end MiniGo.Rpc.Provisional
