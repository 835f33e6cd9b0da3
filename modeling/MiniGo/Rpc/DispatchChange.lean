/-
What a critical section of the endpoint can change.

`Change` lists the ways in which the tables, the counters and the dispatched operations
are updated together; `step_changes` shows that every step is a sequence of them. What
the counters count is then proved change by change.
-/
import MiniGo.Rpc.Dispatch

namespace MiniGo.Rpc

open Table Option

namespace Operation

/-- The operation still has to ask for what it was dispatched for. -/
def Early (operation : Operation) : Prop :=
  match operation.stage with
  | .admitted | .accepting | .started | .working _ => True
  | _ => False

/-- The operation waits for a write. -/
def Waits (operation : Operation) : Prop :=
  match operation.stage with
  | .accepting | .replying _ => True
  | _ => False

end Operation

/-- The operation that makes a step. -/
def Event.actor : Event → Option Nat
  | .operate token _ => some token
  | _ => none

namespace Endpoint

/-- A change made by an operation, or by none, where requests are dispatched only if they
are allowed. -/
inductive Change (allowed : Endpoint → EndpointFrame → Prop) (actor : Option Nat) :
    Endpoint → Endpoint → Prop
  /-- Bindings and results are at most dropped. -/
  | tables {endpoint : Endpoint} {inbound inboundLease inboundOperations : Table UInt64 Nat}
      {results : Table UInt64 PendingResult} {cleanups : List Cleanup}
      {peerID peerRenewID : UInt64}
      (hinbound : Table.size inbound ≤ Table.size endpoint.inbound)
      (hresults : Table.size results ≤ Table.size endpoint.results) :
      Change allowed actor endpoint { endpoint with
          inbound, inboundLease, inboundOperations, results, cleanups, peerID, peerRenewID }
  /-- An operation gets to another stage. -/
  | move {endpoint : Endpoint} {token : Nat} {operation : Operation} (stage : Stage)
      (hactor : actor = some token) (hlookup : endpoint.operations.lookup token = some operation)
      (hearly : { operation with stage }.Early → operation.Early)
      (hwaits : endpoint.isOpen = true →
        (∃ write ∈ endpoint.writes, write.owner = some token) → { operation with stage }.Waits) :
      Change allowed actor endpoint (endpoint.moveTo token operation stage)
  /-- A reservation is given up, for a binding or a result or for nothing. -/
  | enter {endpoint : Endpoint} {token : Nat} {operation : Operation} {nextBind : UInt64}
      {inbound inboundLease : Table UInt64 Nat} {results : Table UInt64 PendingResult}
      (stage : Stage) (hactor : actor = some token)
      (hlookup : endpoint.operations.lookup token = some operation)
      (hreserved : operation.reserved = true) (hstage : ¬ { operation with stage }.Early)
      (hwaits : ¬ operation.Waits)
      (hinbound : Table.size inbound ≤
        Table.size endpoint.inbound + if operation.frame.kind = .bind then 1 else 0)
      (hresults : Table.size results ≤
        Table.size endpoint.results + if operation.frame.kind = .bind then 0 else 1) :
      Change allowed actor endpoint
        ((releaseReservation { endpoint with nextBind, inbound, inboundLease, results } token
          operation).moveTo token { operation with reserved := false } stage)
  | finish {endpoint : Endpoint} {token : Nat} {operation : Operation}
      (hactor : actor = some token) (hlookup : endpoint.operations.lookup token = some operation)
      (hfinished : operation.finished = false) :
      Change allowed actor endpoint (endpoint.finishOperation token operation)
  | leave {endpoint : Endpoint} {token : Nat} {operation : Operation}
      (hactor : actor = some token) (hlookup : endpoint.operations.lookup token = some operation)
      (hreserved : operation.reserved = false) (hfinished : operation.finished = true)
      (hwaits : ¬ operation.Waits) :
      Change allowed actor endpoint { endpoint with operations := endpoint.operations.erase token }
  /-- An operation queues a write and waits for it. -/
  | queue {endpoint next : Endpoint} {token : Nat} {operation : Operation} {kind : FrameKind}
      {bytes : Nat} (stage : Stage) (hactor : actor = some token)
      (hlookup : endpoint.operations.lookup token = some operation)
      (hreserve : endpoint.reserveWrite (some token) kind bytes = some next)
      (hearly : { operation with stage }.Early → operation.Early)
      (hwaits : { operation with stage }.Waits) :
      Change allowed actor endpoint (next.moveTo token operation stage)
  | send {endpoint next : Endpoint} {kind : FrameKind} {bytes : Nat}
      (hreserve : endpoint.reserveWrite none kind bytes = some next) :
      Change allowed actor endpoint next
  | complete {endpoint : Endpoint} {write : QueuedWrite} (hwrite : write ∈ endpoint.writes) :
      Change allowed actor endpoint (endpoint.completeWrite write)
  | dispatch {endpoint : Endpoint} {frame : EndpointFrame} (now : Nat)
      (hallowed : allowed endpoint frame) (hopen : endpoint.isOpen = true)
      (hload : endpoint.overloaded frame = false) :
      Change allowed actor endpoint (endpoint.admitRequest frame now)
  | fail {endpoint : Endpoint} : Change allowed actor endpoint endpoint.fail
  | stopped {endpoint : Endpoint} (hopen : endpoint.isOpen = false)
      (hoperations : endpoint.operations.keys = []) (hwrites : endpoint.writes = []) :
      Change allowed actor endpoint { endpoint with
          queuedWriteBytes := 0, queuedControlBytes := 0, inboundReservations := 0,
          resultReservations := 0 }

abbrev Changes (allowed : Endpoint → EndpointFrame → Prop) (actor : Option Nat) :=
  Relation.ReflTransGen (Change allowed actor)

/-- An operation that has not asked yet still holds what was reserved for it. -/
def HoldsReservations (endpoint : Endpoint) : Prop :=
  ∀ token operation, endpoint.operations.lookup token = some operation → operation.Early →
    operation.frame.kind = .bind ∨ operation.frame.kind = .call → operation.reserved = true

variable {allowed : Endpoint → EndpointFrame → Prop} {ep next : Endpoint} {token : Nat}

section Operations

variable {operation : Operation}

@[simp] theorem setOperation_operations : (ep.setOperation token operation).operations =
      ep.operations.insert token operation := rfl

theorem lookup_setOperation :
    (ep.setOperation token operation).operations.lookup token = some operation :=
  AList.lookup_insert _

theorem setOperation_setOperation (other : Operation) :
    (ep.setOperation token operation).setOperation token other = ep.setOperation token other := by
  simp only [setOperation, AList.insert_insert]

theorem finishOperation_lookup : (ep.finishOperation token operation).operations.lookup token =
      some { operation with finished := true } := AList.lookup_insert _

@[simp] theorem finishOperation_writes :
    (ep.finishOperation token operation).writes = ep.writes := by
  unfold finishOperation
  dsimp only
  split_ifs <;> split <;> rfl

@[simp] theorem finishOperation_isOpen :
    (ep.finishOperation token operation).isOpen = ep.isOpen := by
  unfold finishOperation
  dsimp only
  split_ifs <;> split <;> rfl

/-- A stage at which nothing is queued is left for any other. -/
theorem Changes.moved {stage : Stage} (hlookup : ep.operations.lookup token = some operation)
    (hearly : { operation with stage }.Early → operation.Early)
    (hw : ep.isOpen = true → ¬ ∃ write ∈ ep.writes, write.owner = some token) :
    Changes allowed (some token) ep (ep.moveTo token operation stage) :=
  .single (.move stage rfl hlookup hearly fun hopen hwr => (hw hopen hwr).elim)

end Operations

/-- While an endpoint is open, a queued write of an operation is one it waits for. -/
def OwnersWait (endpoint : Endpoint) : Prop :=
  endpoint.isOpen = true → ∀ write ∈ endpoint.writes, ∀ token, write.owner = some token →
    ∃ operation, endpoint.operations.lookup token = some operation ∧ operation.Waits

section Steps

attribute [local simp] Operation.Early Operation.Waits

variable {op : Operation}

section

variable (hlookup : ep.operations.lookup token = some op)
include hlookup

theorem OwnersWait.none_queued (how : ep.OwnersWait) (hwaits : ¬ op.Waits)
    (hopen : ep.isOpen = true) :
    ¬ ∃ write ∈ ep.writes, write.owner = some token := by
  rintro ⟨write, hwr, ho⟩
  obtain ⟨found, hf, hw⟩ := how hopen write hwr token ho
  rw [hlookup, some.injEq] at hf
  exact hwaits (hf ▸ hw)

/-- The tables are edited and the operation gets on. -/
theorem Changes.edited {inbound inboundLease inboundOperations : Table UInt64 Nat}
    {results : Table UInt64 PendingResult} {cleanups : List Cleanup} (stage : Stage)
    (ho : ep.OwnersWait) (hw : ¬ op.Waits)
    (hearly : { op with stage }.Early → op.Early)
    (hinbound : size inbound ≤ size ep.inbound)
    (hr : size results ≤ size ep.results) :
    Changes allowed (some token) ep
      (moveTo { ep with inbound, inboundLease, inboundOperations, results, cleanups }
        token op stage) :=
  .head (.tables hinbound hr) (Changes.moved hlookup hearly (ho.none_queued hlookup hw))

theorem write_changes {kind : FrameKind} {bytes : Nat}
    (ho : ep.operate token op (.write kind bytes) = some next) :
    Changes allowed (some token) ep next := by
  have hf : ∀ stage, ({ op with stage }.Early → op.Early) →
      Changes allowed (some token) ep (ep.fail.moveTo token op stage) :=
    fun stage hearly => .head .fail (Changes.moved hlookup hearly nofun)
  simp only [operate] at ho
  split at ho
  · rename_i hs
    split at ho <;> obtain rfl := some.inj ho
    · rename_i hr
      exact .single (.queue .accepting rfl hlookup hr (fun _ => by simp [hs]) trivial)
    · exact hf _ nofun
  · rename_i settles hs
    split at ho <;> obtain rfl := some.inj ho
    · rename_i hr
      exact .single (.queue (.replying settles) rfl hlookup hr nofun trivial)
    · exact hf _ (by cases settles <;> nofun)
  · cases ho

theorem resume_changes {stopping : Bool} (ho : ep.operate token op (.resume stopping) = some next) :
    Changes allowed (some token) ep next := by
  simp only [operate] at ho
  split at ho
  · cases ho
  rename_i hr
  -- The write is over, or the endpoint is closed.
  have hw : ep.isOpen = true → ¬ ∃ write ∈ ep.writes, write.owner = some token := by
    intro hopen
    cases stopping with
    | false => simpa [mustWait] using hr
    | true => exact absurd hopen hr
  split at ho
  · rename_i hs
    obtain rfl := some.inj ho
    exact Changes.moved hlookup (fun _ => by simp [hs]) hw
  · rename_i settles hs
    obtain rfl := some.inj ho
    exact Changes.moved hlookup (by cases settles <;> nofun) hw
  · cases ho

/-- The reservation is given up and the reply is due. -/
theorem Changes.released {stage : Stage} {nextBind : UInt64}
    {inbound inboundLease : Table UInt64 Nat} {results : Table UInt64 PendingResult}
    (hh : ep.HoldsReservations)
    (hk : op.frame.kind = .bind ∨ op.frame.kind = .call) (hearly : op.Early)
    (hw : ¬ op.Waits) (hs : ¬ { op with stage }.Early)
    (hinbound : size inbound ≤ size ep.inbound + if op.frame.kind = .bind then 1 else 0)
    (hr : size results ≤ size ep.results + if op.frame.kind = .bind then 0 else 1) :
    Changes allowed (some token) ep
      ((releaseReservation { ep with nextBind, inbound, inboundLease, results } token
        op).moveTo token { op with reserved := false } stage) :=
  .single (.enter stage rfl hlookup (hh token op hlookup hearly hk) hs hw hinbound hr)

theorem operate_changes {action : Action} (hh : ep.HoldsReservations)
    (how : ep.OwnersWait) (ho : ep.operate token op action = some next) :
    Changes allowed (some token) ep next := by
  cases action with
  | write kind bytes => exact write_changes hlookup ho
  | resume stopping => exact resume_changes hlookup ho
  | failed =>
    simp only [operate] at ho
    split at ho
    · rename_i hk hs
      obtain rfl := some.inj ho
      exact Changes.released hlookup hh (.inl hk) (by simp [hs])
        (by simp [hs]) nofun (Nat.le_add_right _ _) (Nat.le_add_right _ _)
    · rename_i routes hk hs
      obtain rfl := some.inj ho
      exact Changes.released hlookup hh (.inr hk) (by simp [hs])
        (by simp [hs]) nofun (Nat.le_add_right _ _) (Nat.le_add_right _ _)
    · rename_i routes hk hs
      obtain rfl := some.inj ho
      exact Changes.moved hlookup nofun (how.none_queued hlookup (by simp [hs]))
    · cases ho
  | refused =>
    simp only [operate] at ho
    split at ho <;> try cases ho
    rename_i hs _ _ _ _
    exact Changes.moved hlookup nofun (how.none_queued hlookup (by simp [hs]))
  | bound routes cancelled now =>
    simp only [operate] at ho
    split at ho <;> try cases ho
    rename_i hk hs
    rw [commitBind]
    have hbd := @Changes.released allowed ep token op hlookup (.answering false)
    split_ifs
    · refine hbd hh (.inl hk) (by simp [hs]) (by simp [hs]) nofun ?_ (Nat.le_add_right _ _)
      rw [if_pos hk]
      exact size_insert_le
    · exact hbd hh (.inl hk) (by simp [hs])
        (by simp [hs]) nofun (Nat.le_add_right _ _) (Nat.le_add_right _ _)
  | lookup now =>
    have hfi : ∀ complete, op.stage = .started →
        Changes allowed (some token) ep (ep.findRoutes token op complete now) := by
      intro complete hs
      have hm := fun stage => @Changes.moved allowed ep token op stage hlookup
        (fun _ => by simp [hs])
        (how.none_queued hlookup (by simp [hs]))
      rw [findRoutes]
      split
      · exact hm _
      · exact hm _
    simp only [operate] at ho
    split at ho <;> try cases ho
    · exact hfi _ ‹_›
    · exact hfi _ ‹_›
  | returned cancelled now =>
    simp only [operate] at ho
    split at ho
    · rename_i routes hk hs
      obtain rfl := some.inj ho
      rw [commitCall]
      have hc : ¬ op.frame.kind = .bind := by rw [hk]; nofun
      split
      · refine Changes.released hlookup hh (.inr hk) (by simp [hs])
          (by simp [hs]) nofun (Nat.le_add_right _ _) ?_
        rw [if_neg hc]
        exact size_insert_le
      · exact Changes.released hlookup hh (.inr hk) (by simp [hs])
          (by simp [hs]) nofun (Nat.le_add_right _ _)
          (Nat.le_add_right _ _)
    · rename_i routes hk hs
      obtain rfl := some.inj ho
      exact Changes.moved hlookup nofun (how.none_queued hlookup (by simp [hs]))
    · cases ho
  | decide now =>
    simp only [operate] at ho
    split at ho <;> try cases ho
    rename_i hk hs
    have hw : ¬ op.Waits := by simp [hs]
    have hearly : op.Early := by simp [hs]
    rw [beginDecision]
    split
    · rename_i entry he
      have hmem : op.frame.targetID ∈ ep.results :=
        AList.lookup_isSome.mp (isSome_of_mem (filter_eq_some_iff.mp he).1)
      exact Changes.edited hlookup _ how hw (fun _ => hearly) le_rfl (size_insert_of_mem hmem).le
    · exact Changes.moved hlookup (fun _ => hearly) (how.none_queued hlookup hw)
  | decided =>
    simp only [operate] at ho
    split at ho <;> try cases ho
    rename_i hs
    exact Changes.moved hlookup nofun (how.none_queued hlookup (by simp [hs]))
  | settle =>
    simp only [operate] at ho
    split at ho <;> try cases ho
    rename_i hs
    exact Changes.edited hlookup _ how (by simp [hs]) nofun le_rfl size_erase_le
  | close =>
    simp only [operate] at ho
    split at ho <;> try cases ho
    rename_i hk hs
    exact Changes.edited hlookup _ how (by simp [hs])
      (fun _ => by simp [hs]) le_rfl (size_revise _ _).le
  | closed =>
    simp only [operate] at ho
    split at ho <;> try cases ho
    rename_i hs
    exact Changes.edited hlookup _ how (by simp [hs]) nofun size_erase_le (size_restrict_le _ _)
  | renew bindings operations now =>
    simp only [operate] at ho
    split at ho <;> try cases ho
    rename_i hk hs
    exact Changes.edited hlookup _ how (by simp [hs]) nofun le_rfl (size_revise _ _).le
  | finish =>
    simp only [operate] at ho
    split at ho
    · cases ho
    rename_i hu
    have hf : Changes allowed (some token) ep (ep.finishOperation token op) :=
      .single (.finish rfl hlookup (by simpa using hu))
    split at ho
    · rename_i hs
      obtain rfl := some.inj ho
      refine hf.trans (Changes.moved finishOperation_lookup nofun ?_)
      rw [finishOperation_isOpen, finishOperation_writes]
      exact how.none_queued hlookup (by simp [hs])
    · obtain rfl := some.inj ho
      exact hf
    · cases ho
  | release =>
    simp only [operate] at ho
    split at ho
    · rename_i hl
      obtain rfl := some.inj ho
      have hw : ¬ op.Waits := by simp [hl.1]
      have hsa : { op with reserved := false, stage := .leaving } =
          { op with reserved := false } := by rw [← hl.1]
      split
      · rename_i hr
        have hen : Change allowed (some token) ep (ep.releaseReservation token op) := by
          have := @Change.enter allowed (some token) ep token op ep.nextBind
            ep.inbound ep.inboundLease ep.results .leaving rfl hlookup
            hr nofun hw (Nat.le_add_right _ _) (Nat.le_add_right _ _)
          rwa [moveTo, releaseReservation, setOperation_setOperation, hsa] at this
        exact .tail (.single hen) (.leave rfl lookup_setOperation rfl hl.2 (by simp [hl.1]))
      · rename_i hr
        exact .single (.leave rfl hlookup (by simpa using hr) hl.2 hw)
    · cases ho

end

theorem checkIdentity_request {frame : EndpointFrame}
    (hr : ep.checkIdentity frame = .request next) :
    ∃ peerID peerRenewID, next = { ep with peerID, peerRenewID } := by
  unfold checkIdentity at hr
  split at hr
  · split_ifs at hr
    cases hr
    exact ⟨_, _, rfl⟩
  · split at hr
    · cases hr
    split at hr
    · split at hr <;> cases hr
    · split at hr <;> cases hr
      exact ⟨_, _, rfl⟩
  · split_ifs at hr
    cases hr
    exact ⟨_, _, rfl⟩

/-- A frame is refused, ignored or admitted. -/
theorem receive_changes {frame : EndpointFrame} (now bytes : Nat)
    (ha : ∀ next, ep.requested frame = some next → allowed next frame) :
    Changes allowed none ep (ep.receive frame now bytes) := by
  unfold receive
  split_ifs with ho hc
  · exact .refl
  · unfold cancelResult
    split
    · rename_i entry he
      split_ifs
      · exact .single (.tables le_rfl (size_insert_of_mem
          (AList.lookup_isSome.mp (isSome_of_mem he))).le)
      · exact .refl
    · exact .refl
  · split
    · exact .single .fail
    · exact .refl
    · rename_i next hr
      obtain ⟨peerID, peerRenewID, hnext⟩ := checkIdentity_request hr
      have hi : Change allowed none ep next := hnext ▸ .tables le_rfl le_rfl
      have hopen : next.isOpen = true := by
        rw [hnext]
        simpa using (not_or.mp ho).1
      refine .head hi ?_
      split_ifs with hload
      · cases hre : next.reserveWrite none (refusalKind frame.kind) bytes with
        | none => exact .single .fail
        | some after => exact .single (.send hre)
      · refine .single (.dispatch now (ha next ?_) hopen (by simpa using hload))
        rw [requested, if_neg (by simp [ho, hc]), hr]
        exact if_neg hload

theorem expireLeases_changes (now : Nat) : Changes allowed none ep (ep.expireLeases now) := by
  unfold expireLeases
  split_ifs
  · exact .refl
  · exact .single (.tables le_rfl (size_revise _ _).le)

/-- Every step is a sequence of changes made by its operation. -/
theorem step_changes {event : Event}
    (ha : ∀ frame now bytes next, event = .receive frame now bytes →
      ep.requested frame = some next → allowed next frame)
    (hh : ep.HoldsReservations)
    (ho : ep.OwnersWait) (hst : step event ep = some next) :
    Changes allowed event.actor ep next := by
  cases event with
  | receive frame now bytes =>
    obtain rfl := some.inj hst
    exact receive_changes now bytes (ha frame now bytes · rfl)
  | operate token action =>
    obtain ⟨op, hlookup, hop⟩ := bind_eq_some_iff.mp hst
    exact operate_changes hlookup hh ho hop
  | completed write =>
    simp only [step] at hst
    split_ifs at hst with hwr
    obtain rfl := some.inj hst
    exact .single (.complete hwr)
  | send kind bytes => exact .single (.send hst)
  | expire now =>
    obtain rfl := some.inj hst
    exact expireLeases_changes now
  | cleaned cleanup =>
    simp only [step] at hst
    split_ifs at hst
    obtain rfl := some.inj hst
    cases cleanup with
    | result id => exact .single (.tables le_rfl size_erase_le)
    | binding id => exact .single (.tables size_erase_le le_rfl)
  | fail =>
    obtain rfl := some.inj hst
    exact .single .fail
  | stopped =>
    simp only [step] at hst
    split_ifs at hst with hs
    obtain rfl := some.inj hst
    exact .single (.stopped hs.1 hs.2.1 hs.2.2.2)

end Steps

end Endpoint

end MiniGo.Rpc
