/-
The accounting of the dispatcher.

Reservations, bounds and queued bytes are right in every run. The counters of the
active table are right, and its entries belong to the operations that made them, as
long as no request is dispatched under an identifier that the table already holds:
renewals count their identifiers apart from all other requests, and share the table.
-/
import MiniGo.Rpc.DispatchChange
import MiniGo.Rpc.FrameCodec

namespace MiniGo.Rpc

open Table AList Option

namespace Endpoint

variable {ep next : Endpoint} {token : Nat} {op : Operation}
  {allowed : Endpoint → EndpointFrame → Prop} {actor : Option Nat}

section Reservations

/-- The bytes of the queued writes of a lane. -/
def queuedBytes (control : Bool) (writes : List QueuedWrite) : Int :=
  (writes.map fun write => if write.control = control then (write.bytes : Int) else 0).sum

theorem queuedBytes_cons (control : Bool) (write : QueuedWrite) (writes : List QueuedWrite) :
    queuedBytes control (write :: writes) =
      (if write.control = control then (write.bytes : Int) else 0) + queuedBytes control writes :=
  List.sum_cons

theorem queuedBytes_erase (control : Bool) {write : QueuedWrite} {writes : List QueuedWrite}
    (hwr : write ∈ writes) :
    queuedBytes control (writes.erase write) =
      queuedBytes control writes - if write.control = control then (write.bytes : Int) else 0 := by
  have hs : queuedBytes control writes = queuedBytes control (write :: writes.erase write) :=
    ((List.perm_cons_erase hwr).map _).sum_eq
  rw [hs, queuedBytes_cons]
  omega

def holdsBinding (operation : Operation) : Bool :=
  operation.reserved && decide (operation.frame.kind = .bind)

def holdsResult (operation : Operation) : Bool :=
  operation.reserved && !decide (operation.frame.kind = .bind)

/-- Tables and operations refer to each other as they should, in every run. -/
structure Linked (endpoint : Endpoint) : Prop where
  tokens : ∀ token operation, endpoint.operations.lookup token = some operation →
    token < endpoint.nextToken
  owners : ∀ id entry, endpoint.active.lookup id = some entry → entry.owner < endpoint.nextToken
  closed : endpoint.isOpen = false → endpoint.active = ∅
  holds : endpoint.HoldsReservations
  waits : endpoint.OwnersWait

/-- Reservations and queued bytes are what they stand for, in every run. -/
structure Reserves (endpoint : Endpoint) : Prop where
  bindings : endpoint.inboundReservations = Table.tally holdsBinding endpoint.operations
  results : endpoint.resultReservations = Table.tally holdsResult endpoint.operations
  maxBindings : Table.size endpoint.inbound + endpoint.inboundReservations ≤
    endpoint.limits.maxBindings.toInt
  maxResults : Table.size endpoint.results + endpoint.resultReservations ≤
    endpoint.limits.maxPendingResults.toInt
  controlBytes : endpoint.queuedControlBytes = queuedBytes true endpoint.writes
  writeBytes : endpoint.queuedWriteBytes = queuedBytes false endpoint.writes

variable {owner : Option Nat} {other : Operation} {kind : FrameKind} {bytes : Nat}

/-- An operation is replaced by a later state of itself. -/
theorem Linked.replace (hl : ep.Linked) (hlo : ep.operations.lookup token = some op)
    (hh : other.Early → other.frame.kind = .bind ∨ other.frame.kind = .call → other.reserved = true)
    (hwaits : ep.isOpen = true → (∃ write ∈ ep.writes, write.owner = some token) → other.Waits) :
    (ep.setOperation token other).Linked where
  tokens := by
    intro key found hf
    rcases lookup_insert_cases hf with ⟨rfl, -⟩ | ⟨-, hf⟩
    · exact hl.tokens _ _ hlo
    · exact hl.tokens key found hf
  owners := hl.owners
  closed := hl.closed
  holds := by
    intro key found hf hearly hki
    rcases lookup_insert_cases hf with ⟨rfl, rfl⟩ | ⟨-, hf⟩
    · exact hh hearly hki
    · exact hl.holds key found hf hearly hki
  waits := by
    intro hopen write hwr key ho
    by_cases hk : key = token
    · subst hk
      exact ⟨other, lookup_insert _, hwaits hopen ⟨write, hwr, ho⟩⟩
    · obtain ⟨found, hf, hw⟩ := hl.waits hopen write hwr key ho
      exact ⟨found, (lookup_insert_ne hk).trans hf, hw⟩

theorem Reserves.replace (hr : ep.Reserves) (hl : ep.operations.lookup token = some op)
    (hf : other.frame = op.frame) (hre : other.reserved = op.reserved) :
    (ep.setOperation token other).Reserves := by
  have ht : ∀ kind : Operation → Bool, kind other = kind op →
      tally kind (ep.operations.insert token other) = tally kind ep.operations := by
    intro kind hk
    have ht := @tally_insert_of_lookup _ _ _ kind _ _ other _ hl
    rw [hk] at ht
    exact Nat.add_right_cancel ht
  refine { hr with bindings := ?_, results := ?_ }
  · rw [setOperation_operations, ht _ (by rw [holdsBinding, holdsBinding, hf, hre])]
    exact hr.bindings
  · rw [setOperation_operations, ht _ (by rw [holdsResult, holdsResult, hf, hre])]
    exact hr.results

/-- What `finish` does to the active table, apart from the operation itself. -/
theorem finishOperation_eq (ep : Endpoint) (token : Nat) (op : Operation) :
    ∃ active activeControls activeData inboundOperations, ep.finishOperation token op =
        setOperation { ep with active, activeControls, activeData, inboundOperations } token
          { op with finished := true } ∧
      (ep.active.lookup op.frame.id = none ∧ active = ep.active ∧
          activeControls = ep.activeControls ∧ activeData = ep.activeData ∨
        ∃ entry, ep.active.lookup op.frame.id = some entry ∧ active = ep.active.erase op.frame.id ∧
          activeControls = ep.activeControls - (if entry.control then 1 else 0) ∧
          activeData = ep.activeData - (if entry.control then 0 else 1)) := by
  unfold finishOperation
  dsimp only
  cases he : ep.active.lookup op.frame.id with
  | none =>
    split_ifs
    · exact ⟨_, _, _, _, rfl, .inl ⟨rfl, rfl, rfl, rfl⟩⟩
    · exact ⟨_, _, _, _, rfl, .inl ⟨rfl, rfl, rfl, rfl⟩⟩
  | some entry =>
    dsimp only
    split
    · exact ⟨_, _, _, _, rfl, .inr ⟨entry, rfl, rfl, rfl, rfl⟩⟩
    · exact ⟨_, _, _, _, rfl, .inr ⟨entry, rfl, rfl, rfl, rfl⟩⟩

theorem Linked.finish (hl : ep.Linked) (hlo : ep.operations.lookup token = some op) :
    (ep.finishOperation token op).Linked := by
  obtain ⟨active, controls, data, ops, heq, ha⟩ :=
    finishOperation_eq ep token op
  have hsub : ∀ id entry, active.lookup id = some entry → ep.active.lookup id = some entry := by
    rcases ha with ⟨-, rfl, -⟩ | ⟨-, -, rfl, -⟩
    · exact fun id entry h => h
    · exact fun id entry h => (lookup_erase_cases h).2
  have hc : ep.isOpen = false → active = ∅ := by
    intro hopen
    rcases ha with ⟨-, rfl, -⟩ | ⟨entry, he, -⟩
    · exact hl.closed hopen
    · rw [hl.closed hopen] at he
      cases he
  rw [heq]
  refine @Linked.replace _ token op _ { hl with
      owners := fun id entry h => hl.owners id entry (hsub id entry h)
      closed := hc } hlo (hl.holds token op hlo) ?_
  rintro hopen ⟨write, hwr, ho⟩
  obtain ⟨found, hf, hw⟩ := hl.waits hopen write hwr token ho
  rw [hlo, some.injEq] at hf
  exact hf ▸ hw

/-- A queued write, in whichever lane. -/
theorem reserveWrite_eq (hr : ep.reserveWrite owner kind bytes = some next) :
    ∃ control, next = { ep with
        queuedControlBytes := ep.queuedControlBytes + if control then bytes else 0
        queuedWriteBytes := ep.queuedWriteBytes + if control then 0 else bytes
        writes := ⟨owner, control, bytes⟩ :: ep.writes } := by
  unfold reserveWrite at hr
  dsimp only at hr
  split_ifs at hr <;> obtain rfl := some.inj hr
  · exact ⟨true, by simp⟩
  · exact ⟨false, by simp⟩

theorem Reserves.queue (hr : ep.Reserves)
    (hreserve : ep.reserveWrite owner kind bytes = some next) : next.Reserves := by
  obtain ⟨control, rfl⟩ := reserveWrite_eq hreserve
  refine { hr with controlBytes := ?_, writeBytes := ?_ }
  · rw [hr.controlBytes, queuedBytes_cons]
    cases control <;> simp [add_comm]
  · rw [hr.writeBytes, queuedBytes_cons]
    cases control <;> simp [add_comm]

end Reservations

section Preservation

theorem Change.linked (hc : Change allowed actor ep next) (hl : ep.Linked) :
    next.Linked := by
  cases hc with
  | tables => exact { hl with }
  | @move token operation stage ha hlo hearly hwaits =>
    exact hl.replace hlo (fun h => hl.holds token operation hlo (hearly h)) hwaits
  | @enter token operation _ _ _ _ stage ha hlo hre hs hwaits =>
    rw [moveTo, releaseReservation, setOperation_setOperation]
    refine @Linked.replace _ token operation _ { hl with } hlo
      (fun h => absurd h hs) fun hopen hwr => ?_
    exact absurd hwr (hl.waits.none_queued hlo hwaits hopen)
  | finish ha hlo => exact hl.finish hlo
  | @leave token operation ha hlo hre hfinished hwaits =>
    refine ⟨fun key found h => hl.tokens key found (lookup_erase_cases h).2, hl.owners, hl.closed,
      fun key found h => hl.holds key found (lookup_erase_cases h).2, ?_⟩
    intro hopen write hwr key ho
    have hk : key ≠ token := by
      rintro rfl
      exact hl.waits.none_queued hlo hwaits hopen ⟨write, hwr, ho⟩
    obtain ⟨found, hf, hw⟩ := hl.waits hopen write hwr key ho
    exact ⟨found, (lookup_erase_ne hk).trans hf, hw⟩
  | @queue mid token operation kind bytes stage ha hlo hr hearly hwaits =>
    obtain ⟨control, rfl⟩ := reserveWrite_eq hr
    have hm := @Linked.replace _ _ _ { operation with stage } hl hlo
      (fun h => hl.holds token operation hlo (hearly h)) fun _ _ => hwaits
    -- The new write is waited for; the others were before.
    refine { hm with waits := ?_ }
    intro hopen write hwr key ho
    rcases List.mem_cons.mp hwr with rfl | hwr
    · obtain rfl := some.inj ho
      exact ⟨_, lookup_insert _, hwaits⟩
    · exact hm.waits hopen write hwr key ho
  | send hr =>
    obtain ⟨control, rfl⟩ := reserveWrite_eq hr
    refine { hl with waits := ?_ }
    intro hopen write hwr key ho
    rcases List.mem_cons.mp hwr with rfl | hwr
    · cases ho
    · exact hl.waits hopen write hwr key ho
  | complete hwr =>
    refine { hl with waits := ?_ }
    intro hopen write hmem
    exact hl.waits hopen write (List.mem_of_mem_erase hmem)
  | @dispatch frame now hal hopen hload =>
    refine ⟨?_, ?_, fun h => by simp [admitRequest, hopen] at h, ?_, ?_⟩
    · intro key found hf
      rcases lookup_insert_cases hf with ⟨rfl, -⟩ | ⟨-, hf⟩
      · exact Nat.lt_succ_self _
      · exact (hl.tokens key found hf).trans (Nat.lt_succ_self _)
    · intro id entry he
      rcases lookup_insert_cases he with ⟨rfl, rfl⟩ | ⟨-, he⟩
      · exact Nat.lt_succ_self _
      · exact (hl.owners id entry he).trans (Nat.lt_succ_self _)
    · intro key found hf hearly hki
      rcases lookup_insert_cases hf with ⟨rfl, rfl⟩ | ⟨-, hf⟩
      · exact decide_eq_true hki
      · exact hl.holds key found hf hearly hki
    · intro _ write hwr key ho
      obtain ⟨found, hf, hw⟩ := hl.waits hopen write hwr key ho
      have hk : key ≠ ep.nextToken := (hl.tokens key found hf).ne
      exact ⟨found, (lookup_insert_ne hk).trans hf, hw⟩
  | fail =>
    refine ⟨hl.tokens, fun id entry he => ?_, fun _ => rfl, hl.holds, fun hopen => ?_⟩
    · cases he
    · cases hopen
  | stopped => exact { hl with }

theorem Change.reserves (hc : Change allowed actor ep next)
    (hli : ep.Linked) (hr : ep.Reserves) : next.Reserves := by
  cases hc with
  | tables hinbound hre =>
    refine { hr with maxBindings := ?_, maxResults := ?_ }
    · have := hr.maxBindings
      dsimp only
      omega
    · have := hr.maxResults
      dsimp only
      omega
  | move stage ha hl => exact hr.replace hl rfl rfl
  | @enter token operation _ _ _ _ stage ha hl hresd hs hw hinbound hre =>
    rw [moveTo, releaseReservation, setOperation_setOperation]
    have ht := fun kind : Operation → Bool =>
      @tally_insert_of_lookup _ _ _ kind _ _
        { operation with reserved := false, stage } _ hl
    have hb := ht holdsBinding
    have hresultsTally := ht holdsResult
    have hbi := hr.bindings
    have hres := hr.results
    have hm := hr.maxBindings
    have hma := hr.maxResults
    simp only [holdsBinding, holdsResult, hresd, Bool.true_and, Bool.false_and,
      Bool.toNat_false] at hb hresultsTally
    refine { hr with bindings := ?_, results := ?_, maxBindings := ?_, maxResults := ?_ }
    all_goals
      simp only [setOperation]
      by_cases hk : operation.frame.kind = .bind
      · simp only [hk, decide_true, Bool.not_true, Bool.toNat_true, Bool.toNat_false, if_true] at *
        omega
      · simp only [hk, decide_false, Bool.not_false, Bool.toNat_true, Bool.toNat_false,
          if_false] at *
        omega
  | @finish token operation ha hl =>
    obtain ⟨active, controls, data, ops, heq, -⟩ :=
      finishOperation_eq ep token operation
    rw [heq]
    exact @Reserves.replace _ token operation _ { hr with } hl rfl rfl
  | @leave token operation ha hl hresd =>
    have ht := fun kind : Operation → Bool => @tally_erase _ _ _ kind _ _ _ hl
    have hb := ht holdsBinding
    have hre := ht holdsResult
    simp only [holdsBinding, holdsResult, hresd, Bool.false_and, Bool.toNat_false,
      add_zero] at hb hre
    refine { hr with bindings := ?_, results := ?_ }
    · exact hr.bindings.trans (congrArg _ hb.symm)
    · exact hr.results.trans (congrArg _ hre.symm)
  | queue stage ha hl hreserve =>
    have hq := hr.queue hreserve
    obtain ⟨control, rfl⟩ := reserveWrite_eq hreserve
    exact hq.replace hl rfl rfl
  | send hreserve => exact hr.queue hreserve
  | @complete write hwr =>
    refine { hr with controlBytes := ?_, writeBytes := ?_ }
    · rw [completeWrite, queuedBytes_erase true hwr, hr.controlBytes]
      cases write.control <;> rfl
    · rw [completeWrite, queuedBytes_erase false hwr, hr.writeBytes]
      cases write.control <;> rfl
  | @dispatch frame now hal hopen hload =>
    simp only [overloaded, Bool.or_eq_false_iff, Bool.and_eq_false_imp, decide_eq_true_eq,
      decide_eq_false_iff_not, not_le] at hload
    obtain ⟨⟨-, hro⟩, hroo⟩ := hload
    have hfr : ep.nextToken ∉ ep.operations := by
      intro hmem
      obtain ⟨operation, hl⟩ :=
        isSome_iff_exists.mp (lookup_isSome.mpr hmem)
      exact (hli.tokens _ _ hl).ne rfl
    have hbi := hr.bindings
    have hres := hr.results
    have hm := hr.maxBindings
    have hma := hr.maxResults
    refine { hr with bindings := ?_, results := ?_, maxBindings := ?_, maxResults := ?_ }
    · rw [admitRequest, tally_insert_of_notMem hfr, hbi]
      cases hk : frame.kind <;> simp [holdsBinding, hk]
    · rw [admitRequest, tally_insert_of_notMem hfr, hres]
      cases hk : frame.kind <;> simp [holdsResult, hk]
    · dsimp only [admitRequest]
      split_ifs with hk
      · have := hro hk
        omega
      · omega
    · dsimp only [admitRequest]
      split_ifs with hk
      · have := hroo hk
        omega
      · omega
  | fail =>
    have hm := hr.maxBindings
    have hma := hr.maxResults
    refine { hr with maxBindings := ?_, maxResults := ?_ }
    · simp only [Endpoint.fail, size_empty]
      omega
    · simp only [Endpoint.fail, size_empty]
      omega
  | stopped hopen hops hwrites =>
    have he : ep.operations = ∅ :=
      ext (List.map_eq_nil_iff.mp hops)
    have hb := hr.bindings
    have hre := hr.results
    rw [he, tally_empty] at hb hre
    have hm := hr.maxBindings
    have hma := hr.maxResults
    rw [hb] at hm
    rw [hre] at hma
    refine ⟨?_, ?_, hm, hma, ?_, ?_⟩
    · simp [he]
    · simp [he]
    · simp [hwrites, queuedBytes]
    · simp [hwrites, queuedBytes]

end Preservation

section Tracking

/-- The active table counts and holds what runs. -/
structure Tracks (endpoint : Endpoint) : Prop where
  controls : endpoint.activeControls = Table.tally Active.control endpoint.active
  data : endpoint.activeData = Table.tally (fun entry => !entry.control) endpoint.active
  owned : ∀ id entry, endpoint.active.lookup id = some entry →
    ∃ operation, endpoint.operations.lookup entry.owner = some operation ∧
      operation.frame.id = id ∧ operation.finished = false
  listed : endpoint.isOpen = true → ∀ token operation,
    endpoint.operations.lookup token = some operation → operation.finished = false →
    ∃ entry, endpoint.active.lookup operation.frame.id = some entry ∧ entry.owner = token

/-- The identifier of a request is not in the active table. -/
def FreshRequest (endpoint : Endpoint) (frame : EndpointFrame) : Prop :=
  frame.id ∉ endpoint.active

variable {endpoint next : Endpoint}

theorem Tracks.replace {other : Operation} (ht : endpoint.Tracks)
    (hl : endpoint.operations.lookup token = some op)
    (hfr : other.frame = op.frame) (hfinished : other.finished = op.finished) :
    (endpoint.setOperation token other).Tracks where
  controls := ht.controls
  data := ht.data
  owned := by
    intro id entry he
    obtain ⟨found, hf, hid, hr⟩ := ht.owned id entry he
    by_cases ho : entry.owner = token
    · subst ho
      obtain rfl := some.inj (hl.symm.trans hf)
      exact ⟨other, lookup_insert _, hfr ▸ hid, hfinished.trans hr⟩
    · exact ⟨found, (lookup_insert_ne ho).trans hf, hid, hr⟩
  listed := by
    intro hopen key found hf hr
    rcases lookup_insert_cases hf with ⟨rfl, rfl⟩ | ⟨-, hf⟩
    · rw [hfr]
      exact ht.listed hopen key op hl (hfinished.symm.trans hr)
    · exact ht.listed hopen key found hf hr

/-- The entry under the identifier of a running operation is its own. -/
theorem Tracks.owner_eq {entry : Active} (ht : endpoint.Tracks) (hl : endpoint.Linked)
    (hlo : endpoint.operations.lookup token = some op)
    (hr : op.finished = false)
    (he : endpoint.active.lookup op.frame.id = some entry) : entry.owner = token := by
  cases hopen : endpoint.isOpen with
  | false =>
    rw [hl.closed hopen] at he
    cases he
  | true =>
    obtain ⟨found, hf, ho⟩ := ht.listed hopen token op hlo hr
    obtain rfl := some.inj (he.symm.trans hf)
    exact ho

theorem Tracks.finish (ht : endpoint.Tracks) (hli : endpoint.Linked)
    (hlo : endpoint.operations.lookup token = some op)
    (hr : op.finished = false) :
    (endpoint.finishOperation token op).Tracks := by
  obtain ⟨active, controls, data, ops, heq, ha⟩ :=
    finishOperation_eq endpoint token op
  rw [heq]
  rcases ha with ⟨hnone, rfl, rfl, rfl⟩ | ⟨entry, he, rfl, rfl, rfl⟩
  · -- Only a closed endpoint has lost the entry of a running operation.
    have hopen : endpoint.isOpen ≠ true := by
      intro hopen
      obtain ⟨entry, he, -⟩ := ht.listed hopen token op hlo hr
      rw [hnone] at he
      cases he
    have hem := hli.closed (by simpa using hopen)
    refine ⟨ht.controls, ht.data, ?_, fun h => absurd h hopen⟩
    intro id entry hl
    rw [hem] at hl
    cases hl
  · have how := ht.owner_eq hli hlo hr he
    have hta := fun kind : Active → Bool => @tally_erase _ _ _ kind _ _ _ he
    refine ⟨?_, ?_, ?_, ?_⟩
    · have := hta Active.control
      have := ht.controls
      dsimp only [setOperation]
      cases hc : entry.control <;> simp [hc] at * <;> omega
    · have := hta fun entry => !entry.control
      have := ht.data
      dsimp only [setOperation]
      cases hc : entry.control <;> simp [hc] at * <;> omega
    · intro id other ho
      obtain ⟨hid, ho⟩ := lookup_erase_cases ho
      obtain ⟨found, hf, hfou, hfo⟩ := ht.owned id other ho
      have hk : other.owner ≠ token := by
        intro hs
        rw [hs, hlo, some.injEq] at hf
        exact hid (hfou.symm.trans (by rw [hf]))
      exact ⟨found, (lookup_insert_ne hk).trans hf, hfou, hfo⟩
    · intro hopen key found hf hfo
      rcases lookup_insert_cases hf with ⟨rfl, rfl⟩ | ⟨hk, hf⟩
      · cases hfo
      · obtain ⟨other, ho, hot⟩ :=
          ht.listed hopen key found hf hfo
        have hid : found.frame.id ≠ op.frame.id := by
          intro hs
          rw [hs, he, some.injEq] at ho
          exact hk (hot.symm.trans (ho ▸ how))
        exact ⟨other, (lookup_erase_ne hid).trans ho, hot⟩

theorem Tracks.dispatch {frame : EndpointFrame} (now : Nat) (ht : endpoint.Tracks)
    (hl : endpoint.Linked) (hfr : endpoint.FreshRequest frame)
    (hopen : endpoint.isOpen = true) : (endpoint.admitRequest frame now).Tracks where
  controls := by
    rw [admitRequest, tally_insert_of_notMem hfr, ht.controls]
    cases endpointControlFrame frame.kind <;> simp
  data := by
    rw [admitRequest, tally_insert_of_notMem hfr, ht.data]
    cases endpointControlFrame frame.kind <;> simp
  owned := by
    intro id entry he
    rcases lookup_insert_cases he with ⟨rfl, rfl⟩ | ⟨-, he⟩
    · exact ⟨_, lookup_insert _, rfl, rfl⟩
    · obtain ⟨found, hf, hid, hr⟩ := ht.owned id entry he
      have hk := (hl.owners id entry he).ne
      exact ⟨found, (lookup_insert_ne hk).trans hf, hid, hr⟩
  listed := by
    intro _ key found hf hr
    rcases lookup_insert_cases hf with ⟨rfl, rfl⟩ | ⟨-, hf⟩
    · exact ⟨_, lookup_insert _, rfl⟩
    · obtain ⟨entry, he, ho⟩ := ht.listed hopen key found hf hr
      have hid : found.frame.id ≠ frame.id := by
        intro hs
        rw [hs] at he
        exact hfr (lookup_isSome.mp (isSome_of_mem he))
      exact ⟨entry, (lookup_insert_ne hid).trans he, ho⟩

theorem Change.tracks (hc : Change FreshRequest actor endpoint next)
    (hli : endpoint.Linked) (ht : endpoint.Tracks) : next.Tracks := by
  cases hc with
  | tables => exact { ht with }
  | move stage ha hl => exact ht.replace hl rfl rfl
  | @enter token op _ _ _ _ stage ha hl =>
    rw [moveTo, releaseReservation, setOperation_setOperation]
    exact @Tracks.replace token op _ _ { ht with } hl rfl rfl
  | finish ha hl hru => exact ht.finish hli hl hru
  | @leave token op ha hl hre hfinished =>
    refine { ht with owned := ?_, listed := ?_ }
    · intro id entry he
      obtain ⟨found, hf, hid, hru⟩ := ht.owned id entry he
      have hk : entry.owner ≠ token := by
        intro hs
        rw [hs, hl, some.injEq] at hf
        rw [← hf, hfinished] at hru
        cases hru
      exact ⟨found, (lookup_erase_ne hk).trans hf, hid, hru⟩
    · intro hopen key found hf
      exact ht.listed hopen key found (lookup_erase_cases hf).2
  | @queue mid token op kind bytes stage ha hl hr =>
    obtain ⟨control, rfl⟩ := reserveWrite_eq hr
    exact @Tracks.replace token op _ _ { ht with } hl rfl rfl
  | send hr =>
    obtain ⟨control, rfl⟩ := reserveWrite_eq hr
    exact { ht with }
  | complete => exact { ht with }
  | dispatch now hfr hopen => exact ht.dispatch now hli hfr hopen
  | fail =>
    refine ⟨rfl, rfl, fun id entry he => ?_, fun hopen => ?_⟩
    · cases he
    · cases hopen
  | stopped => exact { ht with }

/-- An entry is removed by its own operation or with the whole table. -/
def KeepsEntries (actor : Option Nat) (endpoint next : Endpoint) : Prop :=
  ∀ id entry, endpoint.active.lookup id = some entry →
    next.active.lookup id = some entry ∨ actor = some entry.owner ∨ next.isOpen = false

theorem Change.keepsEntries (hc : Change FreshRequest actor endpoint next)
    (hli : endpoint.Linked) (ht : endpoint.Tracks) :
    KeepsEntries actor endpoint next := by
  intro id entry he
  cases hc with
  | @finish token op ha hl hru =>
    obtain ⟨active, controls, data, ops, heq, hac⟩ :=
      finishOperation_eq endpoint token op
    by_cases hid : id = op.frame.id
    · subst hid
      exact .inr (.inl (by rw [ha, ht.owner_eq hli hl hru he]))
    · left
      rw [heq]
      rcases hac with ⟨-, rfl, -⟩ | ⟨-, -, rfl, -⟩
      · exact he
      · exact (lookup_erase_ne hid).trans he
  | queue stage ha hl hr =>
    obtain ⟨control, rfl⟩ := reserveWrite_eq hr
    exact .inl he
  | send hr =>
    obtain ⟨control, rfl⟩ := reserveWrite_eq hr
    exact .inl he
  | @dispatch frame now hfr =>
    have hid : id ≠ frame.id := by
      rintro rfl
      exact hfr (lookup_isSome.mp (isSome_of_mem he))
    exact .inl ((lookup_insert_ne hid).trans he)
  | fail => exact .inr (.inr rfl)
  | _ => exact .inl he

end Tracking

section Runs

open Replay (Passes Occurs)

variable {endpoint next : Endpoint}

theorem Changes.reserves (hc : Changes allowed actor endpoint next)
    (hl : endpoint.Linked) (hr : endpoint.Reserves) :
    next.Linked ∧ next.Reserves := by
  induction hc with
  | refl => exact ⟨hl, hr⟩
  | tail _ hch ih => exact ⟨hch.linked ih.1, hch.reserves ih.1 ih.2⟩

theorem Change.stays_closed (hch : Change allowed actor endpoint next)
    (hc : endpoint.isOpen = false) : next.isOpen = false := by
  cases hch with
  | finish => exact finishOperation_isOpen.trans hc
  | queue stage ha hl hr =>
    obtain ⟨control, rfl⟩ := reserveWrite_eq hr
    exact hc
  | send hr =>
    obtain ⟨control, rfl⟩ := reserveWrite_eq hr
    exact hc
  | fail => rfl
  | _ => exact hc

theorem Changes.tracks (hc : Changes FreshRequest actor endpoint next)
    (hl : endpoint.Linked) (ht : endpoint.Tracks) :
    next.Linked ∧ next.Tracks ∧ KeepsEntries actor endpoint next := by
  induction hc with
  | refl => exact ⟨hl, ht, fun id entry he => .inl he⟩
  | tail _ hch ih =>
    obtain ⟨hmi, hm, hk⟩ := ih
    refine ⟨hch.linked hmi, hch.tracks hmi hm, ?_⟩
    intro id entry he
    rcases hk id entry he with hke | ho | hcl
    · exact hch.keepsEntries hmi hm id entry hke
    · exact .inr (.inl ho)
    · exact .inr (.inr (hch.stays_closed hcl))

/-- The counters and bounds of the dispatcher, and what is left when nothing runs. -/
structure Accounted (endpoint : Endpoint) : Prop where
  controls : endpoint.activeControls = Table.tally Active.control endpoint.active
  data : endpoint.activeData = Table.tally (fun entry => !entry.control) endpoint.active
  bindings : Table.size endpoint.inbound ≤ endpoint.limits.maxBindings.toInt
  results : Table.size endpoint.results ≤ endpoint.limits.maxPendingResults.toInt
  controlBytes : endpoint.queuedControlBytes = queuedBytes true endpoint.writes
  writeBytes : endpoint.queuedWriteBytes = queuedBytes false endpoint.writes
  idle : endpoint.operations = ∅ → endpoint.activeControls = 0 ∧ endpoint.activeData = 0 ∧
    endpoint.inboundReservations = 0 ∧ endpoint.resultReservations = 0 ∧
    (endpoint.isOpen = true → ∀ write ∈ endpoint.writes, write.owner = none)

theorem Tracks.accounted (ht : endpoint.Tracks) (hli : endpoint.Linked)
    (hr : endpoint.Reserves) : endpoint.Accounted where
  controls := ht.controls
  data := ht.data
  bindings := by
    have := hr.maxBindings
    have := hr.bindings
    omega
  results := by
    have := hr.maxResults
    have := hr.results
    omega
  controlBytes := hr.controlBytes
  writeBytes := hr.writeBytes
  idle := by
    intro hidle
    -- An entry would belong to an operation.
    have hnone : ∀ id entry, endpoint.active.lookup id ≠ some entry := by
      intro id entry he
      obtain ⟨operation, hl, -⟩ := ht.owned id entry he
      rw [hidle] at hl
      cases hl
    have hta : ∀ kind : Active → Bool, tally kind endpoint.active = 0 := fun kind =>
      tally_eq_zero fun id entry he => absurd he (hnone id entry)
    refine ⟨?_, ?_, ?_, ?_, ?_⟩
    · rw [ht.controls, hta, Nat.cast_zero]
    · rw [ht.data, hta, Nat.cast_zero]
    · rw [hr.bindings, hidle, tally_empty, Nat.cast_zero]
    · rw [hr.results, hidle, tally_empty, Nat.cast_zero]
    · intro hopen write hwr
      cases ho : write.owner with
      | none => rfl
      | some token =>
        obtain ⟨operation, hl, -⟩ := hli.waits hopen write hwr token ho
        rw [hidle] at hl
        cases hl

/-- A frame that is dispatched has an identifier that nothing active has. -/
def DispatchesFresh (endpoint : Endpoint) (event : Event) : Prop :=
  ∀ frame now bytes next, event = .receive frame now bytes →
    endpoint.requested frame = some next → frame.id ∉ endpoint.active

variable {limits outboundLimits : Limits} {leaseTTL : Nat} {log : List Event}

theorem opened_linked : (opened limits outboundLimits leaseTTL).Linked where
  tokens _ operation hl := (Option.some_ne_none operation hl.symm).elim
  owners _ entry hl := (Option.some_ne_none entry hl.symm).elim
  closed hc := (Bool.false_ne_true hc.symm).elim
  holds _ operation hl := (Option.some_ne_none operation hl.symm).elim
  waits _ _ hwr := (List.not_mem_nil hwr).elim

variable {requested : Limits} {frame : EndpointFrame}

theorem opened_reserves (hl : openLimits requested = some limits) :
    (opened limits outboundLimits leaseTTL).Reserves := by
  have hpos := validateWireLimits_positive (openLimits_eq_some hl).1
  refine ⟨rfl, rfl, ?_, ?_, rfl, rfl⟩
  · exact (hpos limits.maxBindings (by simp [Limits.toList])).le
  · exact (hpos limits.maxPendingResults (by simp [Limits.toList])).le

theorem opened_tracks : (opened limits outboundLimits leaseTTL).Tracks where
  controls := rfl
  data := rfl
  owned _ entry hl := (Option.some_ne_none entry hl.symm).elim
  listed _ _ operation hl := (Option.some_ne_none operation hl.symm).elim

theorem passes_reserves (hli : openLimits requested = some limits) :
    ∀ endpoint, Passes step log (opened limits outboundLimits leaseTTL) endpoint →
      endpoint.Linked ∧ endpoint.Reserves := by
  refine Replay.passes_induction ⟨opened_linked, opened_reserves hli⟩ ?_
  rintro pre event after ⟨-, -, -, -, hs⟩ ⟨hl, hr⟩
  have hc : Changes (fun _ _ => True) event.actor pre after :=
    step_changes (fun _ _ _ _ _ _ => trivial) hl.holds hl.waits hs
  exact hc.reserves hl hr

/-- A request that is dispatched: only its identifier is noted first. -/
theorem requested_eq_some (hr : endpoint.requested frame = some next) :
    endpoint.isOpen = true ∧ (∃ peerID peerRenewID, next = { endpoint with peerID, peerRenewID }) ∧
      ∀ now bytes, endpoint.receive frame now bytes = next.admitRequest frame now := by
  unfold requested at hr
  split_ifs at hr with ho
  simp only [not_or] at ho
  split at hr
  · rename_i found hf
    split_ifs at hr with hload
    obtain rfl := some.inj hr
    refine ⟨by simpa using ho.1, checkIdentity_request hf, fun now bytes => ?_⟩
    rw [receive, if_neg (by simp [ho]), if_neg ho.2.2.2.2, hf]
    exact if_neg hload
  · cases hr

/-- One step that dispatches under a fresh identifier. -/
theorem step_tracks {event : Event} (hfr : endpoint.DispatchesFresh event)
    (hl : endpoint.Linked) (ht : endpoint.Tracks)
    (hs : step event endpoint = some next) :
    next.Tracks ∧ KeepsEntries event.actor endpoint next := by
  have ha : ∀ frame now bytes requested, event = .receive frame now bytes →
      endpoint.requested frame = some requested → requested.FreshRequest frame := by
    intro frame now bytes requested he hr
    obtain ⟨-, ⟨peerID, peerRenewID, rfl⟩, -⟩ := requested_eq_some hr
    exact hfr frame now bytes _ he hr
  exact ((step_changes ha hl.holds hl.waits hs).tracks hl ht).2

/-- A request under an identifier of the table takes the place of another operation. -/
theorem not_keepsEntries {now bytes : Nat} (hl : endpoint.Linked)
    (hr : endpoint.requested frame = some next) (hac : frame.id ∈ endpoint.active) :
    ¬ KeepsEntries none endpoint (endpoint.receive frame now bytes) := by
  intro hk
  obtain ⟨entry, he⟩ := isSome_iff_exists.mp (lookup_isSome.mpr hac)
  obtain ⟨hopen, ⟨peerID, peerRenewID, rfl⟩, hrc⟩ := requested_eq_some hr
  have ho := hl.owners frame.id entry he
  rw [hrc] at hk
  rcases hk frame.id entry he with hke | ha | hc
  · rw [admitRequest, lookup_insert, some.injEq] at hke
    rw [← hke] at ho
    exact lt_irrefl _ ho
  · cases ha
  · rw [admitRequest, hopen] at hc
    cases hc

/-- The accounting of the dispatcher in a run against any peer, from the handshake on: the
counters and bounds are right wherever the run passes and no operation touches the entry of
another, exactly when no request is dispatched under an identifier that is active. -/
theorem dispatcher_accounting_iff (log : List Event)
    (outboundLimits : Limits) (leaseTTL : Nat) (hlimits : openLimits requested = some limits) :
    ((∀ endpoint, Passes step log (opened limits outboundLimits leaseTTL) endpoint →
        endpoint.Accounted) ∧
      ∀ before event after,
        Occurs step log (opened limits outboundLimits leaseTTL) before event after →
          KeepsEntries event.actor before after) ↔
    ∀ before event after,
      Occurs step log (opened limits outboundLimits leaseTTL) before event after →
        before.DispatchesFresh event := by
  have hreserves := @passes_reserves limits outboundLimits leaseTTL log requested hlimits
  constructor
  · rintro ⟨-, hkeeps⟩ before event after hoccurs frame now bytes next rfl hrequested hactive
    have hkept := hkeeps before _ after hoccurs
    obtain ⟨-, -, -, -, hstep⟩ := id hoccurs
    obtain rfl := some.inj hstep
    exact not_keepsEntries (hreserves before hoccurs.passes).1 hrequested hactive hkept
  · intro hfresh
    have htracks : ∀ endpoint, Passes step log (opened limits outboundLimits leaseTTL) endpoint →
        endpoint.Tracks := by
      refine Replay.passes_induction opened_tracks ?_
      intro before event after hoccurs hbefore
      obtain ⟨-, -, -, -, hstep⟩ := id hoccurs
      exact (step_tracks (hfresh before event after hoccurs)
        (hreserves before hoccurs.passes).1 hbefore hstep).1
    refine ⟨?_, ?_⟩
    · intro endpoint hpasses
      obtain ⟨hlinked, hendpoint⟩ := hreserves endpoint hpasses
      exact (htracks endpoint hpasses).accounted hlinked hendpoint
    · intro before event after hoccurs
      obtain ⟨-, -, -, -, hstep⟩ := id hoccurs
      exact (step_tracks (hfresh before event after hoccurs)
        (hreserves before hoccurs.passes).1 (htracks before hoccurs.passes) hstep).2

def callFrame (id : UInt64) : EndpointFrame :=
  { kind := .call, origin := text "peer", id, binding := 1, call := some ⟨probe, none, []⟩ }

def renewFrame (id : UInt64) : EndpointFrame :=
  { kind := .renew, origin := text "peer", id, values := [0] }

/-- An endpoint with the default limits. -/
def defaultEndpoint : Endpoint := opened (normalizeLimits {}) (normalizeLimits {}) 60

/-- A call and a renewal with identifiers of their own. -/
theorem apart_accounted : openLimits {} = some (normalizeLimits {}) ∧
      ∀ endpoint, Passes step [.receive (callFrame 1) 0 0, .receive (renewFrame 2) 0 0]
        defaultEndpoint endpoint → endpoint.Accounted := by
  refine ⟨rfl, ((@dispatcher_accounting_iff (normalizeLimits {}) {} _ (normalizeLimits {}) 60
    rfl).mpr ?_).1⟩
  rintro before event after ⟨first, rest, hlog, hfirst, hstep⟩ frame now bytes next rfl hrequested
  rcases first with _ | ⟨head, _ | ⟨second, tail⟩⟩
  · obtain rfl := some.inj hfirst
    exact notMem_empty _
  · obtain ⟨rfl, ⟨rfl, -, -⟩, -⟩ := hlog
    obtain rfl := some.inj hfirst
    decide +kernel
  · simp at hlog

/-- A call whose identifier a renewal has as well: the renewal takes its entry, and the
call is still counted when both are over. -/
def sharedLog : List Event :=
  [.receive (callFrame 1) 0 0, .receive (renewFrame 1) 0 0,
    .operate 1 (.renew [] [] 0), .operate 1 (.write .renewAck 20),
    .completed ⟨some 1, true, 20⟩, .operate 1 (.resume false), .operate 1 .finish,
    .operate 1 .release,
    .operate 0 (.write .accepted 20), .completed ⟨some 0, true, 20⟩,
    .operate 0 (.resume false), .operate 0 (.lookup 0), .operate 0 (.write .offer 30),
    .completed ⟨some 0, false, 30⟩, .operate 0 (.resume false), .operate 0 .finish,
    .operate 0 .release]

theorem sharedLog_miscounts :
    validateEndpointFrame (callFrame 1) = .ok () ∧ validateEndpointFrame (renewFrame 1) = .ok () ∧
      ((Replay.replay step (sharedLog.take 2) defaultEndpoint).map fun endpoint =>
        (endpoint.activeControls, endpoint.activeData, size endpoint.active)) = some (1, 1, 1) ∧
      ((Replay.replay step sharedLog defaultEndpoint).map fun endpoint =>
        (endpoint.isOpen, endpoint.operations.keys, endpoint.active.keys,
          endpoint.activeData)) = some (true, [], [], 1) := by
  decide +kernel

end Runs

end Endpoint

end MiniGo.Rpc
