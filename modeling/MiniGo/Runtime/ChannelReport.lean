/-
What callers of channel operations are told.

A selection reports through its own fields, which `deliver` reads once it is done; a try
reports through its result. Both agree with the history: the fields of a completed selection
are those of a completion in it, an attempt to commit answers whether the selection is
completed, and a try succeeds exactly when it is recorded.
-/
import MiniGo.Runtime.Channel

namespace MiniGo.Runtime

namespace World

variable {Channel Value Raw : Type} [Inhabited Value]

/-- The completion that the fields of a selection stand for. -/
def completion (world : World Value Raw) (id : Nat) : Event Value :=
  let selection := world.selections id
  .completed id (selection.index.bind (selection.cases[·]?)) selection.value selection.ok
    selection.error

/-- Every selection that is done was completed with what it delivers. -/
def Reported (world : World Value Raw) : Prop :=
  ∀ id, (world.selections id).done = true → world.completion id ∈ world.history

section Reported

variable {codec : Codec Value Raw} {world after : World Value Raw}

omit [Inhabited Value] in
theorem Reported.mono (hreported : world.Reported)
    (hselections : after.selections = world.selections)
    (hhistory : world.history ⊆ after.history) : after.Reported := by
  intro id hdone
  rw [completion, hselections]
  rw [hselections] at hdone
  exact hhistory (hreported id hdone)

omit [Inhabited Value] in
/-- A selection is completed; the error of that selection may have been set just before. -/
theorem Reported.complete_of_ne (hreported : world.Reported) {id : Nat}
    (hothers : ∀ other, other ≠ id → after.selections other = world.selections other)
    (hhistory : after.history = world.history) (index : Option Nat) (value : Value) (ok : Bool) :
    (after.complete id index value ok).Reported := by
  intro other hdone
  by_cases hother : other = id
  · subst hother
    simp [completion, World.complete]
  · have hsame : (after.complete id index value ok).selections other = world.selections other := by
      simp [World.complete, Function.update_of_ne hother, hothers other hother]
    rw [completion, hsame]
    rw [hsame] at hdone
    exact List.mem_append_left _ (hhistory ▸ hreported other hdone)

omit [Inhabited Value] in
theorem Reported.complete (hreported : world.Reported) (id : Nat) (index : Option Nat)
    (value : Value) (ok : Bool) : (world.complete id index value ok).Reported :=
  hreported.complete_of_ne (fun _ _ => rfl) rfl index value ok

omit [Inhabited Value] in
theorem Reported.setError_complete (hreported : world.Reported) (id : Nat) (fault : Fault)
    (index : Option Nat) (value : Value) (ok : Bool) :
    ((world.setError id fault).complete id index value ok).Reported := by
  have hothers : ∀ other, other ≠ id →
      (world.setError id fault).selections other = world.selections other :=
    fun other hother => Function.update_of_ne hother _ _
  exact hreported.complete_of_ne hothers rfl index value ok

omit [Inhabited Value] in
theorem Reported.setStorage (hreported : world.Reported) (resource : Nat)
    (storage : Storage Value Raw) : (world.setStorage resource storage).Reported :=
  hreported.mono rfl (List.Subset.refl _)

omit [Inhabited Value] in
theorem Reported.record (hreported : world.Reported) (event : Event Value) :
    (world.record event).Reported :=
  hreported.mono rfl (List.subset_append_left _ _)

theorem Reported.commitSend (hreported : world.Reported) (faults : BufferFaults)
    (id index resource : Nat) (selected : SelectCase Value) :
    (world.commitSend codec faults id index resource selected).Reported := by
  unfold World.commitSend
  dsimp only
  split
  · exact hreported.setError_complete id _ _ _ _
  · split
    · exact (hreported.complete _ _ _ _).complete _ _ _ _
    · split
      · exact (hreported.setStorage _ _).complete _ _ _ _
      · exact (hreported.setStorage _ _).setError_complete _ _ _ _ _

theorem Reported.commitReceive (hreported : world.Reported) (faults : BufferFaults)
    (id index resource : Nat) (selected : SelectCase Value) :
    (world.commitReceive codec faults id index resource selected).Reported := by
  unfold World.commitReceive
  dsimp only
  split
  · split
    · exact (hreported.setStorage _ _).complete _ _ _ _
    · exact (hreported.setStorage _ _).setError_complete _ _ _ _ _
  · split
    · exact (hreported.complete _ _ _ _).complete _ _ _ _
    · exact hreported.complete _ _ _ _

theorem Reported.tryCommit (hreported : world.Reported) (faults : BufferFaults) (pick id : Nat) :
    (world.tryCommit codec faults pick id).1.Reported := by
  unfold World.tryCommit
  split
  · exact hreported
  · split
    · exact hreported
    · dsimp only
      split
      · exact hreported.commitSend _ _ _ _ _
      · exact hreported.commitReceive _ _ _ _ _

theorem Reported.addSelection (hreported : world.Reported) (cases : List (SelectCase Value)) :
    (world.addSelection cases).Reported := by
  intro id hdone
  by_cases hid : id = world.selectionCount
  · subst hid
    simp [World.addSelection] at hdone
  · have hsame : (world.addSelection cases).selections id = world.selections id :=
      Function.update_of_ne hid _ _
    rw [completion, hsame]
    rw [hsame] at hdone
    exact hreported id hdone

theorem Reported.select (hreported : world.Reported) (faults : BufferFaults)
    (otherwise : Otherwise) (pick : Nat) (cases : List (SelectCase Value)) :
    (world.select codec faults otherwise pick cases).Reported := by
  have htried : ((world.addSelection cases).tryCommit codec faults pick
      world.selectionCount).1.Reported :=
    (hreported.addSelection cases).tryCommit faults pick world.selectionCount
  unfold World.select
  dsimp only
  revert htried
  generalize (world.addSelection cases).tryCommit codec faults pick world.selectionCount = tried
  intro htried
  split
  · exact htried
  · exact htried.mono rfl (List.Subset.refl _)
  · exact htried.complete _ _ _ _
  · exact htried

variable {modules : ChannelModule Channel Value}

omit [Inhabited Value] in
theorem Reported.trySendNormalized (hreported : world.Reported) (faults : BufferFaults)
    (resource : Nat) (normalized : Value) :
    (world.trySendNormalized codec faults resource normalized).1.Reported := by
  unfold World.trySendNormalized
  dsimp only
  split
  · exact (hreported.complete _ _ _ _).record _
  · split
    · exact hreported
    · split
      · exact hreported.setStorage _ _
      · exact (hreported.setStorage _ _).record _

theorem Reported.tryReceive (hreported : world.Reported) (faults : BufferFaults) (resource : Nat)
    (zero : Value) : (world.tryReceive codec faults resource zero).1.Reported := by
  unfold World.tryReceive
  dsimp only
  split
  · split
    · exact (hreported.complete _ _ _ _).record _
    · exact hreported
  · split
    · exact hreported.setStorage _ _
    · exact (hreported.setStorage _ _).record _

/-- Every transaction leaves all completed selections reported. -/
theorem Reported.step (hreported : world.Reported) (transaction : Transaction Channel Value) :
    (world.step modules codec transaction).Reported := by
  cases transaction with
  | make capacity managed => exact hreported.mono rfl (List.Subset.refl _)
  | select operands charged otherwise pick faults =>
    unfold World.step
    dsimp only
    split
    · exact hreported
    · exact hreported.select _ _ _ _
  | retry selection pick faults => exact hreported.tryCommit _ _ _
  | cancel selection => exact hreported.mono rfl (List.Subset.refl _)
  | trySend channel value faults =>
    unfold World.step World.waitableTrySendValue
    dsimp only
    repeat' split
    all_goals first | exact hreported | exact hreported.trySendNormalized _ _ _
  | tryReceive channel faults =>
    unfold World.step World.waitableTryRecvValue
    dsimp only
    repeat' split
    all_goals first | exact hreported | exact hreported.tryReceive _ _ _
  | close channel faults =>
    unfold World.step World.waitableCloseValue
    dsimp only
    repeat' split
    all_goals exact hreported

theorem Reported.run (hreported : world.Reported)
    (transactions : List (Transaction Channel Value)) :
    (world.run modules codec transactions).Reported := by
  induction transactions generalizing world with
  | nil => exact hreported
  | cons transaction rest ih => exact ih (hreported.step transaction)

theorem initial_reported : (World.initial : World Value Raw).Reported := by
  intro id hdone
  simp [World.initial] at hdone

end Reported

section Answers

variable {codec : Codec Value Raw} {modules : ChannelModule Channel Value}
  (world : World Value Raw)

omit [Inhabited Value] in
theorem complete_done (id : Nat) (index : Option Nat) (value : Value) (ok : Bool) :
    ((world.complete id index value ok).selections id).done = true := by
  simp [World.complete]

theorem commitSend_done (faults : BufferFaults) (id index resource : Nat)
    (selected : SelectCase Value) :
    ((world.commitSend codec faults id index resource selected).selections id).done = true := by
  unfold World.commitSend
  dsimp only
  repeat' split
  all_goals exact complete_done _ _ _ _ _

theorem commitReceive_done (faults : BufferFaults) (id index resource : Nat)
    (selected : SelectCase Value) :
    ((world.commitReceive codec faults id index resource selected).selections id).done = true := by
  unfold World.commitReceive
  dsimp only
  repeat' split
  all_goals exact complete_done _ _ _ _ _

/-- An attempt to commit answers whether the selection is completed. -/
theorem tryCommit_answer (faults : BufferFaults) (pick id : Nat) :
    (world.tryCommit codec faults pick id).2 =
      ((world.tryCommit codec faults pick id).1.selections id).done := by
  unfold World.tryCommit
  split
  · next hdone => exact hdone.symm
  · next hopen =>
    split
    · exact (Bool.eq_false_iff.mpr hopen).symm
    · dsimp only
      split
      · exact (commitSend_done world _ _ _ _ _).symm
      · exact (commitReceive_done world _ _ _ _ _).symm

/-- The events that a transaction added to the history. -/
def added (after : World Value Raw) : List (Event Value) := after.history.drop world.history.length

/-- The value that a try committed to a waitable. -/
def sentByTry : Event Value → Option (Nat × Value)
  | .trySent resource value => some (resource, value)
  | _ => none

/-- The value that a try took from a waitable. -/
def receivedByTry : Event Value → Option (Nat × Value)
  | .tryReceived resource value => some (resource, value)
  | _ => none

/-- A try to send reports success exactly if it committed the normalized value to the
waitable of the channel; a try without success leaves no event. -/
def TrySendAnswers (modules : ChannelModule Channel Value) (channel : Channel) (value : Value)
    (tried : World Value Raw × Except Fault Bool) : Prop :=
  if tried.2 = .ok true then
    ∃ resource normalized, world.waitableValueData modules channel = .ok (some resource) ∧
      modules.normalizeWaitableSendValue channel value = .ok normalized ∧
      (world.added tried.1).filterMap sentByTry = [(resource, normalized)]
  else tried.1.history = world.history

/-- A try to receive reports a value exactly if it took that value from the waitable of the
channel; a try without success leaves no event. -/
def TryReceiveAnswers (modules : ChannelModule Channel Value) (channel : Channel)
    (tried : World Value Raw × Except Fault (Value × Bool × Bool)) : Prop :=
  (∀ value closed, tried.2 = .ok (value, true, closed) →
    ∃ resource, world.waitableValueData modules channel = .ok (some resource) ∧
      (world.added tried.1).filterMap receivedByTry = [(resource, value)]) ∧
  ((∀ value closed, tried.2 ≠ .ok (value, true, closed)) → tried.1.history = world.history)

omit [Inhabited Value] in
theorem trySendNormalized_answers (faults : BufferFaults) (resource : Nat) (normalized : Value) :
    let tried := world.trySendNormalized codec faults resource normalized
    if tried.2 = .ok true then
      (world.added tried.1).filterMap sentByTry = [(resource, normalized)]
    else tried.1.history = world.history := by
  unfold World.trySendNormalized
  dsimp only
  split
  · simp [added, World.record, World.complete, sentByTry, List.filterMap_cons]
  · split
    · simp
    · split
      · simp [World.setStorage]
      · simp [added, World.record, World.setStorage, sentByTry]

omit [Inhabited Value] in
theorem waitableTrySendValue_answers (faults : BufferFaults) (channel : Channel) (value : Value) :
    world.TrySendAnswers modules channel value
      (world.waitableTrySendValue modules codec faults channel value) := by
  unfold World.waitableTrySendValue TrySendAnswers
  split
  · simp
  · next found hfound =>
    split
    · simp
    · cases found with
      | none => simp
      | some resource =>
        dsimp only
        split
        · simp
        · split
          · simp
          · next normalized hnormalized =>
            have hanswer := @trySendNormalized_answers _ _ codec world faults resource normalized
            dsimp only at hanswer
            split at hanswer
            · next hsent =>
              rw [if_pos hsent]
              exact ⟨resource, normalized, hfound, hnormalized, hanswer⟩
            · next hkept =>
              rw [if_neg hkept]
              exact hanswer

theorem tryReceive_answers (faults : BufferFaults) (channel : Channel) (resource : Nat)
    (zero : Value) (hfound : world.waitableValueData modules channel = .ok (some resource)) :
    world.TryReceiveAnswers modules channel (world.tryReceive codec faults resource zero) := by
  unfold World.tryReceive TryReceiveAnswers
  dsimp only
  split
  · split
    · simp [hfound, added, World.record, World.complete, receivedByTry, List.filterMap_cons]
    · simp
  · split
    · simp [World.setStorage]
    · simp [hfound, added, World.record, World.setStorage, receivedByTry]

theorem waitableTryRecvValue_answers (faults : BufferFaults) (channel : Channel) :
    world.TryReceiveAnswers modules channel
      (world.waitableTryRecvValue modules codec faults channel) := by
  unfold World.waitableTryRecvValue
  split
  · simp [TryReceiveAnswers]
  · next found hfound =>
    split
    · simp [TryReceiveAnswers]
    · cases found with
      | none => simp [TryReceiveAnswers]
      | some resource => exact world.tryReceive_answers faults channel resource _ hfound

end Answers

end World

end MiniGo.Runtime
