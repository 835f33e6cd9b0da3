/-
Blocked selections under memory pressure (`runtime/scheduler_wait.go`).

The scheduler tries every blocked selection again. If an attempt fails because an
allocation needs a collection, it collects and tries the selection once more. An
attempt whose buffer access cannot allocate has already completed the selection with
the failure, so the second attempt finds the failure and not a case to commit.
-/
import MiniGo.Runtime.ChannelSound

namespace MiniGo.Runtime

namespace World

variable {Channel Value Raw : Type} [Inhabited Value] (codec : Codec Value Raw)
  (world : World Value Raw)

/-- `resumeBlocked` for a selection: whether its task goes on. `delivered` is the
result of storing the received value in the frame; a guest panic is started in the
task. -/
def resumeBlocked (faults : BufferFaults) (delivered : Except Fault Unit)
    (pick id : Nat) : World Value Raw × Except Fault Bool :=
  match world.tryCommit codec faults pick id with
  | (after, false) => (after, .ok false)
  | (after, true) =>
    match (after.selections id).error with
    | some (.guestPanic _) => (after, .ok true)
    | some (.error message) => (after, .error (.error message))
    | none => (after, delivered.map fun _ => true)

/-- The case that an attempt chooses, and its waitable. -/
def chosen (pick id : Nat) : Option (Nat × SelectCase Value × Nat) :=
  if (world.selections id).done then none
  else
    (chooseReadyIndex (world.ready id) pick).bind fun index =>
      (world.case? (id, index)).bind fun selected =>
        selected.resource.map (index, selected, ·)

/-- The access of a case to the buffer of its waitable fails for lack of memory. -/
def Pressed (faults : BufferFaults) (pick id : Nat) : Prop :=
  ∃ index selected resource, world.chosen pick id = some (index, selected, resource) ∧
    if selected.send then
      (world.waitables resource).closed = false ∧
        world.selectionPeer resource true (some id) = none ∧
        ((world.waitables resource).storage.appendBuffer codec faults
          selected.value).1 = .error heapFault
    else
      (world.waitables resource).storage.bufferLen ≠ 0 ∧
        ((world.waitables resource).storage.popBuffer codec faults).1 = .error heapFault

/-- An attempt of an open selection that fails for lack of memory changes no buffer,
no wait list and no selection, reports nothing, and the attempt after a collection
does what the first one would have done. -/
def Survives (faults : BufferFaults) (pick id : Nat) : Prop :=
  let attempt := world.resumeBlocked codec faults (.ok ()) pick id
  (world.selections id).done = false → attempt.2 = .error heapFault →
    attempt.1.waitables = world.waitables ∧ attempt.1.lists = world.lists ∧
    attempt.1.selections = world.selections ∧ attempt.1.history = world.history ∧
    ∃ committed, world.resumeBlocked codec { full := faults.full } (.ok ()) pick id =
        (committed, .ok true) ∧
      attempt.1.resumeBlocked codec { full := faults.full } (.ok ()) pick id = (committed, .ok true)

variable {codec world} {faults : BufferFaults} {pick id : Nat}

theorem tryCommit_chosen (hopen : (world.selections id).done = false) :
    world.tryCommit codec faults pick id = match world.chosen pick id with
      | none => (world, false)
      | some (index, selected, resource) =>
        (if selected.send then
          world.commitSend codec faults id index resource selected
        else world.commitReceive codec faults id index resource selected, true) := by
  have hnot : ¬ (world.selections id).done = true := by simp [hopen]
  rw [chosen, if_neg hnot]
  exact if_neg hnot

section Complete

omit [Inhabited Value]

theorem complete_error (index : Option Nat) (val : Value) (ok : Bool) (other : Nat) :
    ((world.complete id index val ok).selections other).error = (world.selections other).error := by
  unfold complete
  by_cases hs : other = id
  · subst hs
    simp
  · simp [hs]

end Complete

variable {index resource : Nat} {selected : SelectCase Value}

/-- The error of a send that has been committed. -/
theorem commitSend_error :
    ((world.commitSend codec faults id index resource selected).selections id).error =
      if (world.waitables resource).closed then
        some (.guestPanic "send on closed waitable")
      else
        match world.selectionPeer resource true (some id),
          ((world.waitables resource).storage.appendBuffer codec faults selected.value).1 with
        | none, .error fault => some fault
        | _, _ => (world.selections id).error := by
  unfold commitSend
  dsimp only
  split
  · rw [complete_error]
    simp [setError]
  · split
    · next hp => rw [complete_error, complete_error, hp]
    · next hp =>
      rw [hp]
      split
      · next hs =>
        rw [complete_error, hs]
        rfl
      · next hs =>
        rw [complete_error, hs]
        simp [setError]

theorem commitReceive_error :
    ((world.commitReceive codec faults id index resource selected).selections id).error =
      if (world.waitables resource).storage.bufferLen ≠ 0 then
        match ((world.waitables resource).storage.popBuffer codec faults).1 with
        | .error fault => some fault
        | .ok _ => (world.selections id).error
      else (world.selections id).error := by
  unfold commitReceive
  dsimp only
  split
  · split
    · next hp =>
      rw [complete_error, hp]
      rfl
    · next hp =>
      rw [complete_error, hp]
      simp [setError]
  · split
    · rw [complete_error, complete_error]
    · rw [complete_error]

theorem commit_done :
    ((world.commitSend codec faults id index resource selected).selections id).done = true ∧
      ((world.commitReceive codec faults id index resource selected).selections id).done =
        true :=
  ⟨commitSend_done _ _ _ _ _ _, commitReceive_done _ _ _ _ _ _⟩

/-- A case that has been committed. -/
def committed (codec : Codec Value Raw) (world : World Value Raw)
    (faults : BufferFaults) (id index resource : Nat) (selected : SelectCase Value) :
    World Value Raw :=
  if selected.send then world.commitSend codec faults id index resource selected
  else world.commitReceive codec faults id index resource selected

theorem committed_done :
    ((world.committed codec faults id index resource selected).selections id).done = true := by
  unfold committed
  split
  · exact commit_done.1
  · exact commit_done.2

theorem resumeBlocked_chosen (hopen : (world.selections id).done = false)
    (hch : world.chosen pick id = some (index, selected, resource)) :
    world.resumeBlocked codec faults (.ok ()) pick id =
      (world.committed codec faults id index resource selected,
        match ((world.committed codec faults id index resource selected).selections id).error with
        | some (.error msg) => .error (.error msg)
        | _ => .ok true) := by
  unfold resumeBlocked
  rw [tryCommit_chosen hopen, hch]
  show (match ((world.committed codec faults id index resource selected).selections id).error with
    | some (.guestPanic _) => (_, _)
    | some (.error msg) => (_, _)
    | none => (_, _)) = _
  cases ((world.committed codec faults id index resource selected).selections id).error with
  | none => rfl
  | some fault => cases fault <;> rfl

theorem pressed_chosen (hch : world.chosen pick id = some (index, selected, resource)) :
    world.Pressed codec faults pick id ↔ if selected.send then
        (world.waitables resource).closed = false ∧
          world.selectionPeer resource true (some id) = none ∧
          ((world.waitables resource).storage.appendBuffer codec faults
            selected.value).1 = .error heapFault
      else
        (world.waitables resource).storage.bufferLen ≠ 0 ∧
          ((world.waitables resource).storage.popBuffer codec faults).1 = .error heapFault := by
  constructor
  · rintro ⟨_, _, _, hs, hp⟩
    obtain ⟨rfl, rfl, rfl⟩ := by simpa [hch] using hs
    exact hp
  · exact fun hp => ⟨index, selected, resource, hch, hp⟩

theorem committed_error_iff (he : (world.selections id).error = none)
    (hch : world.chosen pick id = some (index, selected, resource)) :
    ((world.committed codec faults id index resource selected).selections id).error =
      some heapFault ↔ world.Pressed codec faults pick id := by
  rw [pressed_chosen hch]
  unfold committed
  cases selected.send with
  | true =>
    simp only [if_true, commitSend_error, he]
    cases hc : (world.waitables resource).closed with
    | true => simp [heapFault]
    | false =>
      cases hp : world.selectionPeer resource true (some id) with
      | some peer => simp
      | none =>
        cases ((world.waitables resource).storage.appendBuffer codec faults
          selected.value).1 <;> simp
  | false =>
    simp only [Bool.false_eq_true, if_false, commitReceive_error, he]
    by_cases hem : (world.waitables resource).storage.bufferLen = 0
    · simp [hem]
    · cases ((world.waitables resource).storage.popBuffer codec faults).1 <;>
        simp [hem]

theorem resumeBlocked_error_iff (hopen : (world.selections id).done = false)
    (he : (world.selections id).error = none) :
    (world.resumeBlocked codec faults (.ok ()) pick id).2 = .error heapFault ↔
      world.Pressed codec faults pick id := by
  cases hch : world.chosen pick id with
  | none =>
    have hb : world.tryCommit codec faults pick id = (world, false) := by
      rw [tryCommit_chosen hopen, hch]
    simp [resumeBlocked, hb, Pressed, hch]
  | some choice =>
    obtain ⟨index, selected, resource⟩ := choice
    rw [resumeBlocked_chosen hopen hch, ← committed_error_iff he hch]
    cases ((world.committed codec faults id index resource selected).selections id).error with
    | none => simp
    | some fault => cases fault <;> simp [heapFault]

/-- A failed attempt has completed its selection. -/
theorem resumeBlocked_done (hopen : (world.selections id).done = false)
    (hp : world.Pressed codec faults pick id) :
    ((world.resumeBlocked codec faults (.ok ()) pick id).1.selections id).done =
      true := by
  obtain ⟨index, selected, resource, hch, -⟩ := hp
  rw [resumeBlocked_chosen hopen hch]
  exact committed_done

/-- Whatever has happened before, a blocked selection survives an attempt exactly if
the buffer access of the case it chooses does not fail for lack of memory. -/
theorem run_survives_iff (modules : ChannelModule Channel Value)
    (codec : Codec Value Raw) (transactions : List (Transaction Channel Value))
    (faults : BufferFaults) (pick id : Nat) :
    let world := World.initial.run modules codec transactions
    world.Survives codec faults pick id ↔ ¬world.Pressed codec faults pick id := by
  intro world
  have hworld : world.Invariant codec := initial_invariant.run transactions
  constructor
  · intro hsurvives hpressed
    have hopen : (world.selections id).done = false := by
      obtain ⟨index, selected, resource, hchosen, -⟩ := hpressed
      unfold chosen at hchosen
      split at hchosen
      · cases hchosen
      · next hopen => simpa using hopen
    have hfailed := (resumeBlocked_error_iff hopen (hworld.errorFree id hopen)).mpr hpressed
    have hsame := (hsurvives hopen hfailed).2.2.1
    have hdone := resumeBlocked_done hopen hpressed
    rw [hsame, hopen] at hdone
    cases hdone
  · intro hpressed hopen hfailed
    exact absurd ((resumeBlocked_error_iff hopen (hworld.errorFree id hopen)).mp hfailed) hpressed

/-- A sender waits on a full buffer, an item is received, and the sender is tried
again without memory: the selection is completed with the failure, which the attempt
after the collection reports as well, and its item is not in the buffer. -/
theorem blocked_send_fails :
    let modules : ChannelModule Nat Nat := {
      waitableValueData := fun channel => .ok (some channel)
      waitableCanSend := fun _ => true
      waitableCanRecv := fun _ => true
      normalizeWaitableSendValue := fun _ value => .ok value
      waitableZeroValue := fun _ => 0
      typeText := fun _ => "chan string" }
    let codec : Codec Nat Nat := {
      encode := fun item => item, decode := fun raw => raw, cleared := 0
      decode_encode := fun _ => rfl }
    let world := World.initial.run modules codec [.make 1 true,
      .select [⟨0, true, 5⟩] (.ok ()) .block 0 {},
      .select [⟨0, true, 7⟩] (.ok ()) .block 0 {},
      .tryReceive 0 {}]
    let attempt := world.resumeBlocked codec { encode := true } (.ok ()) 0 1
    let retried := attempt.1.resumeBlocked codec {} (.ok ()) 0 1
    (world.selections 1).done = false ∧ attempt.2 = .error heapFault ∧
      retried.2 = .error heapFault ∧ retried.1.contents codec 0 = [] ∧
      (world.resumeBlocked codec {} (.ok ()) 0 1).2 = .ok true := by
  decide

end World

end MiniGo.Runtime
