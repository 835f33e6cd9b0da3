/-
The gate between control and execution.

A VM has one owner or some execution slices, never both. A party reaches the gate's words in
lock sections and single atomic operations, and any other party may run between two of them.
Each party is at a place of its call; one operation changes the words and the place of the
party that executes it. The words are read off the places: how many parties own, run or
have a pending request. A caller that is parked while the gate is free is accounted for by
the token of the wake channel or by a party on its way to the next notification.
-/
import MiniGo.Lib.Table
import MiniGo.Lib.Replay

namespace MiniGo.Runtime.Safepoint

open Replay Table

/-- The words of the gate. The wake channel holds one token or none. -/
structure Gate where
  owner : Bool := false
  activeSlices : Nat := 0
  controlWaiters : Nat := 0
  ownerWake : Bool := false
deriving DecidableEq, Repr

namespace Gate

variable (gate : Gate)

/-- Without a result the call returns `ErrBusy`. -/
@[grind] def enterOwner : Option Gate :=
  if gate.controlWaiters != 0 || gate.activeSlices != 0 || gate.owner then none
  else some { gate with owner := true }

@[grind] def leaveOwner : Gate := { gate with owner := false }

/-- Without a result the call panics. -/
@[grind] def publishSlices (count : Nat) : Option Gate :=
  if count == 0 || !gate.owner || gate.activeSlices != 0 then none
  else some { gate with activeSlices := count, owner := false }

@[grind] def requestControl : Gate := { gate with controlWaiters := gate.controlWaiters + 1 }

/-- The lock section of `acquire`. -/
@[grind] def acquire : Option Gate :=
  if gate.activeSlices == 0 && !gate.owner then some { gate with owner := true } else none

/-- `cancel` of a pending request, up to its notification. -/
@[grind] def cancel : Gate := { gate with controlWaiters := gate.controlWaiters - 1 }

@[grind] def acquireSlice : Option Gate :=
  if gate.owner || gate.controlWaiters != 0 then none
  else some { gate with activeSlices := gate.activeSlices + 1 }

/-- The lock section of `releaseSlice`, and whether the slice was the last one. Without a
result the call panics. -/
@[grind] def releaseSlice : Option (Gate × Bool) :=
  if gate.activeSlices == 0 then none
  else some ({ gate with activeSlices := gate.activeSlices - 1 }, gate.activeSlices - 1 == 0)

@[grind] def notifyControlReady : Gate := { gate with ownerWake := true }

/-- Neither an owner nor a slice. -/
@[grind] def free : Bool := !gate.owner && gate.activeSlices == 0

end Gate

/-- Where a party is. -/
inductive Stage
  /-- It is the owner. -/
  | owns
  /-- It has an execution slice. -/
  | runs
  /-- A control job whose request is pending. -/
  | requests
  /-- In the loop of `enterOwnerContext`, before the context is checked. -/
  | enters
  /-- In the `select` of `enterOwnerContext`. -/
  | parks
  /-- After the lock section of a successful `acquire`. -/
  | acquired
  /-- The same, with the request no longer pending. -/
  | confirms
  /-- `enterOwnerContext` returns the context's error. -/
  | withdraws
  /-- Before the last `notifyControlReady` of its call. -/
  | notifies
deriving DecidableEq, Repr

namespace Stage

@[grind] def isOwner : Stage → Bool
  | owns | acquired | confirms => true
  | _ => false

@[grind] def isPending : Stage → Bool
  | requests | enters | parks | acquired | withdraws => true
  | _ => false

/-- The party waits for a signal from others. -/
def waits : Stage → Bool
  | requests | parks => true
  | _ => false

/-- The party is in `enterOwnerContext` and awake, or has a notification to execute. -/
@[grind] def isAwake : Stage → Bool
  | enters | withdraws | notifies => true
  | _ => false

end Stage

inductive Action
  | enterOwner
  | enterOwnerContext
  | requestControl
  | acquire
  /-- The context is found to be cancelled. -/
  | contextDone
  /-- A token is received from the wake channel. -/
  | wake
  | cancel
  | notifyControlReady
  | leaveOwner
  /-- One slice for each of the tasks. -/
  | publishSlices (tasks : List Nat)
  | acquireSlice
  | releaseSlice
deriving DecidableEq, Repr

/-- The parties that get a slice from the owner. -/
@[grind] def Action.tasks : Action → List Nat
  | publishSlices tasks => tasks
  | _ => []

/-- One operation of a party; a party without a stage is outside of every call. The write to
`pending` in `cancel` is private to the party and is taken together with the operation on
the counter that follows it. -/
def advance : Action → Gate → Option Stage → Option (Gate × Option Stage)
  | .enterOwner, gate, none => some <|
      match gate.enterOwner with
      | some entered => (entered, some .owns)
      | none => (gate, none)
  | .enterOwnerContext, gate, none => some (gate.requestControl, some .enters)
  | .requestControl, gate, none => some (gate.requestControl, some .requests)
  | .acquireSlice, gate, none => some <|
      match gate.acquireSlice with
      | some entered => (entered, some .runs)
      | none => (gate, none)
  | .acquire, gate, some .enters => some <|
      match gate.acquire with
      | some entered => (entered, some .acquired)
      | none => (gate, some .parks)
  | .acquire, gate, some .requests => some <|
      match gate.acquire with
      | some entered => (entered, some .acquired)
      | none => (gate, some .requests)
  | .contextDone, gate, some .enters => some (gate, some .withdraws)
  | .contextDone, gate, some .parks => some (gate, some .withdraws)
  | .wake, gate, some .parks =>
    if gate.ownerWake then some ({ gate with ownerWake := false }, some .enters) else none
  | .cancel, gate, some .requests => some (gate.cancel, some .notifies)
  | .cancel, gate, some .withdraws => some (gate.cancel, some .notifies)
  | .cancel, gate, some .acquired => some (gate.cancel, some .confirms)
  | .notifyControlReady, gate, some .confirms => some (gate.notifyControlReady, some .owns)
  | .notifyControlReady, gate, some .notifies => some (gate.notifyControlReady, none)
  | .leaveOwner, gate, some .owns => some (gate.leaveOwner, some .notifies)
  | .publishSlices tasks, gate, some .owns =>
    (gate.publishSlices tasks.length).map fun published => (published, none)
  | .releaseSlice, gate, some .runs =>
    gate.releaseSlice.map fun released =>
      (released.1, if released.2 then some .notifies else none)
  | _, _, _ => none

/-- The gate with the stages of the parties that are in a call. -/
structure State where
  gate : Gate := {}
  parties : Table Nat Stage := ∅

/-- The tasks start to run. -/
def enroll (parties : Table Nat Stage) (tasks : List Nat) : Table Nat Stage :=
  tasks.foldl (fun parties task => parties.insert task .runs) parties

/-- A party executes an operation; a task that gets a slice is outside of every call. -/
def step (event : Nat × Action) (state : State) : Option State := do
  let (gate, stage) ← advance event.2 state.gate (state.parties.lookup event.1)
  let parties := Table.put state.parties event.1 stage
  if event.2.tasks.Nodup ∧ ∀ task ∈ event.2.tasks, parties.lookup task = none then
    some ⟨gate, enroll parties event.2.tasks⟩
  else none

theorem step_eq_some {event : Nat × Action} {before after : State}
    (hs : step event before = some after) :
    ∃ gate stage, advance event.2 before.gate (before.parties.lookup event.1) = some (gate, stage) ∧
      event.2.tasks.Nodup ∧
      (∀ task ∈ event.2.tasks, (put before.parties event.1 stage).lookup task = none) ∧
      after = ⟨gate, enroll (put before.parties event.1 stage) event.2.tasks⟩ := by
  obtain ⟨⟨gate, stage⟩, hadv, hr⟩ := Option.bind_eq_some_iff.mp hs
  dsimp only at hr
  split at hr
  · next hfr => exact ⟨gate, stage, hadv, hfr.1, hfr.2, (Option.some.inj hr).symm⟩
  · cases hr

variable {parties : Table Nat Stage} {tasks : List Nat} {party : Nat}

section Enroll

theorem tally_enroll (kind : Stage → Bool) (hnd : tasks.Nodup)
    (hfr : ∀ task ∈ tasks, parties.lookup task = none) :
    tally kind (enroll parties tasks) = tally kind parties + tasks.length * (kind .runs).toNat := by
  induction tasks generalizing parties with
  | nil => rw [List.length_nil, Nat.zero_mul]; rfl
  | cons task rest ih =>
    obtain ⟨hnot, hr⟩ := List.nodup_cons.mp hnd
    have hre : ∀ other ∈ rest, (parties.insert task .runs).lookup other = none := by
      intro other ho
      have hne : other ≠ task := fun heq => hnot (heq ▸ ho)
      rw [AList.lookup_insert_ne hne]
      exact hfr other (List.mem_cons_of_mem task ho)
    refine (ih hr hre).trans ?_
    rw [tally_insert_of_notMem (AList.lookup_eq_none.mp (hfr task List.mem_cons_self)),
      List.length_cons, Nat.succ_mul]
    omega

theorem lookup_enroll_of_notMem (hnot : party ∉ tasks) :
    (enroll parties tasks).lookup party = parties.lookup party := by
  induction tasks generalizing parties with
  | nil => rfl
  | cons task rest ih =>
    obtain ⟨hne, hr⟩ := not_or.mp (mt List.mem_cons.mpr hnot)
    exact (ih hr).trans (AList.lookup_insert_ne hne)

theorem lookup_enroll_of_mem (hmem : party ∈ tasks) :
    (enroll parties tasks).lookup party = some .runs := by
  induction tasks generalizing parties with
  | nil => cases hmem
  | cons task rest ih =>
    by_cases hr : party ∈ rest
    · exact ih hr
    · obtain rfl := (List.mem_cons.mp hmem).resolve_right hr
      exact (lookup_enroll_of_notMem hr).trans (AList.lookup_insert parties)

theorem lookup_enroll {stage : Stage} (hfr : ∀ task ∈ tasks, parties.lookup task = none)
    (hs : parties.lookup party = some stage) :
    (enroll parties tasks).lookup party = some stage := by
  rw [lookup_enroll_of_notMem fun hmem => nomatch (hfr party hmem).symm.trans hs]
  exact hs

end Enroll

/-- How many of at most one party are of a kind. -/
@[grind] def weight (kind : Stage → Bool) (stage : Option Stage) : Nat := (stage.any kind).toNat

section Advance

variable {action : Action} {pre after : Gate} {old new : Option Stage}

section

variable (hadv : advance action pre old = some (after, new))
include hadv

/-- The operation changes the words as it changes the stage. -/
theorem advance_counts (ho : weight Stage.isOwner old ≤ pre.owner.toNat)
    (hp : weight Stage.isPending old ≤ pre.controlWaiters) :
    after.owner.toNat + weight Stage.isOwner old = pre.owner.toNat + weight Stage.isOwner new ∧
      after.activeSlices + weight (· == .runs) old =
        pre.activeSlices + weight (· == .runs) new + action.tasks.length ∧
      after.controlWaiters + weight Stage.isPending old =
        pre.controlWaiters + weight Stage.isPending new := by
  unfold advance at hadv
  split at hadv <;> grind [Bool.toNat_le]

/-- The lock sections keep owner and slices apart. -/
theorem advance_exclusive (he : pre.owner = true → pre.activeSlices = 0) :
    after.owner = true → after.activeSlices = 0 := by
  unfold advance at hadv
  split at hadv <;> grind

/-- If the gate is free after an operation, there is a token, or the party is awake, or the
gate was free before and nothing that a parked caller relies on has gone. -/
theorem advance_free (hf : after.free = true) :
    after.ownerWake = true ∨ new.any Stage.isAwake = true ∨
      pre.free = true ∧ pre.ownerWake = after.ownerWake ∧
        old.any Stage.isAwake = false ∧ (new = some .parks → old = some .parks) := by
  unfold advance at hadv
  split at hadv <;> grind

end

/-- A slice is acquired only without a pending request. -/
theorem advance_acquireSlice (hadv : advance .acquireSlice pre old = some (after, some .runs)) :
    pre.controlWaiters = 0 := by
  unfold advance at hadv
  split at hadv <;> grind

end Advance

/-- By its own operations, whichever of them it executes, the party comes to a
`notifyControlReady` before it waits. -/
inductive Committed : Gate → Option Stage → Prop
  | notify {gate stage after} : advance .notifyControlReady gate stage = some after →
      Committed gate stage
  | later {gate stage} : stage.any Stage.waits = false →
      (∃ action after, advance action gate stage = some after) →
      (∀ action after next, advance action gate stage = some (after, next) → Committed after next) →
      Committed gate stage

theorem committed_of_cancel {gate : Gate} {stage : Stage}
    (hs : stage = .withdraws ∨ stage = .acquired) : Committed gate (some stage) := by
  refine .later ?_ ⟨.cancel, ?_⟩ fun action after next hadv => ?_
  · rcases hs with rfl | rfl <;> rfl
  · rcases hs with rfl | rfl <;> exact ⟨_, rfl⟩
  · apply @Committed.notify _ _
      (after.notifyControlReady, if stage = .acquired then some .owns else none)
    unfold advance at hadv
    split at hadv <;> grind [advance]

/-- A party that is awake while the gate is free. -/
theorem committed_of_isAwake {gate : Gate} {stage : Stage} (hf : gate.free = true)
    (ha : stage.isAwake = true) : Committed gate (some stage) := by
  cases stage with
  | withdraws => exact committed_of_cancel (.inl rfl)
  | notifies => exact .notify rfl
  | enters =>
    -- a free gate lets the party in, and otherwise it withdraws
    refine .later rfl ⟨.contextDone, _, rfl⟩ fun action after next hadv => ?_
    unfold advance at hadv
    split at hadv <;> grind [committed_of_cancel]
  | _ => cases ha

/-- The words are read off the stages, owner and slices exclude each other, and a parked
caller is accounted for. -/
structure Invariant (state : State) : Prop where
  owner : state.gate.owner.toNat = Table.tally Stage.isOwner state.parties
  slices : state.gate.activeSlices = Table.tally (· == .runs) state.parties
  waiters : state.gate.controlWaiters = Table.tally Stage.isPending state.parties
  exclusive : state.gate.owner = true → state.gate.activeSlices = 0
  wake : state.gate.free = true → ∀ party, state.parties.lookup party = some .parks →
    state.gate.ownerWake = true ∨
      ∃ other stage, state.parties.lookup other = some stage ∧ stage.isAwake = true

theorem initial_invariant : Invariant {} where
  owner := rfl
  slices := rfl
  waiters := rfl
  exclusive := fun _ => rfl
  wake := fun _ party hp => nomatch (AList.lookup_empty party).symm.trans hp

section Step

variable {stage : Option Stage}

theorem weight_le_tally (kind : Stage → Bool) :
    weight kind (parties.lookup party) ≤ tally kind parties := by
  have hp := @tally_put _ _ _ kind parties party none
  rw [weight, ← Nat.add_zero (tally kind parties)]
  exact hp ▸ Nat.le_add_left _ _

/-- A word that counts a kind of parties still does after the step. -/
theorem counts_step {kind : Stage → Bool} {before after : Nat} (hnd : tasks.Nodup)
    (hfr : ∀ task ∈ tasks, (put parties party stage).lookup task = none)
    (hb : before = tally kind parties)
    (hw : after + weight kind (parties.lookup party) =
      before + weight kind stage + tasks.length * (kind .runs).toNat) :
    after = tally kind (enroll (put parties party stage) tasks) := by
  have he := tally_enroll kind hnd hfr
  have hp := @tally_put _ _ _ kind parties party stage
  rw [weight, weight] at hw
  omega

/-- What is not running after the step was there before it, or is the party that moved. -/
theorem lookup_step_cases {other : Nat} {found : Stage}
    (hf : (enroll (put parties party stage) tasks).lookup other = some found) :
    found = .runs ∨ other = party ∧ stage = some found ∨
      other ≠ party ∧ parties.lookup other = some found := by
  by_cases hmem : other ∈ tasks
  · rw [lookup_enroll_of_mem hmem] at hf
    exact .inl (Option.some.inj hf).symm
  · rw [lookup_enroll_of_notMem hmem] at hf
    by_cases ho : other = party
    · rw [ho, lookup_put_self] at hf
      exact .inr (.inl ⟨ho, hf⟩)
    · rw [lookup_put_of_ne stage ho] at hf
      exact .inr (.inr ⟨ho, hf⟩)

end Step

theorem Invariant.step {event : Nat × Action} {before after : State}
    (hi : Invariant before) (hst : step event before = some after) :
    Invariant after := by
  obtain ⟨gate, stage, hadv, hnd, hfr, rfl⟩ := step_eq_some hst
  obtain ⟨how, hsl, hw⟩ := advance_counts hadv
    (hi.owner ▸ weight_le_tally _) (hi.waiters ▸ weight_le_tally _)
  refine ⟨counts_step hnd hfr hi.owner how, counts_step hnd hfr hi.slices (by simpa using hsl),
    counts_step hnd hfr hi.waiters hw,
    advance_exclusive hadv hi.exclusive, fun hfre party hp => ?_⟩
  rcases advance_free hadv hfre with ht | haw | ⟨hb, ht, ha, hpa⟩
  · exact .inl ht
  · obtain ⟨found, rfl, hf⟩ := (Option.any_eq_true _ _).mp haw
    exact .inr ⟨event.1, found, lookup_enroll hfr (lookup_put_self _), hf⟩
  · have hwas : ∃ party, before.parties.lookup party = some .parks := by
      rcases lookup_step_cases hp with hr | ⟨-, hs⟩ | ⟨-, hpar⟩
      · cases hr
      · exact ⟨event.1, hpa hs⟩
      · exact ⟨party, hpar⟩
    obtain ⟨parked, hp⟩ := hwas
    rcases hi.wake hb parked hp with hwa | ⟨other, found, ho, hf⟩
    · exact .inl (ht ▸ hwa)
    · have hne : other ≠ event.1 := by
        rintro rfl
        rw [ho, Option.any_some, hf] at ha
        cases ha
      exact .inr ⟨other, found, lookup_enroll hfr ((lookup_put_of_ne stage hne).trans ho), hf⟩

/-- What the gate promises in a state. -/
structure Sound (state : State) : Prop where
  /-- There is no owner while a slice is active. -/
  exclusive : ∀ party stage, state.parties.lookup party = some stage → stage.isOwner = true →
    state.gate.activeSlices = 0 ∧ ∀ other, state.parties.lookup other ≠ some .runs
  single : ∀ party other stage stage', state.parties.lookup party = some stage →
    state.parties.lookup other = some stage' → stage.isOwner = true → stage'.isOwner = true →
    other = party
  /-- `acquireSlice` succeeds only without a pending request. -/
  admission : ∀ party after, step (party, .acquireSlice) state = some after →
    after.parties.lookup party = some .runs →
    ∀ other stage, state.parties.lookup other = some stage → stage.isPending = false
  waiters : state.gate.controlWaiters = Table.tally Stage.isPending state.parties
  /-- The words of the gate say what the parties do. -/
  owner : state.gate.owner = true ↔
    ∃ party stage, state.parties.lookup party = some stage ∧ stage.isOwner = true
  slices : state.gate.activeSlices = Table.tally (· == .runs) state.parties
  /-- If nobody owns the gate or runs, a parked caller finds a token, or some party is
  committed to a notification. -/
  wake : (∀ party stage, state.parties.lookup party = some stage →
      stage.isOwner = false ∧ stage ≠ .runs) →
    ∀ party, state.parties.lookup party = some .parks → state.gate.ownerWake = true ∨
        ∃ other stage, state.parties.lookup other = some stage ∧ Committed state.gate (some stage)

/-- A set flag has an owner. -/
theorem Invariant.exists_owner {state : State} (hinvariant : Invariant state)
    (hflag : state.gate.owner = true) :
    ∃ party stage, state.parties.lookup party = some stage ∧ stage.isOwner = true := by
  by_contra hnobody
  have hnone : tally Stage.isOwner state.parties = 0 := by
    refine tally_eq_zero fun party stage hparty => Bool.eq_false_iff.mpr fun howns => ?_
    exact hnobody ⟨party, stage, hparty, howns⟩
  have hcount := hinvariant.owner
  rw [hflag, hnone] at hcount
  cases hcount

/-- An owner has set the flag. -/
theorem Invariant.owner_eq_true {state : State} (hinvariant : Invariant state) {party : Nat}
    {stage : Stage} (hparty : state.parties.lookup party = some stage)
    (howns : stage.isOwner = true) : state.gate.owner = true := by
  by_contra hflag
  have hcount := hinvariant.owner
  rw [Bool.eq_false_iff.mpr hflag] at hcount
  rw [eq_false_of_tally_eq_zero hcount.symm hparty] at howns
  cases howns

/-- Without an owner and without a running party the words say that the gate is free. -/
theorem Invariant.free {state : State} (hinvariant : Invariant state)
    (hidle : ∀ party stage, state.parties.lookup party = some stage →
      stage.isOwner = false ∧ stage ≠ .runs) : state.gate.free = true := by
  have howner : state.gate.owner = false := by
    refine Bool.eq_false_iff.mpr fun hflag => ?_
    obtain ⟨party, stage, hparty, howns⟩ := hinvariant.exists_owner hflag
    rw [(hidle party stage hparty).1] at howns
    cases howns
  have hslices : state.gate.activeSlices = 0 := by
    rw [hinvariant.slices]
    refine tally_eq_zero fun party stage hparty => ?_
    exact beq_eq_false_iff_ne.mpr (hidle party stage hparty).2
  rw [Gate.free, howner, hslices]
  rfl

theorem Invariant.sound {state : State} (hinvariant : Invariant state) : Sound state where
  exclusive party stage hparty howns := by
    have hnone := hinvariant.exclusive (hinvariant.owner_eq_true hparty howns)
    refine ⟨hnone, fun other hruns => ?_⟩
    have hstage := eq_false_of_tally_eq_zero (hinvariant.slices.symm.trans hnone) hruns
    cases hstage
  single party other stage stage' hparty hother howns howns' :=
    eq_of_tally_le_one (hinvariant.owner ▸ Bool.toNat_le _) hparty howns hother howns'
  admission party after hstep hruns other stage hother := by
    obtain ⟨gate, new, hadvance, -, -, rfl⟩ := step_eq_some hstep
    have hnew : new = some .runs := (lookup_put_self new).symm.trans hruns
    have hwaiters := advance_acquireSlice (hnew ▸ hadvance)
    exact eq_false_of_tally_eq_zero (hinvariant.waiters.symm.trans hwaiters) hother
  waiters := hinvariant.waiters
  owner := by
    refine ⟨hinvariant.exists_owner, ?_⟩
    rintro ⟨party, stage, hparty, howns⟩
    exact hinvariant.owner_eq_true hparty howns
  slices := hinvariant.slices
  wake hidle party hparty := by
    have hfree := hinvariant.free hidle
    refine (hinvariant.wake hfree party hparty).imp_right ?_
    rintro ⟨other, stage, hother, hawake⟩
    exact ⟨other, stage, hother, committed_of_isAwake hfree hawake⟩

/-- In every interleaving of the parties' operations, every state that is passed keeps the
promises of the gate. -/
theorem gate_sound {log : List (Nat × Action)} {state : State}
    (hpasses : Passes step log {} state) : Sound state := by
  have hinvariant : Invariant state :=
    passes_induction initial_invariant (fun before event after hoccurs hbefore => by
        obtain ⟨-, -, -, -, hstep⟩ := hoccurs
        exact hbefore.step hstep) state hpasses
  exact hinvariant.sound

/-- Two callers park behind an owner that publishes two slices; the caller that takes the last
slice's token is cancelled. -/
def canceledLog : List (Nat × Action) :=
  [(0, .enterOwner), (1, .enterOwnerContext), (2, .enterOwnerContext), (1, .acquire),
    (2, .acquire), (0, .publishSlices [3, 4]), (3, .releaseSlice), (4, .releaseSlice),
    (4, .notifyControlReady), (1, .wake), (1, .contextDone)]

theorem canceledLog_sound : ∃ state, replay step canceledLog {} = some state ∧
    state.gate = { controlWaiters := 2 } ∧ state.parties.lookup 2 = some .parks ∧ Sound state :=
  ⟨_, rfl, rfl, rfl, gate_sound ⟨canceledLog, [], rfl, rfl⟩⟩

end MiniGo.Runtime.Safepoint
