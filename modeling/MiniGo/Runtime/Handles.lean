/-
The handles of managed objects.

A handle is a slot with the generation the slot had when it was handed out. The heap is read
slot by slot: how often the slot is in `freeSlots` and in `occupied`, and which reservations
refer to it. Operations that go over several slots are read as one action for each of them.
-/
import MiniGo.Lib.Replay

namespace MiniGo.Runtime.Handles

open Replay List

inductive ObjectState
  | free
  | reserved
  | published
deriving DecidableEq

/-- A reservation in a batch, with its generation once it has been handed out. -/
structure Ticket where
  batch : Nat
  index : Nat
  generation : Option Nat := none
  done : Bool := false
deriving DecidableEq

structure Slot where
  generation : Nat := 0
  state : ObjectState := .free
  /-- The slot has not been taken from `nextSlot` yet. -/
  fresh : Bool := true
  listed : Nat := 0
  occupied : Nat := 0
  /-- The reservations of the owner that are not done, by their generations. -/
  reservations : List Nat := []
  /-- The reservations of batches that are not finished. -/
  tickets : List Ticket := []
  /-- The generations that were handed out. -/
  issued : List Nat := []
  /-- The generations of the objects that were released or aborted. -/
  dead : List Nat := []

/-- `math.MaxUint32`. -/
@[grind] def maxGeneration : Nat := 4294967295

namespace Slot

variable (slot : Slot)

/-- `entry.generation++` with the new handle. -/
@[grind] def issue : Slot :=
  let generation := (slot.generation + 1) % 4294967296
  { slot with generation, state := .reserved, issued := generation :: slot.issued }

/-- A slot from `freeSlots`, or else a new one. -/
@[grind] def take : Option Slot :=
  if 0 < slot.listed then some { slot with listed := slot.listed - 1 }
  else if slot.fresh then some { slot with fresh := false }
  else none

/-- A slot whose generations are exhausted is not listed again. -/
@[grind] def recycle : Slot :=
  if slot.generation = maxGeneration then slot else { slot with listed := slot.listed + 1 }

@[grind] def kill : Slot :=
  { slot with state := .free, dead := slot.generation :: slot.dead }

@[grind] def freeObject (published : Bool) : Slot :=
  if slot.state = .free then slot
  else recycle { slot.kill with occupied := slot.occupied - if published then 1 else 0 }

/-- `resolveObject`. -/
@[grind] def resolves (generation : Nat) : Bool :=
  slot.state = .published ∧ slot.generation = generation

@[grind] def replace (ticket next : Ticket) : Slot :=
  { slot with tickets := next :: slot.tickets.erase ticket }

end Slot

inductive Action
  /-- An exhausted slot is dropped from the end of `freeSlots`. -/
  | retire
  | reserve
  | commit (generation : Nat)
  | abort (generation : Nat)
  /-- `acquireBatch` and `refill`. -/
  | lease (batch index : Nat)
  | batchReserve (ticket : Ticket)
  | batchCommit (ticket : Ticket)
  | batchAbort (ticket : Ticket)
  | abortUnfinished (ticket : Ticket)
  | flush (ticket : Ticket)
  /-- `rollbackManagedPublications` for a record of the batch. -/
  | withdraw (ticket : Ticket)
  /-- `release`, and `rollbackManagedPublications` for other records. -/
  | release (generation : Nat)
  /-- The collector frees an object of `occupied`. -/
  | sweep
deriving DecidableEq

/-- An action on a slot. Without a result the source panics or reports an error, or the action
does not come to this slot. A `release` finds its object in `occupied`; for a published object
that a batch has not handed over yet the source would drop another one or panic, while here
the slot is freed all the same. -/
@[grind] def advance : Action → Slot → Option Slot
  | .retire, slot =>
    if 0 < slot.listed ∧ slot.generation = maxGeneration then
      some { slot with listed := slot.listed - 1 }
    else none
  | .reserve, slot =>
    if 0 < slot.listed ∧ slot.generation = maxGeneration then none
    else slot.take.map fun taken =>
      { taken.issue with reservations := taken.issue.generation :: slot.reservations }
  | .commit generation, slot =>
    if generation ∈ slot.reservations then some { slot with
      reservations := slot.reservations.erase generation, occupied := slot.occupied + 1
      state := .published }
    else none
  | .abort generation, slot =>
    if generation ∈ slot.reservations then
      some { slot.freeObject false with reservations := slot.reservations.erase generation }
    else some slot
  | .lease batch index, slot =>
    slot.take.map fun taken => { taken with tickets := { batch, index } :: slot.tickets }
  | .batchReserve ticket, slot =>
    if ticket ∈ slot.tickets ∧ ticket.generation = none then
      some (slot.issue.replace ticket { ticket with generation := some slot.issue.generation })
    else none
  | .batchCommit ticket, slot =>
    if ticket ∈ slot.tickets ∧ ticket.generation ≠ none ∧ ticket.done = false then
      some { slot.replace ticket { ticket with done := true } with state := .published }
    else none
  | .batchAbort ticket, slot =>
    if ticket ∈ slot.tickets ∧ ticket.generation ≠ none ∧ ticket.done = false then
      some (slot.kill.replace ticket { ticket with done := true })
    else some slot
  | .abortUnfinished ticket, slot =>
    if ticket ∈ slot.tickets ∧ ticket.done = false then
      some ((if slot.state = .reserved then slot.kill else slot).replace ticket
        { ticket with done := true })
    else some slot
  | .flush ticket, slot =>
    if ticket ∈ slot.tickets ∧ (ticket.generation ≠ none → ticket.done = true) then
      let slot := { slot with tickets := slot.tickets.erase ticket }
      some (if ticket.generation ≠ none ∧ slot.state = .published then
        { slot with occupied := slot.occupied + 1 } else slot.recycle)
    else none
  | .withdraw ticket, slot =>
    if ticket ∈ slot.tickets ∧ ticket.generation = some slot.generation ∧
        slot.state = .published then some slot.kill
    else some slot
  | .release generation, slot =>
    some (if slot.resolves generation then slot.freeObject true else slot)
  | .sweep, slot =>
    if 0 < slot.occupied ∧ slot.state = .published then some (slot.freeObject true) else none

/-- What is true of a slot between two operations. -/
structure Coherent (slot : Slot) : Prop where
  /-- The slot is at one place. -/
  place : slot.listed + slot.occupied + slot.reservations.length + slot.tickets.length ≤
    if slot.fresh then 0 else 1
  bound : slot.generation ≤ maxGeneration
  fresh : slot.fresh = true → slot.generation = 0
  listed : 0 < slot.listed → slot.generation ≠ maxGeneration
  unused : ∀ ticket ∈ slot.tickets, ticket.generation = none → slot.generation ≠ maxGeneration
  published : slot.state = .published → slot.occupied = 0 → slot.tickets ≠ [] ∧
    ∀ ticket ∈ slot.tickets, ticket.generation ≠ none ∧ ticket.done = true
  live : slot.state = .published ∨ slot.reservations ≠ [] ∨
    (∃ ticket ∈ slot.tickets, ticket.generation ≠ none ∧ ticket.done = false) →
      slot.generation ∉ slot.dead
  dead : ∀ generation ∈ slot.dead, generation ≤ slot.generation
  issued : ∀ generation ∈ slot.issued, generation ≤ slot.generation
  last : slot.issued.head?.getD 0 = slot.generation
  once : slot.issued.Nodup

/-- A record of a batch that is not flushed is released through the batch. -/
@[grind] def disciplined : Action → Slot → Bool
  | .release generation, slot => !slot.resolves generation || decide (0 < slot.occupied)
  | _, _ => true

/-- Only one part of the heap holds the slot. -/
theorem eq_singleton {α : Type} {items : List α} {item : α} {rest : Nat} (hmem : item ∈ items)
    (hle : rest + items.length ≤ 1) : items = [item] ∧ rest = 0 := by
  have hpos := length_pos_of_mem hmem
  obtain ⟨other, rfl⟩ := length_eq_one_iff.mp (show items.length = 1 by omega)
  rw [mem_singleton.mp hmem]
  exact ⟨rfl, by omega⟩

variable {slot : Slot} {ticket : Ticket} {generation : Nat}

theorem Coherent.le_one (hs : Coherent slot) :
    slot.listed + slot.occupied + slot.reservations.length + slot.tickets.length ≤ 1 :=
  hs.place.trans (by split <;> omega)

theorem Coherent.of_ticket (hs : Coherent slot) (hmem : ticket ∈ slot.tickets) :
    slot.tickets = [ticket] ∧ slot.reservations = [] ∧ slot.listed = 0 ∧ slot.occupied = 0 := by
  obtain ⟨ho, hz⟩ := eq_singleton hmem hs.le_one
  exact ⟨ho, length_eq_zero_iff.mp (by omega), by omega, by omega⟩

theorem Coherent.of_reservation (hs : Coherent slot) (hmem : generation ∈ slot.reservations) :
    slot.reservations = [generation] ∧ slot.tickets = [] ∧ slot.listed = 0 ∧ slot.occupied = 0 := by
  have hle := hs.le_one
  obtain ⟨ho, hz⟩ := @eq_singleton _ _ _
    (slot.listed + slot.occupied + slot.tickets.length) hmem (by omega)
  exact ⟨ho, length_eq_zero_iff.mp (by omega), by omega, by omega⟩

theorem Coherent.no_reservations (hs : Coherent slot)
    (hpos : 0 < slot.listed ∨ 0 < slot.occupied ∨ slot.fresh = true) :
    slot.reservations = [] ∧ slot.tickets = [] := by
  have hp := hs.place
  refine ⟨length_eq_zero_iff.mp ?_, length_eq_zero_iff.mp ?_⟩ <;> grind -linarith

section Steps

variable {before after : Slot} (hbefore : Coherent before)

include hbefore

theorem Coherent.retire (hafter : advance .retire before = some after) : Coherent after := by
  rw [advance] at hafter
  split at hafter
  · next hlast => exact absurd hlast.2 (hbefore.listed hlast.1)
  · cases hafter

theorem Coherent.reserve (hafter : advance .reserve before = some after) : Coherent after := by
  cases hbefore
  constructor <;> grind -linarith

theorem Coherent.commit (hafter : advance (.commit generation) before = some after) :
    Coherent after := by
  rw [advance] at hafter
  split at hafter
  · next hmem =>
    obtain rfl := Option.some.inj hafter
    obtain ⟨hreservations, htickets, hlisted, hoccupied⟩ := hbefore.of_reservation hmem
    exact { hbefore with
      place := by simpa [hreservations, htickets, hlisted, hoccupied] using hbefore.place
      published := by simp
      live := fun _ => hbefore.live (.inr (.inl (by simp [hreservations]))) }
  · cases hafter

theorem Coherent.abort (hafter : advance (.abort generation) before = some after) :
    Coherent after := by
  by_cases hmem : generation ∈ before.reservations
  · have halone := hbefore.of_reservation hmem
    cases hbefore
    constructor <;> grind -linarith
  · grind -linarith

theorem Coherent.lease {b index : Nat}
    (hafter : advance (.lease b index) before = some after) : Coherent after := by
  have hnone := hbefore.no_reservations
  cases hbefore
  constructor <;> grind -linarith

theorem Coherent.batchReserve (hafter : advance (.batchReserve t) before = some after) :
    Coherent after := by
  by_cases hmem : t ∈ before.tickets
  · have halone := hbefore.of_ticket hmem
    cases hbefore
    constructor <;> grind -linarith
  · grind -linarith

theorem Coherent.batchCommit (hafter : advance (.batchCommit t) before = some after) :
    Coherent after := by
  rw [advance] at hafter
  split at hafter
  · next hready =>
    obtain rfl := Option.some.inj hafter
    obtain ⟨hmem, hgeneration, hdone⟩ := hready
    obtain ⟨htickets, hreservations, hlisted, hoccupied⟩ := hbefore.of_ticket hmem
    exact { hbefore with
      place := by
        simpa [Slot.replace, hreservations, htickets, hlisted, hoccupied] using hbefore.place
      unused := by simp [Slot.replace, htickets, hgeneration]
      published := by simp [Slot.replace, htickets, hgeneration]
      live := fun _ => hbefore.live (.inr (.inr ⟨t, hmem, hgeneration, hdone⟩)) }
  · cases hafter

theorem Coherent.batchAbort (hafter : advance (.batchAbort t) before = some after) :
    Coherent after := by
  by_cases hmem : t ∈ before.tickets
  · have halone := hbefore.of_ticket hmem
    cases hbefore
    constructor <;> grind -linarith
  · grind -linarith

theorem Coherent.abortUnfinished (hafter : advance (.abortUnfinished t) before = some after) :
    Coherent after := by
  by_cases hmem : t ∈ before.tickets
  · have halone := hbefore.of_ticket hmem
    cases hbefore
    constructor <;> grind -linarith
  · grind -linarith

theorem Coherent.flush (hafter : advance (.flush t) before = some after) : Coherent after := by
  by_cases hmem : t ∈ before.tickets
  · have halone := hbefore.of_ticket hmem
    cases hbefore
    constructor <;> grind -linarith
  · grind -linarith

theorem Coherent.withdraw (hafter : advance (.withdraw t) before = some after) :
    Coherent after := by
  rw [advance] at hafter
  split at hafter <;> obtain rfl := Option.some.inj hafter
  · next hready =>
    obtain ⟨hmem, -, hstate⟩ := hready
    obtain ⟨-, hreservations, -, hoccupied⟩ := hbefore.of_ticket hmem
    obtain ⟨-, hfinished⟩ := hbefore.published hstate hoccupied
    exact { hbefore with
      published := by simp [Slot.kill]
      live := by
        -- a published object of a batch has no ticket that is not done
        rintro (hpublished | hpending | ⟨ticket, hticket, -, hdone⟩)
        · simp [Slot.kill] at hpublished
        · exact absurd hreservations hpending
        · simp [(hfinished ticket hticket).2] at hdone
      dead := by
        intro generation hdead
        rcases mem_cons.mp hdead with rfl | hdead
        · exact Nat.le_refl _
        · exact hbefore.dead generation hdead }
  · exact hbefore

/-- An object of the ledger is released. -/
theorem Coherent.free (hp : 0 < before.occupied) : Coherent (before.freeObject true) := by
  have hnone := hbefore.no_reservations (.inr (.inl hp))
  cases hbefore
  constructor <;> grind -linarith

theorem Coherent.kept {a : Action} (hd : disciplined a before = true)
    (hafter : advance a before = some after) : Coherent after := by
  cases a with
  | retire => exact hbefore.retire hafter
  | reserve => exact hbefore.reserve hafter
  | commit => exact hbefore.commit hafter
  | abort => exact hbefore.abort hafter
  | lease => exact hbefore.lease hafter
  | batchReserve => exact hbefore.batchReserve hafter
  | batchCommit => exact hbefore.batchCommit hafter
  | batchAbort => exact hbefore.batchAbort hafter
  | abortUnfinished => exact hbefore.abortUnfinished hafter
  | flush => exact hbefore.flush hafter
  | withdraw => exact hbefore.withdraw hafter
  | release generation =>
    have hf := hbefore.free
    grind -linarith
  | sweep =>
    have hf := hbefore.free
    grind -linarith

end Steps

/-- What the handles of a slot promise. -/
structure Sound (slot : Slot) : Prop where
  /-- No handle is handed out twice. -/
  once : slot.issued.Nodup
  /-- The handle of a released or aborted object does not resolve. -/
  dead : ∀ generation ∈ slot.dead, slot.resolves generation = false
  /-- An object is found by the newest handle only. -/
  newest : ∀ generation, slot.resolves generation = true → generation = slot.issued.head?.getD 0

/-- In every run in which the records of a batch are released through it until it is flushed,
no handle is handed out twice, and dead handles do not resolve. -/
theorem handles_unique {log : List Action} (hdisc : ∀ before action after,
      Occurs advance log {} before action after → disciplined action before = true)
    (hpasses : Passes advance log {} slot) : Sound slot := by
  have hcoh : Coherent slot := by
    refine passes_induction ?_ ?_ slot hpasses
    · constructor <;> grind -linarith
    · intro before action after hoccurs hbef
      obtain ⟨-, -, -, -, hadv⟩ := id hoccurs
      exact hbef.kept (hdisc before action after hoccurs) hadv
  obtain ⟨-, -, -, -, -, -, hlive, -, -, hlast, honce⟩ := hcoh
  constructor <;> grind -linarith

/-- An object is released and one is withdrawn; the slot is handed out a third time. -/
def withdrawnLog : List Action :=
  [.reserve, .commit 1, .release 1, .lease 7 0, .batchReserve ⟨7, 0, none, false⟩,
    .batchCommit ⟨7, 0, some 2, false⟩, .withdraw ⟨7, 0, some 2, true⟩,
    .flush ⟨7, 0, some 2, true⟩, .reserve]

theorem withdrawnLog_unique : ∃ slot, replay advance withdrawnLog {} = some slot ∧
    slot.issued = [3, 2, 1] ∧ slot.dead = [2, 1] ∧ Sound slot := by
  refine ⟨_, rfl, rfl, rfl, handles_unique (fun before action after hoccurs => ?_)
    ⟨withdrawnLog, [], rfl, rfl⟩⟩
  have hall : ∀ entry ∈ transitions advance withdrawnLog {},
      disciplined entry.2.1 entry.1 = true := by decide
  exact hall _ hoccurs.mem_transitions

section Reuse

/-- A slot is handed out by the owner and given back, again and again. -/
def churn : Nat → Nat → List Action
  | _, 0 => []
  | generation, count + 1 =>
    .reserve :: .abort (generation + 1) :: churn (generation + 1) count

/-- A slot that is in the free list twice. -/
def twice (generation : Nat) (issued dead : List Nat) : Slot :=
  { generation, fresh := false, listed := 2, issued, dead }

theorem replay_turn {rest : List Action} {issued dead : List Nat}
    (hlt : generation + 1 < maxGeneration) :
    replay advance (.reserve :: .abort (generation + 1) :: rest) (twice generation issued dead) =
      replay advance rest
        (twice (generation + 1) ((generation + 1) :: issued) ((generation + 1) :: dead)) := by
  have hne : generation ≠ maxGeneration ∧ generation + 1 ≠ maxGeneration := by omega
  have hmod : (generation + 1) % 4294967296 = generation + 1 := by
    rw [maxGeneration] at hlt
    omega
  simp [replay, advance, twice, Slot.take, Slot.issue, Slot.freeObject, Slot.recycle, Slot.kill,
    hne, hmod]

theorem replay_churn {count : Nat} {issued dead : List Nat}
    (hlt : generation + count < maxGeneration) : ∃ more gone,
      replay advance (churn generation count) (twice generation issued dead) =
        some (twice (generation + count) (more ++ issued) gone) := by
  induction count generalizing generation issued dead with
  | zero => exact ⟨[], dead, rfl⟩
  | succ count ih =>
    obtain ⟨more, gone, hrest⟩ := @ih (generation + 1) ((generation + 1) :: issued)
      ((generation + 1) :: dead) (by omega)
    refine ⟨more ++ [generation + 1], gone, ?_⟩
    rw [churn, replay_turn (by omega), hrest]
    simp [Nat.add_comm, Nat.add_left_comm]

/-- A record of an open batch is released directly; its slot is listed twice. -/
def directRelease : List Action :=
  [.lease 0 0, .batchReserve ⟨0, 0, none, false⟩, .batchCommit ⟨0, 0, some 1, false⟩, .release 1,
    .flush ⟨0, 0, some 1, true⟩]

/-- The exhausted slot is leased and its generation wraps. -/
def wrap : List Action :=
  [.reserve, .abort maxGeneration, .lease 1 0, .batchReserve ⟨1, 0, none, false⟩,
    .batchAbort ⟨1, 0, some 0, false⟩, .flush ⟨1, 0, some 0, true⟩, .reserve]

theorem directRelease_reissues : ∃ log slot, replay advance log {} = some slot ∧
    ¬ slot.issued.Nodup := by
  obtain ⟨more, gone, hchurn⟩ := @replay_churn 1 4294967293 [1] [1] (by decide)
  have hwrap : ∃ slot, replay advance wrap (twice 4294967294 (more ++ [1]) gone) = some slot ∧
      slot.issued = 1 :: 0 :: maxGeneration :: (more ++ [1]) := by
    simp [replay, wrap, advance, twice, Slot.take, Slot.issue, Slot.freeObject, Slot.recycle,
      Slot.kill, Slot.replace, maxGeneration]
  obtain ⟨slot, hslot, hissued⟩ := hwrap
  refine ⟨directRelease ++ (churn 1 4294967293 ++ wrap), slot, ?_, ?_⟩
  · refine replay_append_eq_some.mpr ⟨twice 1 [1] [1], rfl, ?_⟩
    exact replay_append_eq_some.mpr ⟨_, hchurn, hslot⟩
  · simp [hissued]

end Reuse

end MiniGo.Runtime.Handles
