/-
The hand-off of tasks between workers, notifiers and the owner.

Every operation on a task's ownership is one lock section, and any party may run between two
of them. A worker that acquired a task holds its lease until it relinquishes it; the owner
merges what a worker returned before it looks at the task again. The queues of the scheduler
are read task by task: how often the task is in the queue. Tickets are compared by identity,
and a new wait gets a new one.
-/
import MiniGo.Lib.Replay

namespace MiniGo.Runtime.Handoff

open Replay List

inductive DispatchState
  | detached
  | queued
  | running
  | parking
  | waiting
  | terminal
deriving DecidableEq

/-- The kind of a blocked operation. -/
inductive WaitKind
  | select
  | mutex
  | module
  | ffi
deriving DecidableEq

structure Task where
  state : DispatchState := .detached
  /-- The ticket of the wait, and whether it is notified. -/
  wait : Option (Nat × Bool) := none
  /-- The blocked operation with its ticket. -/
  blocked : Option (WaitKind × Nat) := none
  /-- How often the task is in the runnable queue and in the blocked list. -/
  runnable : Nat := 0
  listed : Nat := 0
  /-- The workers that hold the lease. -/
  holders : List Nat := []
  /-- The slices that the owner has not merged, and whether they end in a wait. -/
  returned : List Bool := []
  /-- The tickets are numbered; this is the next one. -/
  next : Nat := 0
  /-- The tickets that a notification was delivered to. -/
  delivered : List Nat := []
  /-- The tickets of the waits that ended with a move to the runnable queue. -/
  moved : List Nat := []

namespace Task

variable (task : Task) (ticket : Nat)

/-- Without a result, `enqueue`, `acquire`, `notify` and `resume` return false, and so does
`terminate` for a task that is terminal. A `terminate` of a running or parking task panics in
the source; here it has no result either, and `advance` leaves the task as it was. -/
@[grind] def enqueue : Option Task :=
  if task.state ≠ .detached then none else some { task with state := .queued }

@[grind] def acquire : Option Task :=
  if task.state ≠ .queued then none else some { task with state := .running }

/-- Without a result, `beginWait` and `relinquish` panic. -/
@[grind] def beginWait : Option Task :=
  if task.state ≠ .running then none
  else some { task with
    wait := some (task.next, false), state := .parking, next := task.next + 1 }

@[grind] def relinquish : Option Task :=
  if task.state = .running then some { task with state := .detached }
  else if task.state = .parking then some { task with state := .waiting }
  else none

@[grind] def notify : Option Task :=
  if (∀ flag, task.wait ≠ some (ticket, flag)) ∨ task.state ≠ .parking ∧ task.state ≠ .waiting then
    none
  else some { task with wait := some (ticket, true), delivered := ticket :: task.delivered }

@[grind] def resume : Option Task :=
  if (∀ flag, task.wait ≠ some (ticket, flag)) ∨ task.state ≠ .waiting then none
  else some { task with wait := none, state := .detached }

@[grind] def notified : Bool := task.wait = some (ticket, true) ∧ task.state = .waiting

@[grind] def terminate : Option Task :=
  if task.state = .terminal ∨ task.state = .running ∨ task.state = .parking then none
  else some { task with wait := none, state := .terminal }

/-- `pushRunnable` and `pushRunnableFront`. -/
@[grind] def pushRunnable : Task :=
  match task.enqueue with
  | some queued => { queued with runnable := task.runnable + 1 }
  | none => task

/-- `blockTask`; `done` is set if the operation has completed in the meantime. -/
@[grind] def blockTask (kind : WaitKind) (done : Bool) : Option Task :=
  match task.beginWait with
  | some parked =>
    let parked := { parked with blocked := some (kind, task.next) }
    some (if done then (parked.notify task.next).getD parked else parked)
  | none => none

/-- `resumeBlocked`: an FFI call is looked at when it is notified. -/
@[grind] def resumeBlocked (complete : Bool) : WaitKind → Bool
  | .ffi => task.notified ticket && complete
  | _ => complete

end Task

inductive Action
  | push
  /-- The owner pops the task and gives it to a worker. -/
  | acquire (worker : Nat)
  | block (worker : Nat) (kind : WaitKind) (done : Bool)
  | relinquish (worker : Nat)
  /-- `applyTaskRunResult` for a task that waits; other results push or terminate it. -/
  | merge
  | notify (ticket : Nat)
  /-- The task in the loop of `wakeBlocked`; its operation is complete or not. -/
  | wake (complete : Bool)
  | terminate
deriving DecidableEq

/-- An operation on a task. Without a result the source panics or reports an error, or the
party cannot execute it. -/
def advance : Action → Task → Option Task
  | .push, task => some task.pushRunnable
  | .acquire worker, task =>
    if task.runnable = 0 then none
    else
      match task.acquire with
      | some leased =>
        some { leased with runnable := task.runnable - 1, holders := worker :: task.holders }
      | none => some { task with runnable := task.runnable - 1 }
  | .block worker kind done, task =>
    if worker ∈ task.holders then task.blockTask kind done else none
  | .relinquish worker, task =>
    if worker ∈ task.holders then
      task.relinquish.map fun free => { free with
        holders := task.holders.erase worker
        returned := decide (task.state = .parking) :: task.returned }
    else none
  | .merge, task =>
    match task.returned with
    | [] => none
    | waits :: returned => some { task with
        returned, listed := task.listed + if waits ∧ task.state ≠ .terminal then 1 else 0 }
  | .notify ticket, task => some ((task.notify ticket).getD task)
  | .wake complete, task =>
    if task.returned ≠ [] ∨ task.listed = 0 then none
    else
      match task.blocked with
      | none => none
      | some (kind, ticket) =>
        if task.resumeBlocked ticket complete kind then
          (task.resume ticket).map fun free => Task.pushRunnable { free with
            blocked := none, listed := task.listed - 1, moved := ticket :: task.moved }
        else some task
  | .terminate, task =>
    match task.terminate with
    | some ended => some { ended with runnable := 0, listed := 0, blocked := none }
    | none => some task

/-- What is true of a task between two operations. -/
structure Coherent (task : Task) : Prop where
  lease : task.holders.length =
    if task.state = .running ∨ task.state = .parking then 1 else 0
  wait : task.state = .parking ∨ task.state = .waiting ↔ task.wait ≠ none
  current : ∀ ticket flag, task.wait = some (ticket, flag) → ticket + 1 = task.next ∧
    ticket ∉ task.moved ∧ (ticket ∈ task.delivered → flag = true) ∧
    ∃ kind, task.blocked = some (kind, ticket)
  past : ∀ ticket, ticket ∈ task.moved ∨ ticket ∈ task.delivered → ticket < task.next
  moved : task.moved.Nodup
  listed : task.state = .waiting → 0 < task.listed ∨ true ∈ task.returned

section Kept

variable {task : Task} (hcoherent : Coherent task)
include hcoherent

theorem Coherent.wait_eq_none (hparking : task.state ≠ .parking)
    (hwaiting : task.state ≠ .waiting) : task.wait = none := by
  by_contra hwait
  rcases hcoherent.wait.mpr hwait with hstate | hstate
  · exact hparking hstate
  · exact hwaiting hstate

theorem Coherent.holders_eq (hrunning : task.state ≠ .running)
    (hparking : task.state ≠ .parking) : task.holders = [] := by
  have hlease := hcoherent.lease
  rw [if_neg (by simp [hrunning, hparking])] at hlease
  exact List.length_eq_zero_iff.mp hlease

theorem Coherent.pushRunnable : Coherent task.pushRunnable := by
  unfold Task.pushRunnable Task.enqueue
  by_cases hstate : task.state = .detached
  · have hwait := hcoherent.wait_eq_none (by simp [hstate]) (by simp [hstate])
    have hholders := hcoherent.holders_eq (by simp [hstate]) (by simp [hstate])
    simp only [hstate, ne_eq, not_true_eq_false, if_false]
    exact { hcoherent with
      lease := by simp [hholders]
      wait := by simp [hwait]
      listed := by simp }
  · simp only [ne_eq, hstate, not_false_eq_true, if_true]
    exact hcoherent

theorem Coherent.acquire {leased : Task} (hacquire : task.acquire = some leased)
    (runnable worker : Nat) :
    Coherent { leased with runnable, holders := worker :: task.holders } := by
  unfold Task.acquire at hacquire
  by_cases hstate : task.state = .queued
  · rw [if_neg (by simp [hstate])] at hacquire
    obtain rfl := Option.some.inj hacquire
    have hwait := hcoherent.wait_eq_none (by simp [hstate]) (by simp [hstate])
    have hholders := hcoherent.holders_eq (by simp [hstate]) (by simp [hstate])
    exact { hcoherent with
      lease := by simp [hholders]
      wait := by simp [hwait]
      listed := by simp }
  · rw [if_pos hstate] at hacquire
    cases hacquire

/-- A wait has the next ticket, which is neither among the moves nor among the deliveries. -/
theorem Coherent.beginWait {parked : Task} (hbegin : task.beginWait = some parked)
    (kind : WaitKind) : Coherent { parked with blocked := some (kind, task.next) } := by
  unfold Task.beginWait at hbegin
  by_cases hstate : task.state = .running
  · rw [if_neg (by simp [hstate])] at hbegin
    obtain rfl := Option.some.inj hbegin
    exact { hcoherent with
      lease := by simpa [hstate] using hcoherent.lease
      wait := by simp
      current := by
        intro ticket flag hwait
        cases hwait
        refine ⟨rfl, fun hmoved => ?_, fun hdelivered => ?_, kind, rfl⟩
        · exact absurd (hcoherent.past _ (.inl hmoved)) (Nat.lt_irrefl _)
        · exact absurd (hcoherent.past _ (.inr hdelivered)) (Nat.lt_irrefl _)
      past := fun ticket hpast => Nat.lt_succ_of_lt (hcoherent.past ticket hpast)
      listed := by simp }
  · rw [if_pos hstate] at hbegin
    cases hbegin

/-- A notification only sets the flag of the current wait. -/
theorem Coherent.notify (ticket : Nat) : Coherent ((task.notify ticket).getD task) := by
  unfold Task.notify
  split
  · exact hcoherent
  · next hheard =>
    obtain ⟨flag, hwait⟩ := not_forall_not.mp (not_or.mp hheard).1
    obtain ⟨hnext, hmoved, -, hblocked⟩ := hcoherent.current ticket flag hwait
    refine { hcoherent with wait := ?_, current := ?_, past := ?_ }
    · simpa [hwait] using hcoherent.wait
    · intro other flag hother
      cases hother
      exact ⟨hnext, hmoved, fun _ => rfl, hblocked⟩
    · intro other hother
      rcases hother with hother | hother
      · exact hcoherent.past other (.inl hother)
      · rcases List.mem_cons.mp hother with rfl | hother
        · exact hnext ▸ Nat.lt_succ_self _
        · exact hcoherent.past other (.inr hother)

theorem Coherent.blockTask {kind : WaitKind} {done : Bool} {blocked : Task}
    (hblock : task.blockTask kind done = some blocked) : Coherent blocked := by
  unfold Task.blockTask at hblock
  cases hbegin : task.beginWait with
  | none =>
    rw [hbegin] at hblock
    cases hblock
  | some parked =>
    rw [hbegin] at hblock
    have hparked := hcoherent.beginWait hbegin kind
    obtain rfl := Option.some.inj hblock
    split
    · exact hparked.notify task.next
    · exact hparked

/-- A worker gives its lease back; a task that parks is on its way to the blocked list. -/
theorem Coherent.relinquish {free : Task} {worker : Nat} (hworker : worker ∈ task.holders)
    (hfree : task.relinquish = some free) :
    Coherent { free with
      holders := task.holders.erase worker
      returned := decide (task.state = .parking) :: task.returned } := by
  have hlease := hcoherent.lease
  have herase := List.length_erase_of_mem hworker
  unfold Task.relinquish at hfree
  split at hfree
  · next hstate =>
    obtain rfl := Option.some.inj hfree
    have hwait := hcoherent.wait_eq_none (by simp [hstate]) (by simp [hstate])
    rw [if_pos (.inl hstate)] at hlease
    exact { hcoherent with
      lease := by simp [herase, hlease]
      wait := by simp [hwait]
      listed := by simp }
  · split at hfree
    · next hstate =>
      obtain rfl := Option.some.inj hfree
      rw [if_pos (.inr hstate)] at hlease
      exact { hcoherent with
        lease := by simp [herase, hlease]
        wait := by simpa [hstate] using hcoherent.wait
        listed := by simp [hstate] }
    · cases hfree

theorem Coherent.merge {waits : Bool} {returned : List Bool}
    (hreturned : task.returned = waits :: returned) :
    Coherent { task with
      returned, listed := task.listed + if waits ∧ task.state ≠ .terminal then 1 else 0 } := by
  refine { hcoherent with listed := fun hstate => ?_ }
  have hwaiting : task.state = .waiting := hstate
  dsimp only
  rcases hcoherent.listed hwaiting with hlisted | hmem
  · exact .inl (Nat.add_pos_left hlisted _)
  · rw [hreturned] at hmem
    rcases List.mem_cons.mp hmem with rfl | hmem
    · exact .inl (by simp [hwaiting])
    · exact .inr hmem

/-- The wait is over: its ticket is the last one, and it has not been moved before. -/
theorem Coherent.resume {ticket listed : Nat} {free : Task}
    (hresume : task.resume ticket = some free) :
    Coherent { free with blocked := none, listed, moved := ticket :: task.moved } := by
  unfold Task.resume at hresume
  split at hresume
  · cases hresume
  · next hheard =>
    obtain rfl := Option.some.inj hresume
    obtain ⟨hticket, hstate⟩ := not_or.mp hheard
    obtain ⟨flag, hwait⟩ := not_forall_not.mp hticket
    have hwaiting : task.state = .waiting := by simpa using hstate
    obtain ⟨hnext, hmoved, -, -⟩ := hcoherent.current ticket flag hwait
    have hholders := hcoherent.holders_eq (by simp [hwaiting]) (by simp [hwaiting])
    exact { hcoherent with
      lease := by simp [hholders]
      wait := by simp
      current := by simp
      past := by
        intro other hother
        rcases hother with hother | hother
        · rcases List.mem_cons.mp hother with rfl | hother
          · exact hnext ▸ Nat.lt_succ_self _
          · exact hcoherent.past other (.inl hother)
        · exact hcoherent.past other (.inr hother)
      moved := List.nodup_cons.mpr ⟨hmoved, hcoherent.moved⟩
      listed := by simp }

theorem Coherent.terminate {ended : Task} (hend : task.terminate = some ended) :
    Coherent { ended with runnable := 0, listed := 0, blocked := none } := by
  unfold Task.terminate at hend
  split at hend
  · cases hend
  · next hstate =>
    obtain rfl := Option.some.inj hend
    obtain ⟨-, hrunning, hparking⟩ : task.state ≠ .terminal ∧ task.state ≠ .running ∧
        task.state ≠ .parking := by simpa using hstate
    have hholders := hcoherent.holders_eq hrunning hparking
    exact { hcoherent with
      lease := by simp [hholders]
      wait := by simp
      current := by simp
      listed := by simp }

end Kept

/-- Every operation keeps a task coherent. -/
theorem Coherent.kept {action : Action} {before after : Task} (hbefore : Coherent before)
    (hadvance : advance action before = some after) : Coherent after := by
  cases action with
  | push =>
    obtain rfl := Option.some.inj hadvance
    exact hbefore.pushRunnable
  | acquire worker =>
    rw [advance] at hadvance
    split at hadvance
    · cases hadvance
    · split at hadvance <;> obtain rfl := Option.some.inj hadvance
      · next hacquire => exact hbefore.acquire hacquire _ worker
      · exact { hbefore with }
  | block worker kind done =>
    rw [advance] at hadvance
    split at hadvance
    · exact hbefore.blockTask hadvance
    · cases hadvance
  | relinquish worker =>
    rw [advance] at hadvance
    split at hadvance
    · next hworker =>
      obtain ⟨free, hfree, rfl⟩ := Option.map_eq_some_iff.mp hadvance
      exact hbefore.relinquish hworker hfree
    · cases hadvance
  | merge =>
    rw [advance] at hadvance
    split at hadvance
    · cases hadvance
    · next hreturned =>
      obtain rfl := Option.some.inj hadvance
      exact hbefore.merge hreturned
  | notify ticket =>
    obtain rfl := Option.some.inj hadvance
    exact hbefore.notify ticket
  | wake complete =>
    rw [advance] at hadvance
    split at hadvance
    · cases hadvance
    · split at hadvance
      · cases hadvance
      · split at hadvance
        · obtain ⟨free, hfree, rfl⟩ := Option.map_eq_some_iff.mp hadvance
          exact (hbefore.resume hfree).pushRunnable
        · obtain rfl := Option.some.inj hadvance
          exact hbefore
  | terminate =>
    rw [advance] at hadvance
    split at hadvance <;> obtain rfl := Option.some.inj hadvance
    · next hend => exact hbefore.terminate hend
    · exact hbefore

/-- The tasks of a machine have their locks apart from each other. -/
def step (event : Nat × Action) (machine : Nat → Task) : Option (Nat → Task) :=
  (advance event.2 (machine event.1)).map (Function.update machine event.1)

/-- What the hand-off promises for a task. -/
structure Sound (task : Task) : Prop where
  /-- At most one worker holds the lease. -/
  lease : task.holders.length ≤ 1
  /-- The ticket of an earlier wait neither notifies nor resumes the task. -/
  stale : ∀ ticket, ticket + 1 < task.next →
    task.notify ticket = none ∧ task.resume ticket = none ∧ task.notified ticket = false
  /-- From `beginWait` on, notifications are delivered. -/
  heard : task.state = .parking → ∃ ticket, ticket + 1 = task.next ∧ task.notify ticket ≠ none
  /-- A notification that was delivered is seen when the owner scans the blocked list. -/
  seen : ∀ ticket ∈ task.delivered, ticket + 1 = task.next → task.state = .waiting →
    task.notified ticket = true ∧ (task.returned = [] → 0 < task.listed ∧
      ∃ kind, task.blocked = some (kind, ticket))
  /-- Every wait ends with at most one move to the runnable queue, while no worker runs or
  parks the task. -/
  once : task.moved.Nodup
  apart : ∀ complete after, advance (.wake complete) task = some after →
    after.moved ≠ task.moved → task.holders = []

theorem Coherent.sound {task : Task} (hc : Coherent task) : Sound task := by
  obtain ⟨hl, hwa, hcu, hpa, ho, hli⟩ := hc
  constructor
  · grind
  · grind
  · intro hp
    obtain ⟨⟨ticket, flag⟩, hsome⟩ := Option.ne_none_iff_exists'.mp (hwa.mp (.inl hp))
    exact ⟨ticket, (hcu ticket flag hsome).1, by grind⟩
  · intro ticket hd ht hw
    obtain ⟨⟨cur, flag⟩, hsome⟩ := Option.ne_none_iff_exists'.mp (hwa.mp (.inr hw))
    grind
  · exact ho
  · intro complete after ha hm
    apply List.length_eq_zero_iff.mp
    grind [advance]

/-- A call is notified before its worker has relinquished the task; another worker goes on. -/
def earlyLog : List (Nat × Action) :=
  [(7, .push), (7, .acquire 1), (7, .block 1 .ffi false), (7, .notify 0), (7, .relinquish 1),
    (7, .merge), (7, .wake true), (7, .acquire 2), (7, .notify 0)]

/-- The places that a task has: the runnable queue, a worker, and the blocked list or a slice
that puts it there. -/
structure Placed (task : Task) : Prop where
  runnable : task.runnable = if task.state = .queued then 1 else 0
  leased : task.holders.length = if task.state = .running ∨ task.state = .parking then 1 else 0
  blocked : task.listed + (if task.state = .terminal then 0 else task.returned.count true) =
    if task.state = .waiting then 1 else 0

section PlacedKept

variable {task : Task} (hplaced : Placed task)
include hplaced

theorem Placed.pushRunnable : Placed task.pushRunnable := by
  unfold Task.pushRunnable Task.enqueue
  by_cases hstate : task.state = .detached
  · simp only [hstate, ne_eq, not_true_eq_false, if_false]
    exact {
      runnable := by simp [hplaced.runnable, hstate]
      leased := by simpa [hstate] using hplaced.leased
      blocked := by simpa [hstate] using hplaced.blocked }
  · simp only [ne_eq, hstate, not_false_eq_true, if_true]
    exact hplaced

theorem Placed.notify (ticket : Nat) : Placed ((task.notify ticket).getD task) := by
  unfold Task.notify
  split
  · exact hplaced
  · exact { hplaced with }

theorem Placed.blockTask {kind : WaitKind} {done : Bool} {blocked : Task}
    (hblock : task.blockTask kind done = some blocked) : Placed blocked := by
  unfold Task.blockTask Task.beginWait at hblock
  by_cases hstate : task.state = .running
  · simp only [hstate, ne_eq, not_true_eq_false, if_false, Option.some.injEq] at hblock
    have hparked : Placed { task with
        wait := some (task.next, false), state := .parking, next := task.next + 1
        blocked := some (kind, task.next) } := {
      runnable := by simp [hplaced.runnable, hstate]
      leased := by simpa [hstate] using hplaced.leased
      blocked := by simpa [hstate] using hplaced.blocked }
    rw [← hblock]
    split
    · exact hparked.notify task.next
    · exact hparked
  · simp [hstate] at hblock

/-- The lease is given back, and a task that parks is about to be listed. -/
theorem Placed.relinquish {free : Task} {worker : Nat} (hworker : worker ∈ task.holders)
    (hfree : task.relinquish = some free) :
    Placed { free with
      holders := task.holders.erase worker
      returned := decide (task.state = .parking) :: task.returned } := by
  have hleased := hplaced.leased
  have hblocked := hplaced.blocked
  have herase := List.length_erase_of_mem hworker
  unfold Task.relinquish at hfree
  split at hfree
  · next hstate =>
    obtain rfl := Option.some.inj hfree
    rw [if_pos (.inl hstate)] at hleased
    exact {
      runnable := by simp [hplaced.runnable, hstate]
      leased := by simp [herase, hleased]
      blocked := by simpa [hstate] using hblocked }
  · split at hfree
    · next hstate =>
      obtain rfl := Option.some.inj hfree
      rw [if_pos (.inr hstate)] at hleased
      obtain ⟨hlisted, hcount⟩ : task.listed = 0 ∧ task.returned.count true = 0 := by
        simpa [hstate] using hblocked
      exact {
        runnable := by simp [hplaced.runnable, hstate]
        leased := by simp [herase, hleased]
        blocked := by simp [hstate, hlisted, hcount] }
    · cases hfree

/-- The blocked list gets what a slice has put aside. -/
theorem Placed.merge {waits : Bool} {returned : List Bool}
    (hreturned : task.returned = waits :: returned) :
    Placed { task with
      returned, listed := task.listed + if waits ∧ task.state ≠ .terminal then 1 else 0 } := by
  have hblocked := hplaced.blocked
  rw [hreturned] at hblocked
  refine { hplaced with blocked := ?_ }
  by_cases hstate : task.state = .terminal
  · simpa [hstate] using hblocked
  · cases waits with
    | false => simpa [hstate] using hblocked
    | true =>
      rw [← hblocked]
      simp only [hstate, List.count_cons_self, ne_eq, not_false_eq_true, and_self, if_true, if_false]
      omega

/-- A waiting task that is on the blocked list and in no slice is there once. -/
theorem Placed.resume {ticket : Nat} {free : Task} (hreturned : task.returned = [])
    (hresume : task.resume ticket = some free) :
    Placed { free with
      blocked := none, listed := task.listed - 1, moved := ticket :: task.moved } := by
  have hblocked := hplaced.blocked
  unfold Task.resume at hresume
  split at hresume
  · cases hresume
  · next hheard =>
    obtain rfl := Option.some.inj hresume
    have hstate : task.state = .waiting := by simpa using (not_or.mp hheard).2
    simp only [hstate, hreturned] at hblocked
    exact {
      runnable := by simp [hplaced.runnable, hstate]
      leased := by simpa [hstate] using hplaced.leased
      blocked := by simpa [hreturned] using Nat.sub_eq_zero_of_le (by simpa using hblocked.le) }

theorem Placed.terminate {ended : Task} (hend : task.terminate = some ended) :
    Placed { ended with runnable := 0, listed := 0, blocked := none } := by
  unfold Task.terminate at hend
  split at hend
  · cases hend
  · next hstate =>
    obtain rfl := Option.some.inj hend
    obtain ⟨-, hrunning, hparking⟩ : task.state ≠ .terminal ∧ task.state ≠ .running ∧
        task.state ≠ .parking := by simpa using hstate
    exact {
      runnable := by simp
      leased := by simpa [hrunning, hparking] using hplaced.leased
      blocked := by simp }

end PlacedKept

/-- Every operation keeps a task at its places. -/
theorem Placed.kept {action : Action} {before after : Task} (hbefore : Placed before)
    (hadvance : advance action before = some after) : Placed after := by
  cases action with
  | push =>
    obtain rfl := Option.some.inj hadvance
    exact hbefore.pushRunnable
  | acquire worker =>
    rw [advance] at hadvance
    split at hadvance
    · cases hadvance
    · next hready =>
      -- what is in the queue is queued, so that the worker gets it
      have hstate : before.state = .queued := by
        by_contra hother
        exact hready (by rw [hbefore.runnable, if_neg hother])
      simp only [Task.acquire, hstate, ne_eq, not_true_eq_false, if_false,
        Option.some.injEq] at hadvance
      subst hadvance
      exact {
        runnable := by simp [hbefore.runnable, hstate]
        leased := by simpa [hstate] using hbefore.leased
        blocked := by simpa [hstate] using hbefore.blocked }
  | block worker kind done =>
    rw [advance] at hadvance
    split at hadvance
    · exact hbefore.blockTask hadvance
    · cases hadvance
  | relinquish worker =>
    rw [advance] at hadvance
    split at hadvance
    · next hworker =>
      obtain ⟨free, hfree, rfl⟩ := Option.map_eq_some_iff.mp hadvance
      exact hbefore.relinquish hworker hfree
    · cases hadvance
  | merge =>
    rw [advance] at hadvance
    split at hadvance
    · cases hadvance
    · next hreturned =>
      obtain rfl := Option.some.inj hadvance
      exact hbefore.merge hreturned
  | notify ticket =>
    obtain rfl := Option.some.inj hadvance
    exact hbefore.notify ticket
  | wake complete =>
    rw [advance] at hadvance
    split at hadvance
    · cases hadvance
    · next hready =>
      split at hadvance
      · cases hadvance
      · split at hadvance
        · obtain ⟨free, hfree, rfl⟩ := Option.map_eq_some_iff.mp hadvance
          exact (hbefore.resume (not_not.mp (not_or.mp hready).1) hfree).pushRunnable
        · obtain rfl := Option.some.inj hadvance
          exact hbefore
  | terminate =>
    rw [advance] at hadvance
    split at hadvance <;> obtain rfl := Option.some.inj hadvance
    · next hend => exact hbefore.terminate hend
    · exact hbefore

/-- No interleaving loses or doubles a task. -/
theorem handoff_placed {log : List (Nat × Action)} {machine : Nat → Task}
    (hpasses : Passes step log (fun _ => {}) machine) : ∀ id, Placed (machine id) := by
  refine @passes_induction _ _ step _ log (fun machine => ∀ id, Placed (machine id))
    (fun _ => ⟨rfl, rfl, rfl⟩) ?_ machine hpasses
  rintro before event after ⟨-, -, -, -, hstep⟩ hbefore id
  obtain ⟨task, hadvance, rfl⟩ := Option.map_eq_some_iff.mp hstep
  by_cases hid : id = event.1
  · rw [hid, Function.update_self]
    exact (hbefore event.1).kept hadvance
  · rw [Function.update_of_ne hid]
    exact hbefore id

theorem earlyLog_placed : ∃ machine, replay step earlyLog (fun _ => {}) = some machine ∧
    Placed (machine 7) :=
  ⟨_, rfl, handoff_placed ⟨earlyLog, [], rfl, rfl⟩ 7⟩

end MiniGo.Runtime.Handoff
