/-
The leases of a registration (`rpc/router/registration.go` and `Router.Bind`).

One registration is modelled, with every binding that `Bind` attempts on it. A binding
is one attempt: it is pending from `reserve` to `release`, or becomes a lease with
`commit`. The threads of `Bind`, of the routes and of those who drain, close or shut
down take their steps in any order; what the provider answers and when a context is
cancelled is part of the action.
-/
import MiniGo.Lib.Replay

namespace MiniGo.Rpc.Leases

open Replay Option Finset

inductive RegistrationState
  | active | draining | closed
deriving DecidableEq

/-- Where a binding is. -/
inductive Stage
  | unused
  /-- `BindRPC` is running. -/
  | reserved
  /-- `BindRPC` has returned a lease. -/
  | obtained
  /-- `Bind` is about to close the lease that it does not commit. -/
  | refused
  /-- There is no lease, or it is closed; `release` is next. -/
  | spent
  | live
  /-- The provider's `Close` is running. -/
  | closing
  | gone
deriving DecidableEq

namespace Stage

@[grind] def pending : Stage → Bool
  | .reserved | .obtained | .refused | .spent => true
  | _ => false

@[grind] def leased : Stage → Bool
  | .live | .closing => true
  | _ => false

/-- The provider's lease has been closed, if there was one. -/
@[grind] def past : Stage → Bool
  | .spent | .closing | .gone => true
  | _ => false

/-- `BindRPC` has not returned. -/
@[grind] def early : Stage → Bool
  | .unused | .reserved => true
  | _ => false

end Stage

structure Binding where
  stage : Stage := .unused
  /-- The provider returned a lease. -/
  obtained : Bool := false
  /-- It did so after draining began. -/
  late : Bool := false
  /-- The lease was handed out in a route set. -/
  handed : Bool := false
  /-- `Bind` has returned an error. -/
  failed : Bool := false
  /-- How often the provider's lease was closed. -/
  closes : Nat := 0

structure Registration where
  maxLeases : Int
  /-- `RegisterOwned`. -/
  owned : Bool
  state : RegistrationState := .active
  healthy : Bool := true
  pending : Finset Nat := ∅
  leases : Finset Nat := ∅
  ownedClose : Bool := owned
  ownedCloseRunning : Bool := false
  closed : Bool := false
  bindings : Nat → Binding := fun _ => {}
  /-- How often the owned provider's close was started and has returned. -/
  started : Nat := 0
  finished : Nat := 0

namespace Registration

@[grind] def set (r : Registration) (id : Nat) (binding : Binding) : Registration :=
  { r with bindings := fun other => if other = id then binding else r.bindings other }

@[grind] def finishIdleLocked (r : Registration) : Registration :=
  if r.state ≠ .closed ∨ r.pending ≠ ∅ ∨ r.leases ≠ ∅ ∨ r.ownedCloseRunning = true then r
  else if r.ownedClose then
    { r with ownedClose := false, ownedCloseRunning := true, started := r.started + 1 }
  else { r with closed := true }

end Registration

inductive Action
  | reserve (id : Nat) (labelsMatch : Bool)
  /-- `BindRPC` returns, with or without a lease and an error. -/
  | bindRPC (id : Nat) (lease failed : Bool)
  /-- The context is done after `BindRPC`. -/
  | cancelled (id : Nat)
  | commit (id : Nat)
  | closeRefused (id : Nat)
  | release (id : Nat)
  | attach (id : Nat)
  /-- The first `Close` of a lease, by `rollback`, a route set or a forced close. -/
  | close (id : Nat)
  /-- The provider's `Close` has returned. -/
  | closeReturned (id : Nat)
  /-- `Bind` returns an error, when `release`, `rollback` or `Abort` has returned; the last
  two close the lease and wait for a `Close` that is under way. -/
  | bindFailed (id : Nat)
  | setHealthy (healthy : Bool)
  | drain
  | beginClose
  | ownedCloseReturned

/-- An action; without a result it is not enabled. -/
@[grind] def advance : Action → Registration → Option Registration
  | .reserve id labelsMatch, r =>
    if (r.bindings id).stage = .unused ∧ r.state = .active ∧ r.healthy = true ∧
        labelsMatch = true ∧ ¬ (0 < r.maxLeases ∧ r.maxLeases ≤ r.pending.card + r.leases.card) then
      some { r.set id { r.bindings id with stage := .reserved } with
        pending := insert id r.pending }
    else none
  | .bindRPC id lease failed, r =>
    if (r.bindings id).stage = .reserved then
      some (r.set id { r.bindings id with
        stage := if lease then if failed then .refused else .obtained else .spent
        obtained := lease, late := decide (r.state ≠ .active) })
    else none
  | .cancelled id, r =>
    if (r.bindings id).stage = .obtained then
      some (r.set id { r.bindings id with stage := .refused })
    else none
  | .commit id, r =>
    if (r.bindings id).stage = .obtained then
      if r.state = .active then
        some { r.set id { r.bindings id with stage := .live } with
          pending := r.pending.erase id, leases := insert id r.leases }
      else some (r.set id { r.bindings id with stage := .refused })
    else none
  | .closeRefused id, r =>
    if (r.bindings id).stage = .refused then
      some (r.set id { r.bindings id with stage := .spent, closes := (r.bindings id).closes + 1 })
    else none
  | .release id, r =>
    if (r.bindings id).stage = .spent then
      some (Registration.finishIdleLocked
        { r.set id { r.bindings id with stage := .gone } with pending := r.pending.erase id })
    else none
  | .attach id, r =>
    if (r.bindings id).stage = .live ∧ r.state = .active then
      some (r.set id { r.bindings id with handed := true })
    else none
  | .close id, r =>
    if (r.bindings id).stage = .live then
      some (r.set id { r.bindings id with
        stage := .closing, closes := (r.bindings id).closes + 1 })
    else none
  | .closeReturned id, r =>
    if (r.bindings id).stage = .closing then
      some (Registration.finishIdleLocked
        { r.set id { r.bindings id with stage := .gone } with leases := r.leases.erase id })
    else none
  | .bindFailed id, r =>
    if (r.bindings id).stage = .gone then
      some (r.set id { r.bindings id with failed := true })
    else none
  | .setHealthy healthy, r =>
    some (if r.state = .closed then r else { r with healthy })
  | .drain, r =>
    some (Registration.finishIdleLocked
      { r with state := if r.state = .active then .draining else r.state })
  | .beginClose, r => some (Registration.finishIdleLocked { r with state := .closed })
  | .ownedCloseReturned, r =>
    if r.ownedCloseRunning then
      some { r with ownedCloseRunning := false, finished := r.finished + 1, closed := true }
    else none

/-- What holds of each binding: its lease was closed once if it is past, and a lease that
came late is not committed. -/
@[grind] def Binding.Fits (state : RegistrationState) (b : Binding) : Prop :=
  b.closes = (if b.stage.past = true ∧ b.obtained = true then 1 else 0) ∧
  (b.stage.early = true → b.obtained = false ∧ b.late = false ∧ b.handed = false) ∧
  (b.stage.early = false → b.stage.past = false → b.obtained = true) ∧
  (b.late = true → state ≠ .active ∧ b.stage.leased = false ∧ b.handed = false) ∧
  (b.failed = true → b.stage = .gone)

/-- What every step keeps. -/
structure Kept (r : Registration) : Prop where
  bindings : ∀ id, (r.bindings id).Fits r.state
  pending : ∀ id, id ∈ r.pending ↔ (r.bindings id).stage.pending = true
  leases : ∀ id, id ∈ r.leases ↔ (r.bindings id).stage.leased = true
  room : 0 < r.maxLeases → (r.pending.card + r.leases.card : Int) ≤ r.maxLeases
  owned : r.started + r.ownedClose.toNat = r.owned.toNat
  running : r.finished + r.ownedCloseRunning.toNat = r.started
  idle : r.started ≠ 0 ∨ r.closed = true → r.state = .closed ∧ r.pending = ∅ ∧ r.leases = ∅
  closed : r.closed = true → r.ownedClose = false ∧ r.ownedCloseRunning = false

/-- A closed registration without bindings closes its provider or is done. -/
@[grind] def Settled (r : Registration) : Prop :=
  r.state = .closed → r.pending = ∅ → r.leases = ∅ → r.ownedCloseRunning = true ∨ r.closed = true

variable {r next : Registration} {id : Nat} {binding : Binding}

theorem Kept.finishIdleLocked (hk : Kept r) :
    Kept r.finishIdleLocked ∧ Settled r.finishIdleLocked := by
  have howned := hk.owned
  have hrunning := hk.running
  have hidle := hk.idle
  have hc := hk.closed
  unfold Registration.finishIdleLocked
  split_ifs with hb hcl
  · exact ⟨hk, by grind -linarith⟩
  · refine ⟨{ hk with owned := ?_, running := ?_, idle := ?_, closed := ?_ }, ?_⟩ <;>
      grind -linarith
  · refine ⟨{ hk with idle := ?_, closed := ?_ }, ?_⟩ <;> grind -linarith

/-- A binding gets on and takes its place in the two maps. -/
theorem Kept.place (hk : Kept r) (hf : b.Fits r.state) {pending leases : Finset Nat}
    (hpe : ∀ o, o ∈ pending ↔ if o = id then b.stage.pending = true else o ∈ r.pending)
    (hle : ∀ o, o ∈ leases ↔ if o = id then b.stage.leased = true else o ∈ r.leases)
    (hr : 0 < r.maxLeases → (pending.card + leases.card : Int) ≤ r.maxLeases)
    (he : r.pending = ∅ → r.leases = ∅ → r.state = .closed → pending = ∅ ∧ leases = ∅) :
    Kept { r.set id b with pending, leases } := by
  refine
    { hk with
      bindings := fun o => ?_
      pending := fun o => (hpe o).trans ?_
      leases := fun o => (hle o).trans ?_
      room := hr
      idle := fun h => ?_ }
  · have hother := hk.bindings o
    grind -linarith
  · have hother := hk.pending o
    grind -linarith
  · have hother := hk.leases o
    grind -linarith
  · obtain ⟨hs, hp, hl⟩ := hk.idle h
    exact ⟨hs, he hp hl hs⟩

/-- A binding gets on without leaving the map that it is in. -/
theorem Kept.set (hk : Kept r) (hf : b.Fits r.state)
    (hpe : b.stage.pending = (r.bindings id).stage.pending)
    (hle : b.stage.leased = (r.bindings id).stage.leased) : Kept (r.set id b) := by
  have hi := hk.pending id
  have hin := hk.leases id
  exact hk.place hf (by grind -linarith) (by grind -linarith) hk.room fun hp hl _ => ⟨hp, hl⟩

/-- A binding that is over gives its place back. -/
theorem Kept.gone (hk : Kept r) (hstage : (r.bindings id).stage.past = true) :
    Kept { r.set id { r.bindings id with stage := .gone } with
      pending := r.pending.erase id, leases := r.leases.erase id } := by
  have hfi := hk.bindings id
  have hr := hk.room
  have hle := card_le_card (erase_subset id r.pending)
  have hf := card_le_card (erase_subset id r.leases)
  refine hk.place (by grind -linarith) (by grind -linarith) (by grind -linarith) (by omega)
    fun hp hl _ => ?_
  rw [hp, hl]
  exact ⟨rfl, rfl⟩

/-- The state of the registration only moves on. -/
theorem Kept.leave (hk : Kept r) {state : RegistrationState} (hstate : state ≠ .active)
    (hc : r.state = .closed → state = .closed) : Kept { r with state } := by
  have hb := hk.bindings
  have hidle := hk.idle
  refine { hk with bindings := ?_, idle := ?_ } <;> grind -linarith

theorem Kept.advance (hk : Kept r) (hs : Settled r) {a : Action}
    (ha : Leases.advance a r = some next) : Kept next ∧ Settled next := by
  have hr := hk.room
  cases a with
  | reserve id labelsMatch =>
    obtain ⟨⟨hse, hst, -, -, hfr⟩, ⟨⟩⟩ := ite_none_right_eq_some.mp ha
    have hf := hk.bindings id
    have hp := hk.pending id
    have hca : (insert id r.pending).card = r.pending.card + 1 :=
      card_insert_of_notMem (by grind -linarith)
    have hl := hk.leases id
    refine ⟨hk.place ?_ ?_ ?_ ?_ ?_, ?_⟩ <;> grind -linarith
  | bindRPC id | cancelled id | closeRefused id | close id | bindFailed id =>
    obtain ⟨hse, ⟨⟩⟩ := ite_none_right_eq_some.mp ha
    have hf := hk.bindings id
    exact ⟨hk.set (by grind -linarith) (by grind -linarith) (by grind -linarith), hs⟩
  | attach id =>
    obtain ⟨⟨hse, hst⟩, ⟨⟩⟩ := ite_none_right_eq_some.mp ha
    have hf := hk.bindings id
    exact ⟨hk.set (by grind -linarith) (by grind -linarith) (by grind -linarith), hs⟩
  | commit id =>
    obtain ⟨hse, ha⟩ := ite_none_right_eq_some.mp ha
    have hf := hk.bindings id
    split_ifs at ha with hst <;> obtain rfl := some.inj ha
    · have hm : id ∈ r.pending := by grind -linarith [hk.pending id]
      have hp := card_erase_add_one hm
      have hl := card_insert_le id r.leases
      refine ⟨hk.place ?_ ?_ ?_ (by omega) ?_, ?_⟩ <;> grind -linarith
    · exact ⟨hk.set (by grind -linarith) (by grind -linarith) (by grind -linarith), hs⟩
  | release id =>
    obtain ⟨hse, ⟨⟩⟩ := ite_none_right_eq_some.mp ha
    have hg := hk.gone (by grind -linarith : (r.bindings id).stage.past = true)
    rw [erase_eq_of_notMem (by grind -linarith [hk.leases id] : id ∉ r.leases)] at hg
    exact hg.finishIdleLocked
  | closeReturned id =>
    obtain ⟨hse, ⟨⟩⟩ := ite_none_right_eq_some.mp ha
    have hg := hk.gone (by grind -linarith : (r.bindings id).stage.past = true)
    rw [erase_eq_of_notMem (by grind -linarith [hk.pending id] : id ∉ r.pending)] at hg
    exact hg.finishIdleLocked
  | setHealthy healthy =>
    obtain rfl := some.inj ha
    split_ifs
    · exact ⟨hk, hs⟩
    · exact ⟨{ hk with }, hs⟩
  | drain | beginClose =>
    obtain rfl := some.inj ha
    exact (hk.leave (by grind -linarith) (by grind -linarith)).finishIdleLocked
  | ownedCloseReturned =>
    obtain ⟨hrunning, ⟨⟩⟩ := ite_none_right_eq_some.mp ha
    have howned := hk.owned
    have hb := Bool.toNat_le r.owned
    have hc := hk.running
    have hidle := hk.idle
    refine ⟨{ hk with running := ?_, idle := ?_, closed := ?_ }, ?_⟩ <;> grind -linarith

/-- Without bindings and leases, every lease that was obtained is closed. -/
theorem Kept.closes_of_idle (hk : Kept r) (hp : r.pending = ∅) (hl : r.leases = ∅)
    (ho : (r.bindings id).obtained = true) : (r.bindings id).closes = 1 := by
  have hf := hk.bindings id
  have hi := hk.pending id
  have hin := hk.leases id
  rw [hp] at hi
  rw [hl] at hin
  cases hstage : (r.bindings id).stage <;> grind -linarith

/-- What a registration promises. -/
structure Sound (r : Registration) : Prop where
  /-- No lease of the provider is closed twice; it has been closed when its binding is over,
  when `Bind` has returned an error and when the registration is closed. -/
  once : ∀ id, (r.bindings id).closes ≤ 1 ∧ ((r.bindings id).obtained = true →
    (r.bindings id).stage = .gone ∨ (r.bindings id).failed = true ∨ r.closed = true →
      (r.bindings id).closes = 1)
  /-- The limit counts bindings and leases. -/
  room : 0 < r.maxLeases → (r.pending.card + r.leases.card : Int) ≤ r.maxLeases
  /-- A lease that came after draining began is not handed out. -/
  late : ∀ id, (r.bindings id).late = true → (r.bindings id).handed = false ∧ id ∉ r.leases
  /-- The owned provider is closed once, when every lease is closed. -/
  owned : r.started ≤ 1 ∧ (r.started = 1 → ∀ id, (r.bindings id).obtained = true →
    (r.bindings id).closes = 1)
  /-- It has been closed when the registration is, and is being closed when nothing is left. -/
  closed : (r.closed = true → r.finished = r.owned.toNat) ∧ Settled r

/-- A registration as `register` creates it. -/
def register (maxLeases : Int) (owned : Bool) : Registration := { maxLeases, owned }

/-- One place: a binding is refused because the registration drains, and the owned provider
is closed after it. -/
def drainingLog : List Action :=
  [.reserve 0 true, .drain, .bindRPC 0 true false, .commit 0, .beginClose, .closeRefused 0,
    .release 0, .bindFailed 0, .ownedCloseReturned]

end MiniGo.Rpc.Leases
