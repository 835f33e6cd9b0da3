/-
The life of an activation.

An activation runs, then it completes by a return or by a panic, and while it completes
its deferred calls are started, the last registered first. A deferred call may replace
the panic of its owner or turn it into a return. The activation leaves when none of
its deferred calls is left, in the way it is then completing.

This is what the log of a task has to look like for every activation in it; nothing in
this module depends on how the stack of frames works.
-/
import MiniGo.Lib.Replay
import MiniGo.Runtime.Frames

namespace MiniGo.Runtime.Frames

open Replay

variable {V : Type}

inductive Phase (V : Type) where
  | running
  | returning
  | panicking (panic : MachinePanic V)
  | ended
deriving Repr, DecidableEq

/-- What is left of an activation, with the deferred calls that are still to run. -/
structure Life (V : Type) where
  phase : Phase V
  pending : List Nat
deriving Repr, DecidableEq

namespace Event

/-- The activation that an event is about. -/
def activation : Event V → ActivationId
  | .registered owner _ _ => owner
  | .started owner _ => owner
  | .raised activation _ => activation
  | .returning activation => activation
  | .recovered activation _ => activation
  | .replaced activation _ => activation
  | .propagated activation _ => activation
  | .restored activation => activation
  | .left activation _ => activation

/-- The call that an event registers with an activation. -/
def registeredWith (activation : ActivationId) : Event V → Option Nat
  | .registered owner call _ => if owner = activation then some call else none
  | _ => none

/-- The call of an activation that an event starts. -/
def startedFrom (activation : ActivationId) : Event V → Option Nat
  | .started owner call => if owner = activation then some call else none
  | _ => none

/-- A deferred call has changed how its owner completes. -/
def changes (activation : ActivationId) : Event V → Prop
  | .replaced owner _ => owner = activation
  | .restored owner => owner = activation
  | _ => False

end Event

namespace Life

/-- The start of every activation. -/
def fresh : Life V := { phase := .running, pending := [] }

def done : Life V := { phase := .ended, pending := [] }

/-- What an event makes of the activation it is about, if it may happen. -/
def apply : Event V → Life V → Option (Life V)
  | .registered _ call _, life =>
    match life.phase with
    | .ended => none
    | _ => some { life with pending := call :: life.pending }
  | .started _ call, life =>
    match life.phase, life.pending with
    | .returning, first :: rest | .panicking _, first :: rest =>
      if first = call then some { life with pending := rest } else none
    | _, _ => none
  | .raised _ panic, life | .propagated _ panic, life =>
    match life.phase with
    | .running => some { life with phase := .panicking panic }
    | _ => none
  | .returning _, life =>
    match life.phase with
    | .running => some { life with phase := .returning }
    | _ => none
  | .recovered _ _, life =>
    match life.phase with
    | .running => some life
    | _ => none
  | .replaced _ panic, life =>
    match life.phase with
    | .returning | .panicking _ => some { life with phase := .panicking panic }
    | _ => none
  | .restored _, life =>
    match life.phase with
    | .panicking _ => some { life with phase := .returning }
    | _ => none
  | .left _ ending, life =>
    match ending, life.phase, life.pending with
    | .returned _, .returning, [] => some done
    | .panicked panic, .panicking current, [] =>
      if panic.id = current.id then some done else none
    | .tailCalled, .running, [] => some done
    | _, _, _ => none

/-- The life of one activation under the events of a log. -/
def step (activation : ActivationId) (event : Event V) (life : Life V) : Option (Life V) :=
  if event.activation = activation then apply event life else some life

variable {activation : ActivationId} {log : List (Event V)}

theorem step_other {event : Event V} (ho : event.activation ≠ activation) (life : Life V) :
    step activation event life = some life := by
  simp [step, ho]

/-- Registering pushes a call, starting pops it, and nothing else touches the calls. -/
theorem stackDiscipline (activation : ActivationId) :
    StackDiscipline (step (V := V) activation) Life.pending
      (Event.registeredWith activation) (Event.startedFrom activation) where
  push := by
    intro event life next call hs hp
    cases event with
    | registered owner other src =>
      obtain ⟨phase, pending⟩ := life
      simp only [Event.registeredWith] at hp
      split at hp
      · next ho =>
        cases hp
        simp only [step, Event.activation, ho, if_true] at hs
        cases phase <;> simp [apply] at hs <;> simp [Event.startedFrom, ← hs]
      · cases hp
    | _ => cases hp
  pop := by
    intro event life next call hs hpo
    cases event with
    | started owner other =>
      obtain ⟨phase, pending⟩ := life
      simp only [Event.startedFrom] at hpo
      split at hpo
      · next ho =>
        cases hpo
        simp only [step, Event.activation, ho, if_true] at hs
        cases phase <;> cases pending <;> simp [apply] at hs <;>
          simp [Event.registeredWith, ← hs.2, hs.1]
      · cases hpo
    | _ => cases hpo
  keep := by
    intro event life next hs hp hpo
    by_cases ha : event.activation = activation
    · rw [step, if_pos ha] at hs
      obtain ⟨phase, pending⟩ := life
      cases event with
      | registered owner call src =>
        simp only [Event.registeredWith] at hp
        exact absurd hp (by simp [show owner = activation from ha])
      | started owner call =>
        simp only [Event.startedFrom] at hpo
        exact absurd hpo (by simp [show owner = activation from ha])
      | left owner ending =>
        cases ending <;> cases phase <;> cases pending <;> simp [apply, done] at hs <;>
          simp [← hs]
      | _ => cases phase <;> simp [apply] at hs <;> simp [← hs]
    · rw [step_other ha] at hs
      cases hs
      rfl

/-- Once an activation has ended nothing happens to it. -/
theorem not_about_of_over {last : Life V} (hre : replay (step activation) log done = some last) :
    ∀ event ∈ log, event.activation ≠ activation := by
  induction log with
  | nil => simp
  | cons event rest ih =>
    obtain ⟨next, hs, hr⟩ := replay_cons_eq_some.mp hre
    have ho : event.activation ≠ activation := by
      intro ha
      rw [step, if_pos ha] at hs
      cases event with
      | left owner ending => cases ending <;> simp [apply, done] at hs
      | _ => simp [apply, done] at hs
    rw [step_other ho] at hs
    cases hs
    intro other hmem
    rcases List.mem_cons.mp hmem with rfl | hmem
    · exact ho
    · exact ih hr other hmem

/-- The way an activation completes. -/
def completes : Phase V → Ending V → Prop
  | .returning, .returned _ => True
  | .panicking panic, .panicked other => other.id = panic.id
  | _, _ => False

/-- A completing activation ends in the way it is completing, unless one of its
deferred calls changes that. -/
theorem ending_of_completing {life last : Life V} {ending : Ending V}
    (hre : replay (step activation) log life = some last)
    (hru : life.phase ≠ .running) (he : life.phase ≠ .ended)
    (hke : ∀ event ∈ log, ¬ event.changes activation)
    (hl : .left activation ending ∈ log) : completes life.phase ending := by
  induction log generalizing life with
  | nil => cases hl
  | cons event rest ih =>
    obtain ⟨next, hs, hr⟩ := replay_cons_eq_some.mp hre
    have hk := fun other ho => hke other (List.mem_cons_of_mem event ho)
    by_cases ha : event.activation = activation
    · rw [step, if_pos ha] at hs
      obtain ⟨phase, pending⟩ := life
      cases event with
      | left owner other =>
        have hov : next = done ∧ completes phase other := by
          cases other <;> cases phase <;> cases pending <;>
            simp_all [apply, completes]
        obtain ⟨rfl, hc⟩ := hov
        rcases List.mem_cons.mp hl with hf | hla
        · cases hf
          exact hc
        · exact absurd rfl (not_about_of_over hr _ hla)
      | registered owner call src =>
        have hp : next.phase = phase := by
          cases phase <;> simp [apply] at hs <;> simp [← hs]
        have hla : .left activation ending ∈ rest := by simpa using hl
        subst hp
        have hc := ih hr hru he hk hla
        exact hc
      | started owner call =>
        have hp : next.phase = phase := by
          cases phase <;> cases pending <;> simp [apply] at hs <;> simp [← hs.2]
        have hla : .left activation ending ∈ rest := by simpa using hl
        subst hp
        have hc := ih hr hru he hk hla
        exact hc
      | replaced owner panic => exact absurd ha (hke _ List.mem_cons_self)
      | restored owner => exact absurd ha (hke _ List.mem_cons_self)
      | _ => cases phase <;> simp_all [apply]
    · rw [step_other ha] at hs
      cases hs
      refine ih hr hru he hk ?_
      rcases List.mem_cons.mp hl with hf | hla
      · exact absurd (congrArg Event.activation hf).symm ha
      · exact hla

end Life

theorem Life.pending_of_left {activation : ActivationId} {log : List (Event V)}
    {life last : Life V} {ending : Ending V}
    (hr : replay (step activation) log life = some last)
    (hl : .left activation ending ∈ log) : last = done := by
  obtain ⟨pre, after, rfl⟩ := List.append_of_mem hl
  obtain ⟨mid, -, hr⟩ := replay_append_eq_some.mp hr
  obtain ⟨next, hst, ha⟩ := replay_cons_eq_some.mp hr
  have ho : next = done := by
    obtain ⟨phase, pending⟩ := mid
    simp only [step, Event.activation, if_true] at hst
    cases ending <;> cases phase <;> cases pending <;> simp_all [apply]
  subst ho
  have hs : replay (step activation) after done = some done :=
    replay_unchanged fun event he =>
      step_other (not_about_of_over ha event he) done
  exact Option.some.inj (ha.symm.trans hs)

end MiniGo.Runtime.Frames
