/-
A store of objects behind tickets.

A ticket names one object from its allocation to its release and is never used
again; 0 is no ticket. Requests for memory are numbered, and an environment says
which of them fail. Actions run on the store and keep their changes when they
fail.
-/
import Mathlib

namespace MiniGo.ObjectStore

/-- The objects, the next ticket, and the number of requests so far. -/
structure Store (Object : Type) where
  objects : Nat → Option Object
  next : Nat
  requests : Nat := 0
  positive : 0 < next
  null : objects 0 = none
  fresh : ∀ ref, next ≤ ref → objects ref = none

variable {Object ε α β : Type}

/-- An action on a store. -/
abbrev Action (Object ε α : Type) := EStateM ε (Store Object) α

/-- A request for memory. -/
def request (fails : Nat → Bool) (fault : ε) : Action Object ε Unit := fun store =>
  let after := { store with requests := store.requests + 1 }
  if fails store.requests then .error fault after else .ok () after

/-- A new object under the next ticket. -/
def allocate (object : Object) : Action Object ε Nat := fun store =>
  .ok store.next {
    objects := Function.update store.objects store.next (some object)
    next := store.next + 1
    requests := store.requests
    positive := Nat.succ_pos _
    null := by
      rw [Function.update_of_ne (Nat.ne_of_lt store.positive)]
      exact store.null
    fresh := fun ref href => by
      rw [Function.update_of_ne (Nat.ne_of_gt href)]
      exact store.fresh ref (Nat.le_of_succ_le href) }

/-- The object of a live ticket. -/
def resolve (stale : ε) (ref : Nat) : Action Object ε Object := fun store =>
  match store.objects ref with
  | some object => .ok object store
  | none => .error stale store

/-- The store with the object of a live ticket replaced. -/
def Store.set (store : Store Object) (ref : Nat) (object : Object)
    (hlive : store.objects ref ≠ none) : Store Object where
  objects := Function.update store.objects ref (some object)
  next := store.next
  requests := store.requests
  positive := store.positive
  null := by
    rw [Function.update_of_ne fun heq : 0 = ref => hlive (heq ▸ store.null)]
    exact store.null
  fresh := fun other hother => by
    rw [Function.update_of_ne fun heq : other = ref =>
      hlive (heq ▸ store.fresh other hother)]
    exact store.fresh other hother

/-- Changes the object of a live ticket, or fails. -/
def modify (stale : ε) (ref : Nat) (change : Object → Except ε Object) :
    Action Object ε Unit := fun store =>
  match hobject : store.objects ref with
  | none => .error stale store
  | some object =>
    match change object with
    | .error fault => .error fault store
    | .ok changed => .ok () (store.set ref changed (by simp [hobject]))

/-- The store without the objects of some tickets. -/
def Store.release (store : Store Object) (released : Nat → Bool) :
    Store Object where
  objects := fun ref => if released ref then none else store.objects ref
  next := store.next
  requests := store.requests
  positive := store.positive
  null := by simp [store.null]
  fresh := fun ref href => by simp [store.fresh ref href]

/-- Releases what a failed action has allocated. -/
def rollback (action : Action Object ε α) : Action Object ε α := fun store =>
  match action store with
  | .ok result after => .ok result after
  | .error fault after =>
    .error fault (after.release fun ref => store.next ≤ ref)

/-- Every live object is still there. -/
structure Keeps (before after : Store Object) : Prop where
  next : before.next ≤ after.next
  objects : ∀ ref object, before.objects ref = some object → after.objects ref = some object
  requests : before.requests ≤ after.requests

/-- A request between two states has failed. -/
def Pressed (fails : Nat → Bool) (before after : Store Object) : Prop :=
  ∃ number, before.requests ≤ number ∧ number < after.requests ∧ fails number = true

/-- What holds after an action that succeeds and after one that fails. -/
def Ensures (action : Action Object ε α) (store : Store Object)
    (post : α → Store Object → Prop) (failed : Store Object → Prop) : Prop :=
  match action store with
  | .ok value after => post value after
  | .error _ after => failed after

section Keeps

variable {first second third : Store Object}

theorem Keeps.refl (store : Store Object) : Keeps store store :=
  ⟨Nat.le_refl _, fun _ _ => id, Nat.le_refl _⟩

theorem Keeps.trans (hf : Keeps first second) (hs : Keeps second third) :
    Keeps first third :=
  ⟨Nat.le_trans hf.next hs.next,
    fun ref object ho => hs.objects ref object (hf.objects ref object ho),
    Nat.le_trans hf.requests hs.requests⟩

theorem Pressed.of_keeps {fails : Nat → Bool} (hkeeps : Keeps first second)
    (hpressed : Pressed fails second third) : Pressed fails first third := by
  obtain ⟨number, hold, hnew, hfails⟩ := hpressed
  exact ⟨number, Nat.le_trans hkeeps.requests hold, hnew, hfails⟩

theorem Pressed.congr {fails : Nat → Bool} (hpressed : Pressed fails first second)
    (hsame : third.requests = second.requests) : Pressed fails first third := by
  rw [Pressed, hsame]
  exact hpressed

theorem lt_next_of_live {ref : Nat} {object : Object}
    (ho : first.objects ref = some object) : ref < first.next := by
  by_contra hn
  rw [first.fresh ref (by omega)] at ho
  cases ho

theorem ne_of_objects {ref other : Nat} {object found : Object}
    (ho : first.objects ref = some object)
    (hf : first.objects other = some found) (hne : object ≠ found) :
    ref ≠ other := by
  rintro rfl
  exact hne (Option.some.inj (ho.symm.trans hf))

theorem Keeps.of_objects (ho : second.objects = first.objects)
    (hnext : second.next = first.next) (hrequests : first.requests ≤ second.requests) :
    Keeps first second :=
  ⟨Nat.le_of_eq hnext.symm, fun ref object hob => by rwa [ho], hrequests⟩

/-- A change behind a ticket that is newer than the store. -/
theorem Keeps.update {ref : Nat} {object : Option Object}
    (hk : Keeps first second) (hn : first.next ≤ ref)
    (ho : third.objects = Function.update second.objects ref object)
    (hnext : second.next ≤ third.next) (hrequests : second.requests ≤ third.requests) :
    Keeps first third := by
  refine ⟨Nat.le_trans hk.next hnext, fun other found hf => ?_,
    Nat.le_trans hk.requests hrequests⟩
  have hne : other ≠ ref := Nat.ne_of_lt (Nat.lt_of_lt_of_le (lt_next_of_live hf) hn)
  rw [ho, Function.update_of_ne hne]
  exact hk.objects other found hf

end Keeps

section Rules

variable {store after : Store Object} {action : Action Object ε α}
  {next : α → Action Object ε β} {val : α} {fault : ε}
  {post : α → Store Object → Prop} {failed : Store Object → Prop}

theorem bind_ok (ha : action store = .ok val after) : (action >>= next) store = next val after := by
  simp [bind, EStateM.bind, ha]

theorem Ensures.of_ok (ha : action store = .ok val after)
    (hp : post val after) : Ensures action store post failed := by
  rw [Ensures, ha]
  exact hp

theorem Ensures.result (post : α → Store Object → Prop)
    (ha : Ensures action store post fun _ => True)
    (hr : action store = .ok val after) : post val after := by
  rw [Ensures, hr] at ha
  exact ha

theorem Ensures.pure (hp : post val store) :
    Ensures (pure val : Action Object ε α) store post failed := hp

theorem Ensures.throw (hf : failed store) :
    Ensures (throw fault : Action Object ε α) store post failed := hf

theorem Ensures.bind {res : β → Store Object → Prop} (ha : Ensures action store
      (fun val after => Ensures (next val) after res failed) failed) :
    Ensures (action >>= next) store res failed := by
  unfold Ensures at ha ⊢
  cases hr : action store with
  | ok val after =>
    rw [bind_ok hr]
    rw [hr] at ha
    exact ha
  | error fault after =>
    simpa [Bind.bind, EStateM.bind, hr] using ha

theorem Ensures.mono {post' : α → Store Object → Prop}
    {failed' : Store Object → Prop} (ha : Ensures action store post failed)
    (hp : ∀ val after, post val after → post' val after)
    (hf : ∀ after, failed after → failed' after) :
    Ensures action store post' failed' := by
  unfold Ensures at ha ⊢
  cases hr : action store with
  | ok val after =>
    rw [hr] at ha
    exact hp val after ha
  | error fault after =>
    rw [hr] at ha
    exact hf after ha

/-- A request changes no object. -/
theorem Ensures.request {fails : Nat → Bool} {post : Unit → Store Object → Prop}
    (hp : ∀ after, Keeps store after → post () after ∧ (Pressed fails store after → failed after)) :
    Ensures (request fails fault) store post failed := by
  have ha := hp { store with requests := store.requests + 1 }
    (.of_objects rfl rfl (Nat.le_succ _))
  unfold Ensures ObjectStore.request
  by_cases hfails : fails store.requests = true
  · simp only [hfails, if_true]
    exact ha.2 ⟨store.requests, Nat.le_refl _, Nat.lt_succ_self _, hfails⟩
  · simp only [hfails]
    exact ha.1

variable {obj : Object} {stale : ε} {ref : Nat}

theorem Ensures.allocate {post : Nat → Store Object → Prop}
    (hp : ∀ after, after.objects = Function.update store.objects store.next (some obj) →
      after.next = store.next + 1 → after.requests = store.requests → post store.next after) :
    Ensures (allocate obj : Action Object ε Nat) store post failed :=
  hp _ rfl rfl rfl

theorem resolve_eq (ho : store.objects ref = some obj) :
    resolve stale ref store = .ok obj store := by
  simp [resolve, ho]

theorem modify_eq {changed : Object}
    {change : Object → Except ε Object} (ho : store.objects ref = some obj)
    (hc : change obj = .ok changed) :
    ∃ after, modify stale ref change store = .ok () after ∧
      after.objects = Function.update store.objects ref (some changed) ∧
      after.next = store.next ∧ after.requests = store.requests := by
  refine ⟨store.set ref changed (by simp [ho]), ?_, rfl, rfl, rfl⟩
  unfold modify
  split
  · next hnone => simp [ho] at hnone
  · next found hf =>
    rw [ho] at hf
    cases hf
    rw [hc]

theorem rollback_ok (hr : rollback action store = .ok val after) :
    action store = .ok val after := by
  unfold ObjectStore.rollback at hr
  split at hr
  · next ha => rw [ha, hr]
  · cases hr

/-- A failed action that kept the old objects is undone; its requests stay. -/
theorem Ensures.rollback {stopped : Store Object → Prop}
    (ha : Ensures action store post stopped)
    (hk : ∀ after, stopped after → Keeps store after)
    (hf : ∀ after undone, stopped after → Keeps store undone →
      undone.requests = after.requests → failed undone) :
    Ensures (rollback action) store post failed := by
  unfold Ensures at ha ⊢
  unfold ObjectStore.rollback
  cases hr : action store with
  | ok val after =>
    rw [hr] at ha
    exact ha
  | error fault after =>
    rw [hr] at ha
    have hkeeps := hk after ha
    refine hf after _ ha ⟨hkeeps.next, fun ref obj ho => ?_, hkeeps.requests⟩ rfl
    have hold : ¬store.next ≤ ref := Nat.not_le.mpr (lt_next_of_live ho)
    simpa [Store.release, hold] using hkeeps.objects ref obj ho

end Rules

end MiniGo.ObjectStore
