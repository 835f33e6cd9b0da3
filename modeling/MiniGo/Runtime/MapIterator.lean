/-
Iteration over managed maps (`runtime/map_iterator.go`).

An iterator keeps the identities that the entries of its map had when it was made
and looks each of them up when it comes to it. An identity is a place of the table
and the number of times the place has been used, so it is given out once in the life
of a map. Between the steps of an iterator the map may change in any way.
-/
import MiniGo.Runtime.ManagedMapRun

namespace MiniGo.Runtime

open ObjectStore

/-- `mapIterator`, without its accounting. -/
structure MapIterator where
  entries : List Nat
  position : Nat := 0
deriving Repr, DecidableEq

/-- The changes of a map. -/
inductive MapMutation (Value : Type) where
  | store (guestKey : Value) (sequence : Nat) (value : Value)
  | delete (guestKey : Value)
  | clear

/-- What happens while an iterator is in use. -/
inductive IterationEvent (Value : Type) where
  | mutate (mutation : MapMutation Value)
  | next

/-- What comes of it. An entry is dropped if the iterator has come to it but its
key or its value could not be stored in the frame for lack of memory. -/
inductive IterationOutput (Value : Type) where
  | mutated
  | failed (fault : Fault)
  | produced (entry : MapEntry Value)
  | dropped (fault : Fault) (entry : MapEntry Value)
  | exhausted
deriving DecidableEq

/-- An entry has been dropped. -/
def IterationOutput.Dropped {Value : Type} : IterationOutput Value → Prop
  | .dropped _ _ => True
  | _ => False

namespace ManagedMap

variable {Value RawKey RawValue : Type} (runtime : MapRuntime Value RawKey RawValue)

/-- `initMapIteratorAt`: memory is requested for the control record and for the
identities. -/
def initMapIterator (identity : Nat) : MapM RawKey RawValue MapIterator := do
  request runtime.fails errManagedCollection
  request runtime.fails errManagedLimit
  let identities ← entryIdentities identity
  pure { entries := identities }

/-- The loop of `nextMapIteratorAt` gives the new position and the entry at which it
stops. -/
def reachEntry (identity : Nat) :
    List Nat → Nat → MapM RawKey RawValue (Nat × Option (MapEntry Value))
  | [], position => pure (position, none)
  | candidate :: rest, position => do
      match ← loadIdentity runtime identity candidate with
      | some entry => pure (position + 1, some entry)
      | none => reachEntry identity rest (position + 1)

/-- A key and a value are stored in the frame, which may need memory. -/
def pushPair : MapM RawKey RawValue Unit := do
  request runtime.fails errManagedCollection
  request runtime.fails errManagedCollection

/-- `nextMapIteratorAt`. The position has moved on when the key and the value are
stored; an instruction that fails for lack of memory is executed again after a
collection. -/
def nextMapIterator (identity : Nat) (iterator : MapIterator)
    (store : Store (MapObject RawKey RawValue)) :
    IterationOutput Value × MapIterator × Store (MapObject RawKey RawValue) :=
  match reachEntry runtime identity (iterator.entries.drop iterator.position)
      iterator.position store with
  | .error fault after => (.failed fault, iterator, after)
  | .ok (position, some entry) middle =>
    match pushPair runtime middle with
    | .ok () after => (.produced entry, { iterator with position }, after)
    | .error fault after => (.dropped fault entry, { iterator with position }, after)
  | .ok (position, none) middle =>
    match pushPair runtime middle with
    | .ok () after => (.exhausted, { entries := [], position }, after)
    | .error fault after => (.failed fault, { entries := [], position }, after)

/-- A change of the map. -/
def mutate (identity : Nat) : MapMutation Value → MapM RawKey RawValue Unit
  | .store guestKey sequence value => do
      let key ← fallible (runtime.mapKey guestKey)
      storeEntry runtime identity (keyForStore key sequence) guestKey value
  | .delete guestKey => do
      let key ← fallible (runtime.mapKey guestKey)
      deleteEntry runtime identity key
  | .clear => clear runtime identity

def mutateStep (identity : Nat) (mutation : MapMutation Value)
    (store : Store (MapObject RawKey RawValue)) :
    IterationOutput Value × Store (MapObject RawKey RawValue) :=
  match mutate runtime identity mutation store with
  | .ok () after => (.mutated, after)
  | .error fault after => (.failed fault, after)

/-- A sequence of changes. -/
def mutateAll (identity : Nat) : List (MapMutation Value) →
    Store (MapObject RawKey RawValue) →
    List (IterationOutput Value) × Store (MapObject RawKey RawValue)
  | [], store => ([], store)
  | mutation :: rest, store =>
    let (output, after) := mutateStep runtime identity mutation store
    let (outputs, last) := mutateAll identity rest after
    (output :: outputs, last)

def iterationStep (identity : Nat) (iterator : MapIterator)
    (store : Store (MapObject RawKey RawValue)) : IterationEvent Value →
    IterationOutput Value × MapIterator × Store (MapObject RawKey RawValue)
  | .mutate mutation =>
    let (output, after) := mutateStep runtime identity mutation store
    (output, iterator, after)
  | .next => nextMapIterator runtime identity iterator store

/-- What comes of a sequence of changes of the map and steps of the iterator. -/
def iterate (identity : Nat) : List (IterationEvent Value) → MapIterator →
    Store (MapObject RawKey RawValue) → List (IterationOutput Value)
  | [], _, _ => []
  | event :: rest, iterator, store =>
    let (output, iterator, after) := iterationStep runtime identity iterator store event
    output :: iterate identity rest iterator after

/-- The memory for the next entry: if one of the entries left is still there, the two
requests of the step for its key and its value succeed. -/
def Provided (identity : Nat) (iterator : MapIterator)
    (store : Store (MapObject RawKey RawValue)) : Prop :=
  (∃ entry ∈ iterator.entries.drop iterator.position, ∃ found,
    loadIdentity runtime identity entry store = .ok (some found) store) →
  runtime.fails store.requests = false ∧ runtime.fails (store.requests + 1) = false

/-- The memory for the next entry is there before every step of the iterator. -/
def ProvidedAlong (identity : Nat) : List (IterationEvent Value) → MapIterator →
    Store (MapObject RawKey RawValue) → Prop
  | [], _, _ => True
  | event :: rest, iterator, store =>
    (event = .next → Provided runtime identity iterator store) ∧
      ProvidedAlong identity rest (iterationStep runtime identity iterator store event).2.1
        (iterationStep runtime identity iterator store event).2.2

/-- What comes of an iteration over a new map, after a sequence of changes. -/
def iterateNew (store : Store (MapObject RawKey RawValue))
    (history : List (MapMutation Value)) (events : List (IterationEvent Value)) :
    Option (List (IterationOutput Value)) :=
  match newManagedMap runtime [] 0 store with
  | .ok identity created =>
    match initMapIterator runtime identity (mutateAll runtime identity history created).2 with
    | .ok iterator started => some (iterate runtime identity events iterator started)
    | .error _ _ => none
  | .error _ _ => none

end ManagedMap

/-- A map whose entries have identities; the identities given out so far are kept. -/
structure EntryMap (Value : Type) where
  entries : Nat → Option (MapKey × Value)
  issued : List Nat

namespace EntryMap

variable {Value RawKey RawValue : Type} (runtime : MapRuntime Value RawKey RawValue)

def empty : EntryMap Value := ⟨fun _ => none, []⟩

/-- The entries other than those of a key. -/
def without (key : MapKey) (entries : Nat → Option (MapKey × Value)) (entry : Nat) :
    Option (MapKey × Value) :=
  (entries entry).filter fun found => key.nonReflexive ∨ found.1 ≠ key

/-- A store gives its value to the entry of its key, or makes an entry with an
identity of 64 bits that has not been given out before. -/
inductive Step : EntryMap Value → MapMutation Value → IterationOutput Value →
    EntryMap Value → Prop where
  | replaced {map guestKey sequence value key entry old} :
      runtime.mapKey guestKey = .ok key → key.nonReflexive = false →
      map.entries entry = some (key, old) →
      Step map (.store guestKey sequence value) .mutated
        { map with entries := Function.update map.entries entry (some (key, value)) }
  | inserted {map guestKey sequence value key entry} : runtime.mapKey guestKey = .ok key →
      (key.nonReflexive = false → ∀ other old, map.entries other ≠ some (key, old)) →
      entry ∉ map.issued → entry < 2 ^ 64 →
      Step map (.store guestKey sequence value) .mutated
        { entries := Function.update map.entries entry (some (key, value))
          issued := entry :: map.issued }
  | deleted {map guestKey key} : runtime.mapKey guestKey = .ok key →
      Step map (.delete guestKey) .mutated { map with entries := without key map.entries }
  | cleared {map} : Step map .clear .mutated { map with entries := fun _ => none }
  | failed {map mutation fault} : Step map mutation (.failed fault) map

/-- A sequence of changes. -/
inductive Run : EntryMap Value → List (MapMutation Value) →
    List (IterationOutput Value) → EntryMap Value → Prop where
  | nil {map} : Run map [] [] map
  | cons {map mutation output middle mutations outputs after} :
      Step runtime map mutation output middle → Run middle mutations outputs after →
      Run map (mutation :: mutations) (output :: outputs) after

end EntryMap

/-- A map with an iterator: the identities it started from, how far it has come, and
what it has produced. -/
structure Iteration (Value : Type) where
  map : EntryMap Value
  snapshot : List Nat
  position : Nat
  produced : List Nat

namespace Iteration

variable {Value RawKey RawValue : Type} (runtime : MapRuntime Value RawKey RawValue)

/-- The iterator comes to an entry: those before it are gone. -/
structure Reaches (state : Iteration Value) (gone : List Nat) (entry : MapEntry Value) :
    Prop where
  pending : ∃ rest, state.snapshot.drop state.position = gone ++ entry.identity :: rest
  gone : ∀ other ∈ gone, state.map.entries other = none
  present : ∃ key, runtime.mapKey entry.key = .ok key ∧
    state.map.entries entry.identity = some (key, entry.value)

/-- What an iterator does: it produces the next entry that is still there, with the
value that it has now, or drops it, or finds that there is none. -/
inductive Step : Iteration Value → IterationEvent Value → IterationOutput Value →
    Iteration Value → Prop where
  | mutated {state mutation output after} : EntryMap.Step runtime state.map mutation output after →
      Step state (.mutate mutation) output { state with map := after }
  | produced {state gone entry} : Reaches runtime state gone entry →
      Step state .next (.produced entry) { state with
          position := state.position + gone.length + 1
          produced := state.produced ++ [entry.identity] }
  | dropped {state gone entry fault} : Reaches runtime state gone entry →
      Step state .next (.dropped fault entry)
        { state with position := state.position + gone.length + 1 }
  | exhausted {state output} :
      (∀ other ∈ state.snapshot.drop state.position, state.map.entries other = none) →
      output = .exhausted ∨ (∃ fault, output = .failed fault) →
      Step state .next output { state with position := state.snapshot.length }

/-- The states of a run. -/
inductive Trace : Iteration Value → List (IterationEvent Value) →
    List (IterationOutput Value) → List (Iteration Value) → Prop where
  | nil {state} : Trace state [] [] [state]
  | cons {state event output middle events outputs states} :
      Step runtime state event output middle → Trace middle events outputs states →
      Trace state (event :: events) (output :: outputs) (state :: states)

/-- Every entry that the iterator has passed and that is still there has been
produced, no entry has been produced twice or before it was reached, and no identity
has been given out twice. -/
structure Correct (state : Iteration Value) : Prop where
  once : state.produced.Nodup
  reached : ∀ entry ∈ state.produced, entry ∈ state.snapshot.take state.position
  complete : ∀ entry ∈ state.snapshot.take state.position,
    state.map.entries entry ≠ none → entry ∈ state.produced
  issued : state.map.issued.Nodup

/-- What was there at the start and is gone does not come back, and what is still
there has its key. -/
def Later (before after : Iteration Value) : Prop :=
  ∀ entry ∈ before.snapshot, ∀ key value, after.map.entries entry = some (key, value) →
      ∃ old, before.map.entries entry = some (key, old)

end Iteration

end MiniGo.Runtime
