/-
The buffers of waitables (`runtime/waitable.go`, `managed_waitable.go`).

A host buffer is a slice with the index of its first live item; a managed buffer
is a ring in the guest heap. Encoding an item, the heap accesses and the copy of
a received aggregate may fail. Both buffers are queues: what an append or a pop
does to the list of live items is said once, for both of them and for every
failure.
-/
import MiniGo.Runtime.Equality

namespace MiniGo.Runtime

open List

/-- `waitableResource.Buffer` and `bufferHead`. -/
structure HostBuffer (Value : Type) where
  items : List Value := []
  bufferHead : Nat := 0

/-- The state words of a managed waitable and the elements of its backing. -/
structure Ring (Raw : Type) where
  head : Nat := 0
  length : Nat := 0
  capacity : Nat
  closed : Bool := false
  elements : Nat → Raw

/-- The inline representation of an element. -/
structure Codec (Value Raw : Type) where
  encode : Value → Raw
  decode : Raw → Value
  cleared : Raw
  decode_encode : ∀ value, decode (encode value) = value

/-- What fails during one access to a buffer: encoding an element, writing it,
writing the state words, copying a received aggregate, clearing an element.
`full` tells whether the host slice has no spare capacity. -/
structure BufferFaults where
  encode : Bool := false
  write : Bool := false
  state : Bool := false
  copy : Bool := false
  clear : Bool := false
  full : Bool := false

inductive Storage (Value Raw : Type) where
  | host (buffer : HostBuffer Value)
  | managed (ring : Ring Raw)

section Model

variable {Value Raw : Type} [Inhabited Value] (codec : Codec Value Raw) (faults : BufferFaults)

def heapFault : Fault := .error "heap access failed"

/-- The host part of `appendBuffer`. -/
def HostBuffer.append (buffer : HostBuffer Value) (value : Value) :
    HostBuffer Value :=
  let active :=
    if 0 < buffer.bufferHead ∧ faults.full then
      { items := buffer.items.drop buffer.bufferHead, bufferHead := 0 }
    else buffer
  { active with items := active.items ++ [value] }

/-- The host part of `popBuffer`; `none` where the slice index would panic. -/
def HostBuffer.pop (buffer : HostBuffer Value) :
    Option (Value × HostBuffer Value) :=
  (buffer.items[buffer.bufferHead]?).map fun value =>
    let items := buffer.items.set buffer.bufferHead default
    if buffer.bufferHead + 1 = items.length then (value, {})
    else (value, { items, bufferHead := buffer.bufferHead + 1 })

/-- `managedWaitableStorage.append`. -/
def Ring.append (ring : Ring Raw) (value : Value) : Except Fault Unit × Ring Raw :=
  if ring.closed ∨ ring.length ≥ ring.capacity then
    (.error (.error "managed waitable buffer is full"), ring)
  else if faults.encode ∨ faults.write then (.error heapFault, ring)
  else
    let index := (ring.head + ring.length) % ring.capacity
    let written := { ring with
      elements := Function.update ring.elements index (codec.encode value) }
    if faults.state then (.error heapFault, written)
    else (.ok (), { written with length := ring.length + 1 })

/-- The head after a pop. -/
def Ring.nextHead (ring : Ring Raw) : Nat :=
  if ring.length = 1 then 0 else (ring.head + 1) % ring.capacity

/-- `managedWaitableStorage.pop`; a failed clear restores the state words. -/
def Ring.pop (ring : Ring Raw) : Except Fault Value × Ring Raw :=
  if ring.length = 0 then
    (.error (.error "managed waitable buffer is empty"), ring)
  else
    let value := codec.decode (ring.elements (ring.head % ring.capacity))
    if faults.copy ∨ faults.state then (.error heapFault, ring)
    else
      let popped := { ring with
        head := ring.nextHead, length := ring.length - 1 }
      if faults.clear then
        (.error heapFault, { popped with head := ring.head, length := ring.length })
      else
        (.ok value, { popped with
          elements := Function.update ring.elements (ring.head % ring.capacity) codec.cleared })

/-- `bufferLen`. -/
def Storage.bufferLen : Storage Value Raw → Nat
  | .host buffer => buffer.items.length - buffer.bufferHead
  | .managed ring => ring.length

/-- `appendBuffer`. -/
def Storage.appendBuffer (value : Value) :
    Storage Value Raw → Except Fault Unit × Storage Value Raw
  | .host buffer => (.ok (), .host (buffer.append faults value))
  | .managed ring =>
    let (result, ring) := ring.append codec faults value
    (result, .managed ring)

/-- `popBuffer`. -/
def Storage.popBuffer :
    Storage Value Raw → Except Fault Value × Storage Value Raw
  | .host buffer =>
    match buffer.pop with
    | some (value, buffer) => (.ok value, .host buffer)
    | none => (.error (.error "index out of range"), .host buffer)
  | .managed ring =>
    let (result, ring) := ring.pop codec faults
    (result, .managed ring)

/-- The state word that `waitableCloseValue` writes. -/
def Storage.setClosed : Storage Value Raw → Storage Value Raw
  | .host buffer => .host buffer
  | .managed ring => .managed { ring with closed := true }

end Model

section Queue

variable {Value Raw : Type} (codec : Codec Value Raw)

/-- The live items of a ring, oldest first. -/
def Ring.contents (ring : Ring Raw) : List Value :=
  (List.range ring.length).map fun offset =>
    codec.decode (ring.elements ((ring.head + offset) % ring.capacity))

/-- The live items of a buffer, oldest first. -/
def Storage.contents : Storage Value Raw → List Value
  | .host buffer => buffer.items.drop buffer.bufferHead
  | .managed ring => ring.contents codec

/-- The bounds of a buffer. -/
def Storage.Valid : Storage Value Raw → Prop
  | .host buffer => buffer.bufferHead ≤ buffer.items.length
  | .managed ring => ring.length ≤ ring.capacity

theorem Storage.bufferLen_eq (stor : Storage Value Raw) :
    stor.bufferLen = (stor.contents codec).length := by
  cases stor <;> simp [Storage.bufferLen, Storage.contents, Ring.contents]

variable {faults : BufferFaults}

theorem HostBuffer.append_contents (buf : HostBuffer Value) (value : Value)
    (hh : buf.bufferHead ≤ buf.items.length) :
    (buf.append faults value).items.drop (buf.append faults value).bufferHead =
      buf.items.drop buf.bufferHead ++ [value] := by
  unfold HostBuffer.append
  split
  · simp
  · simp [drop_append_of_le_length hh]

variable {val : Value}

theorem HostBuffer.pop_contents [Inhabited Value] {buf rest : HostBuffer Value}
    (hp : buf.pop = some (val, rest)) :
    buf.items.drop buf.bufferHead = val :: rest.items.drop rest.bufferHead := by
  obtain ⟨found, hf, hr⟩ := Option.map_eq_some_iff.mp hp
  obtain ⟨hlen, rfl⟩ := List.getElem?_eq_some_iff.mp hf
  rw [← List.getElem_cons_drop hlen]
  dsimp only at hr
  split at hr
  · next hl =>
    cases hr
    simp only [length_set] at hl
    simp [drop_eq_nil_of_le (Nat.le_of_eq hl.symm)]
  · cases hr
    simp [drop_set_of_lt (Nat.lt_succ_self _)]

theorem ring_index_ne {capacity head first second : Nat}
    (hlt : first < second) (hc : second < first + capacity) :
    (head + first) % capacity ≠ (head + second) % capacity := by
  intro hs
  have hmod : first ≡ second [MOD capacity] := Nat.ModEq.add_left_cancel' head hs
  have hd := (Nat.modEq_iff_dvd' (Nat.le_of_lt hlt)).mp hmod
  have := Nat.le_of_dvd (by omega) hd
  omega

theorem Ring.append_contents {ring after : Ring Raw} {res : Except Fault Unit}
    (ha : ring.append codec faults val = (res, after)) :
    (res = .ok () ∧ after.contents codec = ring.contents codec ++ [val] ∧
        after.length = ring.length + 1 ∧ ring.length < ring.capacity ∧
        after.capacity = ring.capacity) ∨
      ((∃ fault, res = .error fault) ∧ after.contents codec = ring.contents codec ∧
        after.length = ring.length ∧ after.capacity = ring.capacity) := by
  -- Writing the first free element does not touch a live one.
  have hk : ∀ off < ring.length, ring.length < ring.capacity →
      (ring.head + off) % ring.capacity ≠ (ring.head + ring.length) % ring.capacity := by
    intro off ho hsp
    exact ring_index_ne ho (by omega)
  unfold Ring.append at ha
  split at ha
  · cases ha
    exact .inr ⟨⟨_, rfl⟩, rfl, rfl, rfl⟩
  · next hopen =>
    have hsp : ring.length < ring.capacity := by
      by_contra hf
      exact hopen (.inr (by omega))
    have hl : (range ring.length).map (fun off => codec.decode (Function.update ring.elements
          ((ring.head + ring.length) % ring.capacity) (codec.encode val)
          ((ring.head + off) % ring.capacity))) = ring.contents codec := by
      refine map_congr_left fun off ho => ?_
      rw [Function.update_of_ne (hk off (mem_range.mp ho) hsp)]
    split at ha
    · cases ha
      exact .inr ⟨⟨_, rfl⟩, rfl, rfl, rfl⟩
    · split at ha
      · cases ha
        exact .inr ⟨⟨_, rfl⟩, hl, rfl, rfl⟩
      · cases ha
        refine .inl ⟨rfl, ?_, rfl, hsp, rfl⟩
        simp only [Ring.contents, range_succ, map_append, map_cons,
          map_nil, Function.update_self, codec.decode_encode]
        exact congrArg (· ++ [val]) hl

theorem Ring.pop_contents {ring after : Ring Raw} {res : Except Fault Value}
    (hv : ring.length ≤ ring.capacity)
    (hp : ring.pop codec faults = (res, after)) :
    (∃ val, res = .ok val ∧ ring.contents codec = val :: after.contents codec ∧
        after.length ≤ after.capacity) ∨
      ((∃ fault, res = .error fault) ∧ after = ring) := by
  unfold Ring.pop at hp
  split at hp
  · cases hp
    exact .inr ⟨⟨_, rfl⟩, rfl⟩
  · next hsome =>
    split at hp
    · cases hp
      exact .inr ⟨⟨_, rfl⟩, rfl⟩
    · split at hp
      · cases hp
        exact .inr ⟨⟨_, rfl⟩, rfl⟩
      · cases hp
        refine .inl ⟨_, rfl, ?_, ?_⟩
        · obtain ⟨rest, hr⟩ := Nat.exists_eq_succ_of_ne_zero hsome
          simp only [Ring.contents, hr, range_succ_eq_map, map_cons,
            map_map, Nat.add_zero, Nat.succ_sub_one, cons.injEq,
            true_and]
          refine map_congr_left fun off ho => ?_
          have ho := mem_range.mp ho
          have hne : (ring.head + 0) % ring.capacity ≠ (ring.head + (off + 1)) % ring.capacity :=
            ring_index_ne (Nat.succ_pos off) (by omega)
          have hh : (ring.nextHead + off) % ring.capacity =
              (ring.head + (off + 1)) % ring.capacity := by
            rw [Ring.nextHead, if_neg (by omega), Nat.mod_add_mod, Nat.add_assoc, Nat.add_comm 1]
          rw [Nat.add_zero] at hne
          rw [hh, Function.update_of_ne hne.symm]
          rfl
        · show ring.length - 1 ≤ ring.capacity
          omega

theorem Storage.appendBuffer_contents {stor after : Storage Value Raw}
    {res : Except Fault Unit} (hv : stor.Valid)
    (ha : stor.appendBuffer codec faults val = (res, after)) :
    after.Valid ∧ ((res = .ok () ∧ after.contents codec = stor.contents codec ++ [val]) ∨
        ((∃ fault, res = .error fault) ∧ after.contents codec = stor.contents codec)) := by
  cases stor with
  | host buf =>
    cases ha
    refine ⟨?_, .inl ⟨rfl, buf.append_contents val hv⟩⟩
    simp only [Storage.Valid] at hv ⊢
    unfold HostBuffer.append
    split
    · simp
    · simp
      omega
  | managed ring =>
    cases hr : ring.append codec faults val with
    | mk out changed =>
      simp only [Storage.appendBuffer, hr] at ha
      cases ha
      simp only [Storage.Valid] at hv ⊢
      rcases Ring.append_contents codec hr with
        ⟨hok, hc, hlen, hsp, hca⟩ |
        ⟨he, hc, hlen, hca⟩
      · exact ⟨by omega, .inl ⟨hok, hc⟩⟩
      · exact ⟨by omega, .inr ⟨he, hc⟩⟩

/-- A pop takes the oldest value or fails and changes nothing. -/
theorem Storage.popBuffer_contents [Inhabited Value]
    {stor after : Storage Value Raw} {res : Except Fault Value}
    (hv : stor.Valid)
    (hp : stor.popBuffer codec faults = (res, after)) :
    after.Valid ∧ ((∃ val, res = .ok val ∧ stor.contents codec = val :: after.contents codec) ∨
        ((∃ fault, res = .error fault) ∧ after.contents codec = stor.contents codec)) := by
  cases stor with
  | host buf =>
    cases hb : buf.pop with
    | none =>
      simp only [Storage.popBuffer, hb] at hp
      cases hp
      exact ⟨hv, .inr ⟨⟨_, rfl⟩, rfl⟩⟩
    | some popped =>
      obtain ⟨val, rest⟩ := popped
      simp only [Storage.popBuffer, hb] at hp
      cases hp
      refine ⟨?_, .inl ⟨val, rfl, HostBuffer.pop_contents hb⟩⟩
      obtain ⟨found, hf, hr⟩ := Option.map_eq_some_iff.mp hb
      have hlen := (List.getElem?_eq_some_iff.mp hf).1
      dsimp only at hr
      split at hr
      · cases hr
        exact Nat.zero_le _
      · cases hr
        simp only [Storage.Valid, length_set]
        omega
  | managed ring =>
    cases hri : ring.pop codec faults with
    | mk out changed =>
      simp only [Storage.popBuffer, hri] at hp
      cases hp
      rcases Ring.pop_contents codec hv hri with
        ⟨val, hok, hc, hbd⟩ | ⟨he, rfl⟩
      · exact ⟨hbd, .inl ⟨val, hok, hc⟩⟩
      · exact ⟨hv, .inr ⟨he, rfl⟩⟩

theorem Storage.setClosed_contents (stor : Storage Value Raw) :
    stor.setClosed.contents codec = stor.contents codec := by
  cases stor <;> rfl

theorem Storage.setClosed_valid {stor : Storage Value Raw}
    (hv : stor.Valid) : stor.setClosed.Valid := by
  cases stor <;> exact hv

end Queue

end MiniGo.Runtime
