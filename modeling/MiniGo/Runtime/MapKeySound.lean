/-
Map keys and equality.

A comparison of two values and their keys are followed together through arrays,
structs and boxes. They agree but for two things: JSON replaces what is not
UTF-8 in a string, and `mapKeyWire` takes a struct inside of a struct of its own
type for a recursive type.
-/
import MiniGo.Runtime.MapKeyTyped

namespace MiniGo.Runtime.MapKey

open Lib List

section Agreement

variable {m : ModuleInstance} {seen seen' : List (List Nat)}

variable {type : RuntimeType} {α β : Type} {items : List GuestValue} {wire : Wire}
  {fields : List (String × GuestValue)} {val left right : GuestValue}

theorem requireKey_eq_ok {wire : Except Fault Wire} {result : Wire} :
    requireKey m type wire = .ok result ↔
      isComparableRuntimeType m type = true ∧ wire = .ok result := by
  unfold requireKey
  cases isComparableRuntimeType m type <;> simp

theorem except_map_eq_ok {first : Except Fault α} {next : α → β} {result : β} :
    first.map next = .ok result ↔ ∃ val, first = .ok val ∧ next val = result := by
  cases first <;> simp [Except.map]

theorem wire_array : mapKeyWireFrom m (.array type items) 1 seen = .ok wire ↔
      isComparableRuntimeType m type = true ∧ ∃ wires, wire = .array (m.typeIdentity type) wires ∧
          List.Forall₂ (fun item wire => mapKeyWireFrom m item 64 seen = .ok wire)
            items wires := by
  rw [mapKeyWireFrom, requireKey_eq_ok, except_map_eq_ok]
  simp only [mapKeyItems_eq_ok]
  constructor
  · rintro ⟨hc, wires, hw, rfl⟩
    exact ⟨hc, wires, rfl, hw⟩
  · rintro ⟨hc, wires, rfl, hw⟩
    exact ⟨hc, wires, hw, rfl⟩

theorem wire_struct : mapKeyWireFrom m (.struct type fields) 1 seen = .ok wire ↔
      isComparableRuntimeType m type = true ∧ m.typeIdentity type ∉ seen ∧
        ∃ wires, wire = .struct (m.typeIdentity type) wires ∧
          List.Forall₂ (fun field wire => field.1 = wire.1 ∧
            mapKeyWireFrom m field.2 64 (m.typeIdentity type :: seen) = .ok wire.2)
            fields wires := by
  rw [mapKeyWireFrom, requireKey_eq_ok]
  by_cases hs : m.typeIdentity type ∈ seen
  · simp [hs]
  · rw [if_neg (by simpa using hs), except_map_eq_ok]
    simp only [mapKeyFields_eq_ok]
    constructor
    · rintro ⟨hc, wires, hw, rfl⟩
      exact ⟨hc, hs, wires, rfl, hw⟩
    · rintro ⟨hc, -, wires, rfl, hw⟩
      exact ⟨hc, wires, hw, rfl⟩

/-- A wire names the type of the value. -/
theorem wire_typeText (hc : isDynamicComparableWrapper val = false)
    (hw : mapKeyWireFrom m val 1 seen = .ok wire) :
    wire.typeText = m.typeIdentity val.type := by
  cases val with
  | nilInterface | interface => cases hc
  | array type items =>
    obtain ⟨-, wires, rfl, -⟩ := wire_array.mp hw
    rfl
  | struct type fields =>
    obtain ⟨-, -, wires, rfl, -⟩ := wire_struct.mp hw
    rfl
  | nilable type isNil =>
    rw [mapKeyWireFrom, requireKey_eq_ok] at hw
    cases hw.2
  | _ =>
    rw [mapKeyWireFrom, requireKey_eq_ok] at hw
    cases hw.2
    rfl

theorem type_of_runes {type' : RuntimeType} (hde : m.declared type) (hd : m.declared type')
    (hr : runes (m.typeIdentity type) = runes (m.typeIdentity type')) : type = type' :=
  m.identity_injective _ _ hde hd (runes_injective (m.identity_valid _ hde) hr)

theorem json_nilInterface_ne (hv : WellTyped m val) (hc : isDynamicComparableWrapper val = false)
    (hw : mapKeyWireFrom m val 1 seen = .ok wire) : wire.json ≠ Wire.nilInterface.json := by
  intro hj
  have hr := json_typeText hj
  have hd := hv.declared hc
  rw [wire_typeText hc hw] at hr
  exact m.identity_ne_nil _ hd (runes_injective (m.identity_valid _ hd) hr)

variable {compare : GuestValue → GuestValue → Except Fault Bool} {remaining : Nat} {wire' : Wire}

theorem json_ne_of_type (hl : WellTyped m left) (hr : WellTyped m right)
    (hco : isDynamicComparableWrapper left = false) (hc : isDynamicComparableWrapper right = false)
    (hw : mapKeyWireFrom m left 1 seen = .ok wire)
    (hwi : mapKeyWireFrom m right 1 seen' = .ok wire') (hne : left.type ≠ right.type) :
    wire.json ≠ wire'.json := by
  intro hj
  have hru := json_typeText hj
  rw [wire_typeText hco hw, wire_typeText hc hwi] at hru
  exact hne (type_of_runes (hl.declared hco) (hr.declared hc) hru)

/-- Keys of values that are not boxes agree with equality. -/
def Agrees (m : ModuleInstance) (left : GuestValue) : Prop :=
  ∀ (seen seen' : List (List Nat)) (wire wire' : Wire) (right : GuestValue)
    (remaining : Nat), mapKeyWireFrom m left 1 seen = .ok wire →
    (∀ text, HasText text left → validText text) →
    equalConcreteValues m (equalValuesSeen m remaining) left left = .ok true →
    WellTyped m right → isDynamicComparableWrapper right = false →
    mapKeyWireFrom m right 1 seen' = .ok wire' → left.type = right.type →
    (wire.json = wire'.json ↔
      equalConcreteValues m (equalValuesSeen m remaining) left right = .ok true)

theorem equalValuesSeen_ok {res : Bool} (he : equalValuesSeen m remaining left right = .ok res) :
    ∃ lower, remaining = lower + 2 := by
  match remaining with
  | 0 | 1 => simp [equalValuesSeen] at he
  | lower + 2 => exact ⟨lower, rfl⟩

/-- The keys of parts, which may be boxes, then agree with equality as well. -/
theorem agrees_boxed (hl : WellTyped m left) (hr : WellTyped m right)
    (hi : ∀ limit inner, unwrapDynamic limit left = .ok (some inner) → Agrees m inner)
    (hv : ∀ text, HasText text left → validText text) (hty : left.type = right.type)
    (hw : mapKeyWireFrom m left 64 seen = .ok wire)
    (hwi : mapKeyWireFrom m right 64 seen' = .ok wire')
    (hse : equalValuesSeen m remaining left left = .ok true) :
    wire.json = wire'.json ↔ equalValuesSeen m remaining left right = .ok true := by
  obtain ⟨remaining, rfl⟩ := equalValuesSeen_ok hse
  rw [mapKeyWireFrom_unwrap] at hw hwi
  cases hun : unwrapDynamic 64 left with
  | error fault => simp [hun] at hw
  | ok inner =>
    cases hu : unwrapDynamic 64 right with
    | error fault => simp [hu] at hwi
    | ok inner' =>
      rw [hun] at hw
      rw [hu] at hwi
      cases inner with
      | none =>
        cases hw
        rw [equalValuesSeen_none hun hu (.inl rfl)]
        cases inner' with
        | none =>
          cases hwi
          simp
        | some inner' =>
          have := json_nilInterface_ne (hr.unwrap hu) (unwrapDynamic_concrete hu) hwi
          simpa using this.symm
      | some inner =>
        have hco := unwrapDynamic_concrete hun
        cases inner' with
        | none =>
          cases hwi
          rw [equalValuesSeen_none hun hu (.inr rfl)]
          simpa using json_nilInterface_ne (hl.unwrap hun) hco hw
        | some inner' =>
          have hc := unwrapDynamic_concrete hu
          by_cases hs : inner.type = inner'.type
          · rw [equalValuesSeen_some hl hr hun hu hs]
            rw [equalValuesSeen_some hl hl hun hun rfl] at hse
            refine hi 64 inner hun _ _ wire wire' inner' remaining hw
              (fun text ht => hv text ((hasText_unwrap hun).mpr ht))
              hse (hr.unwrap hu) hc hwi hs
          · -- the types differ, so one of the two is a box
            have hd : (isDynamicComparableWrapper left ||
                isDynamicComparableWrapper right) = true := by
              by_contra hn
              simp only [Bool.or_eq_true, not_or, Bool.not_eq_true] at hn
              rw [unwrapDynamic_of_concrete hn.1] at hun
              rw [unwrapDynamic_of_concrete hn.2] at hu
              cases hun
              cases hu
              exact hs hty
            have hinn := hl.unwrap hun
            have hin := hr.unwrap hu
            have hty : sameRuntimeType m inner.type inner'.type = false :=
              beq_eq_false_iff_ne.mpr fun heq => hs (m.identity_injective _ _
                (hinn.declared hco) (hin.declared hc) heq)
            rw [equalValuesSeen_ne hun hu hd hty]
            simpa using json_ne_of_type hinn hin hco hc hw hwi hs

theorem runes_eq_iff {first second : List Nat} (hv : validText first) :
    runes first = runes second ↔ first = second :=
  ⟨runes_injective hv, fun heq => by rw [heq]⟩

theorem hexText_eq_iff {first second : UInt64} :
    hexText first.toNat = hexText second.toNat ↔ first = second :=
  ⟨fun heq => UInt64.toNat_inj.mp (hexText_injective heq), fun heq => by rw [heq]⟩

theorem isNaN_of_floatEqual {first second : UInt64} (he : floatEqual first second = true) :
    isNaN first = false := by
  simp only [floatEqual, Bool.and_eq_true, Bool.not_eq_true'] at he
  exact he.1.1

theorem validText_complexText (realPart imaginaryPart : Nat) :
    validText (hexText realPart ++ ascii ":" ++ hexText imaginaryPart) := by
  refine validText_ascii fun byte hb => ?_
  rcases mem_append.mp hb with hb | hb
  · rcases mem_append.mp hb with hb | hb
    · exact (mem_hexText hb).1
    · exact ascii_lt ":" (by simp) byte hb
  · exact (mem_hexText hb).1

theorem complexText_eq_iff {first second first' second' : Nat} :
    hexText first ++ ascii ":" ++ hexText second = hexText first' ++ ascii ":" ++ hexText second' ↔
      first = first' ∧ second = second' := by
  constructor
  · intro heq
    rw [append_assoc, append_assoc] at heq
    obtain ⟨hf, ht⟩ := hexText_cancel (by simp [ascii]) (by simp [ascii]) heq
    exact ⟨hf, hexText_injective (append_cancel_left ht)⟩
  · rintro ⟨rfl, rfl⟩
    rfl

theorem agrees_scalar (hl : WellTyped m left) (hfor : left.form < 7) : Agrees m left := by
  intro seen seen' wire wire' right remaining hw hv hs hr hco hwi ht
  have hcon : isDynamicComparableWrapper left = false := concrete_of_form (by omega)
  have htw := hl.twins hr hcon hco ht
  have hc := hl.comparable hfor
  cases htw
  case array | struct => simp [GuestValue.form] at hfor
  all_goals
    rw [mapKeyWireFrom, requireKey_eq_ok] at hw hwi
    cases hw.2
    cases hwi.2
    rw [Wire.json, Wire.json, wireObject_some_iff]
  case reference =>
    cases hl with
    | reference hd href hf =>
      cases hr with
      | reference hde hre hfo =>
        rw [equalConcreteValues_reference href, Json.string.injEq,
          runes_eq_iff (validText_mapKeyIdentity hf),
          mapKeyIdentity_eq_iff hf hfo]
        simp
  case bool =>
    rw [equalConcreteValues_shaped .bool hl (by simp [GuestValue.form]), if_pos hc]
    cases hl with
    | bool hd hu => simp [equalShaped, GuestValue.type, hu, equalBools]
  case string =>
    rw [equalConcreteValues_shaped .string hl (by simp [GuestValue.form]),
      if_pos hc, Json.string.injEq, runes_eq_iff (hv _ .here)]
    cases hl with
    | string hd hu => simp [equalShaped, GuestValue.type, hu, equalStrings]
  case signed =>
    rw [equalConcreteValues_shaped .signed hl (by simp [GuestValue.form]), if_pos hc]
    cases hl with
    | signed hd hu =>
      simp [equalShaped, GuestValue.type, hu, equalNumbers, GuestValue.numeric?, equalNumericValues]
  case unsigned =>
    rw [equalConcreteValues_shaped .unsigned hl (by simp [GuestValue.form]), if_pos hc]
    cases hl with
    | unsigned hd hu =>
      simp [equalShaped, GuestValue.type, hu, equalNumbers, GuestValue.numeric?, equalNumericValues]
  case float left right =>
    rw [equalConcreteValues_shaped .float hl (by simp [GuestValue.form]), if_pos hc] at hs ⊢
    rw [Json.string.injEq, runes_eq_iff (validText_hexText _)]
    cases hl with
    | float hd hu =>
      simp only [equalShaped, GuestValue.type, hu, equalNumbers, GuestValue.numeric?,
        equalNumericValues, Numeric.asFloat, Except.ok.injEq] at hs ⊢
      rw [← normalZero_eq_iff (isNaN_of_floatEqual hs), hexText_eq_iff]
      simp
  case complex realLeft imaginaryLeft realRight imaginaryRight =>
    rw [equalConcreteValues_shaped .complex hl (by simp [GuestValue.form]), if_pos hc] at hs ⊢
    rw [Json.string.injEq, runes_eq_iff (validText_complexText _ _), complexText_eq_iff]
    cases hl with
    | complex hd hu =>
      simp only [equalShaped, GuestValue.type, hu, equalNumbers, GuestValue.numeric?,
        equalNumericValues, Numeric.asComplex, Except.ok.injEq, Bool.and_eq_true] at hs ⊢
      rw [← normalZero_eq_iff (isNaN_of_floatEqual hs.1),
        ← normalZero_eq_iff (isNaN_of_floatEqual hs.2), UInt64.toNat_inj,
        UInt64.toNat_inj]
      simp

/-- Arrays are compared item by item. -/
theorem equalConcreteValues_array
    {items' : List GuestValue} {result : Bool} (hv : WellTyped m (.array type items))
    (hlen : items.length = items'.length) :
    equalConcreteValues m compare (.array type items) (.array type items') = .ok result ↔
      isComparableRuntimeType m type = true ∧ equalItems compare 0 items items' = .ok result := by
  rw [equalConcreteValues_shaped .array hv (by simp [GuestValue.form])]
  cases hv with
  | array hd hu =>
    simp only [equalShaped, GuestValue.type, hu, if_pos hlen]
    split <;> simp [*]

/-- Structs are compared field by field. -/
theorem equalConcreteValues_struct {fields' : List (String × GuestValue)} {result : Bool}
    (hv : WellTyped m (.struct type fields)) :
    equalConcreteValues m compare (.struct type fields) (.struct type fields') = .ok result ↔
      isComparableRuntimeType m type = true ∧ equalFields compare fields fields' = .ok result := by
  rw [equalConcreteValues_shaped .struct hv (by simp [GuestValue.form])]
  cases hv with
  | struct hd hu =>
    simp only [equalShaped, GuestValue.type, hu]
    split <;> simp [*]

theorem forall₂_of_length {related : α → β → Prop} {first : List α}
    {second : List β} (hlen : first.length = second.length)
    (hr : ∀ item ∈ first, ∀ item' ∈ second, related item item') :
    List.Forall₂ related first second := by
  rw [forall₂_iff_zip]
  exact ⟨hlen, fun hmem => hr _ (of_mem_zip hmem).1 _ (of_mem_zip hmem).2⟩

theorem forall₂_of_map_eq {part : α → β} {first second : List α}
    (heq : first.map part = second.map part) {holds : α → Prop}
    (hh : ∀ item ∈ second, holds item) :
    List.Forall₂ (fun item item' => part item = part item' ∧ holds item') first second := by
  induction first generalizing second with
  | nil =>
    cases map_eq_nil_iff.mp heq.symm
    exact .nil
  | cons item first ih =>
    cases second with
    | nil => cases heq
    | cons item' second =>
      rw [forall_mem_cons] at hh
      obtain ⟨hp, hr⟩ := cons.inj heq
      exact .cons ⟨hp, hh.1⟩ (ih hr hh.2)

theorem forall₂_self {related : α → α → Prop} {items : List α}
    (hs : List.Forall₂ related items items) : ∀ item ∈ items, related item item := by
  rwa [forall₂_same] at hs

theorem agrees_array (hl : WellTyped m (.array type items)) (hit : ∀ item ∈ items, ∀ limit inner,
      unwrapDynamic limit item = .ok (some inner) → Agrees m inner) :
    Agrees m (.array type items) := by
  intro seen seen' wire wire' right remaining hw hv hs hr hc hwir hty
  rw [equalConcreteValues_array hl rfl, equalItems_eq_true rfl] at hs
  have hre := forall₂_self hs.2
  cases hl.twins hr rfl hc hty with
  | @array _ _ items' =>
    have hwh := hl
    obtain ⟨-, wires, rfl, hwi⟩ := wire_array.mp hw
    obtain ⟨-, wires', rfl, hwires'⟩ := wire_array.mp hwir
    cases hl with
    | array hde hun htyp htyped =>
      cases hr with
      | array hd hu htypes' htyped' =>
        rw [hun] at hu
        obtain ⟨hlen, rfl⟩ := RuntimeType.array.inj hu
        rw [equalConcreteValues_array hwh hlen, equalItems_eq_true hlen, json_array_iff]
        have hp : List.Forall₂ (fun item item' : GuestValue =>
            item.type = item'.type ∧ WellTyped m item') items items' :=
          forall₂_of_length hlen fun item hi item' hite =>
            ⟨(htyp item hi).trans (htypes' item' hite).symm, htyped' item' hite⟩
        rw [map_eq_iff_forall₂ hp hwi hwires' fun item item' wire wire' hi hrel hw hwir =>
            agrees_boxed (htyped item hi) hrel.2 (hit item hi)
              (fun text ht => hv text (.item hi ht)) hrel.1 hw hwir
              (hre item hi)]
        simp [hs.1]

theorem agrees_struct (hl : WellTyped m (.struct type fields))
    (hfl : ∀ field ∈ fields, ∀ limit inner,
      unwrapDynamic limit field.2 = .ok (some inner) → Agrees m inner) :
    Agrees m (.struct type fields) := by
  intro seen seen' wire wire' right remaining hw hv hs hr hc hwir hty
  rw [equalConcreteValues_struct hl, equalFields_eq_true rfl] at hs
  have hre := forall₂_self hs.2
  cases hl.twins hr rfl hc hty with
  | @struct _ _ fields' =>
    have hwh := hl
    obtain ⟨-, -, wires, rfl, hwi⟩ := wire_struct.mp hw
    obtain ⟨-, -, wires', rfl, hwires'⟩ := wire_struct.mp hwir
    cases hl with
    | struct hde hun htyp htyped =>
      cases hr with
      | struct hd hu htypes' htyped' =>
        rw [hun] at hu
        cases RuntimeType.struct.inj hu
        rw [← htypes'] at htyp
        have hlen : fields.length = fields'.length := by
          simpa using congrArg length htyp
        rw [equalConcreteValues_struct hwh, equalFields_eq_true hlen, json_struct_iff]
        have ha : ∀ (field field' : String × GuestValue) (wire wire' : String × Wire),
            field ∈ fields →
            (field.1, field.2.type) = (field'.1, field'.2.type) ∧ WellTyped m field'.2 →
            field.1 = wire.1 ∧ mapKeyWireFrom m field.2 64
              (m.typeIdentity type :: seen) = .ok wire.2 →
            field'.1 = wire'.1 ∧ mapKeyWireFrom m field'.2 64
              (m.typeIdentity type :: seen') = .ok wire'.2 →
            (fieldJson wire = fieldJson wire' ↔
              equalValuesSeen m remaining field.2 field'.2 = .ok true) := by
          rintro field field' wire wire' hf ⟨hp, htyped''⟩ ⟨hn, hw⟩ ⟨hna, hwir⟩
          obtain ⟨hnam, hpt⟩ := Prod.mk.inj hp
          rw [← agrees_boxed (htyped field hf) htyped'' (hfl field hf)
            (fun text ht => hv text (.field hf ht)) hpt hw hwir
            (hre field hf)]
          simp [fieldJson, ← hn, ← hna, hnam]
        rw [map_eq_iff_forall₂ (forall₂_of_map_eq htyp htyped') hwi hwires' ha]
        simp [hs.1]

theorem WellTyped.agrees (hv : WellTyped m val) :
    ∀ limit inner, unwrapDynamic limit val = .ok (some inner) → Agrees m inner :=
  WellTyped.concrete_induction (fun _ => agrees_scalar) (fun _ _ => agrees_array)
    (fun _ _ => agrees_struct) hv

end Agreement

end MiniGo.Runtime.MapKey
