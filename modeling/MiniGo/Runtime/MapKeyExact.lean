/-
Where map keys and equality part.

A value that equals itself has a key unless a struct lies inside of a struct of
its type, and a string in an array or a struct that is not UTF-8 shares the key
with another one. In all other cases the key is defined and agrees with equality.
-/
import MiniGo.Runtime.MapKeySound

namespace MiniGo.Runtime.MapKey

open Lib List

variable {m : ModuleInstance} {seen : List (List Nat)} {value : GuestValue} {type : RuntimeType}

variable {left : Nat}

section Reflexivity

/-- `NonReflexive` says that a value differs from itself. -/
def FlagAgrees (m : ModuleInstance) (value : GuestValue) : Prop :=
  ∀ (seen : List (List Nat)) (wire : Wire) (remaining : Nat) (result : Bool),
    mapKeyWireFrom m value 1 seen = .ok wire →
    equalConcreteValues m (equalValuesSeen m remaining) value value = .ok result →
    wire.nonReflexive = !result

variable {fields : List (String × GuestValue)} {result : Bool} {items : List GuestValue}

theorem flagAgrees_boxed (hv : WellTyped m value)
    (hi : ∀ limit inner, unwrapDynamic limit value = .ok (some inner) →
      FlagAgrees m inner) {wire : Wire}
    (hw : mapKeyWireFrom m value 64 seen = .ok wire)
      (he : equalValuesSeen m left value value = .ok result) :
    wire.nonReflexive = !result := by
  obtain ⟨lower, rfl⟩ := equalValuesSeen_ok he
  rw [mapKeyWireFrom_unwrap] at hw
  cases hu : unwrapDynamic 64 value with
  | error fault => simp [hu] at hw
  | ok inner =>
    rw [hu] at hw
    cases inner with
    | none =>
      cases hw
      rw [equalValuesSeen_none hu hu (.inl rfl)] at he
      cases he
      rfl
    | some inner =>
      rw [equalValuesSeen_some hv hv hu hu rfl] at he
      exact hi 64 inner hu _ wire lower result hw he

theorem flagAgrees_scalar (hv : WellTyped m value) (hf : value.form < 7) : FlagAgrees m value := by
  intro seen wire left result hw he
  have hc : isDynamicComparableWrapper value = false := concrete_of_form (by omega)
  have htw := hv.twins hv hc hc rfl
  by_cases hr : value.form = 6
  · cases hv with
    | reference hd ht hfo =>
      rw [equalConcreteValues_reference ht] at he
      rw [mapKeyWireFrom, requireKey_eq_ok] at hw
      cases hw.2
      rw [beq_self_eq_true] at he
      cases he
      rfl
    | _ => simp [GuestValue.form] at hr
  · rw [equalConcreteValues_shaped htw hv hr, if_pos (hv.comparable hf)] at he
    cases hv with
    | array | struct | nilInterface | interface => simp [GuestValue.form] at hf
    | reference => exact absurd rfl hr
    | _ hd hu =>
      rw [mapKeyWireFrom, requireKey_eq_ok] at hw
      cases hw.2
      simp only [equalShaped, GuestValue.type, hu] at he
      simp [equalBools, equalStrings, equalNumbers, GuestValue.numeric?, equalNumericValues,
        Numeric.asFloat, Numeric.asComplex, floatEqual] at he
      simp [← he, Wire.nonReflexive, isNaN_normalZero]

variable {compare : GuestValue → GuestValue → Except Fault Bool}

theorem anyNonReflexive_eq {wires : List Wire}
    {wired : GuestValue → Wire → Prop} (hwi : List.Forall₂ wired items wires)
    (hf : ∀ item ∈ items, ∀ wire result, wired item wire →
      compare item item = .ok result → wire.nonReflexive = !result)
    {idx : Nat} (he : equalItems compare idx items items = .ok result) :
    anyNonReflexive wires = !result := by
  induction hwi generalizing idx with
  | nil =>
    cases he
    rfl
  | @cons item wire items wires hw hwi ih =>
    rw [forall_mem_cons] at hf
    rw [equalItems] at he
    rw [anyNonReflexive]
    cases hi : compare item item with
    | error fault => simp [hi] at he
    | ok same =>
      rw [hf.1 wire same hw hi]
      rw [hi] at he
      cases same with
      | false =>
        cases he
        rfl
      | true => simpa using ih hf.2 he

theorem anyFieldNonReflexive_eq_map (wires : List (String × Wire)) :
    anyFieldNonReflexive wires = anyNonReflexive (wires.map Prod.snd) := by
  induction wires with
  | nil => rfl
  | cons wire wires ih => rw [map_cons, anyNonReflexive, anyFieldNonReflexive, ih]

theorem flagAgrees_array (hv : WellTyped m (.array type items))
    (hit : ∀ item ∈ items, ∀ limit inner,
      unwrapDynamic limit item = .ok (some inner) → FlagAgrees m inner) :
    FlagAgrees m (.array type items) := by
  intro seen wire left result hw he
  obtain ⟨-, wires, rfl, hwi⟩ := wire_array.mp hw
  obtain ⟨-, he⟩ := (equalConcreteValues_array hv rfl).mp he
  cases hv with
  | array hd hu ht hty =>
    exact anyNonReflexive_eq hwi (fun item hi wire result hw hs =>
      flagAgrees_boxed (hty item hi) (hit item hi) hw hs) he

theorem flagAgrees_struct (hv : WellTyped m (.struct type fields))
    (hfl : ∀ field ∈ fields, ∀ limit inner,
      unwrapDynamic limit field.2 = .ok (some inner) → FlagAgrees m inner) :
    FlagAgrees m (.struct type fields) := by
  intro seen wire left result hw he
  obtain ⟨-, -, wires, rfl, hwi⟩ := wire_struct.mp hw
  have hwir : List.Forall₂ (fun item wire => mapKeyWireFrom m item 64 _ = .ok wire)
      (fields.map Prod.snd) (wires.map Prod.snd) :=
    forall₂_map_left_iff.mpr (forall₂_map_right_iff.mpr (hwi.imp fun _ _ hw => hw.2))
  obtain ⟨-, he⟩ := (equalConcreteValues_struct hv).mp he
  cases hv with
  | struct hd hu ht hty =>
    rw [Wire.nonReflexive, anyFieldNonReflexive_eq_map]
    refine anyNonReflexive_eq hwir ?_ ((@equalFields_eq_ok _ _ _ 0 _ rfl).mp he)
    intro item hi wire result hw hs
    obtain ⟨field, hf, rfl⟩ := mem_map.mp hi
    exact flagAgrees_boxed (hty field hf) (hfl field hf) hw hs

theorem WellTyped.flagAgrees (hv : WellTyped m value) :
    ∀ limit inner, unwrapDynamic limit value = .ok (some inner) → FlagAgrees m inner :=
  WellTyped.concrete_induction (fun _ => flagAgrees_scalar) (fun _ _ => flagAgrees_array)
    (fun _ _ => flagAgrees_struct) hv

end Reflexivity

section Success

/-- A value that equals itself has a key unless a struct repeats. -/
def KeyedWhen (m : ModuleInstance) (value : GuestValue) : Prop :=
  ∀ (seen : List (List Nat)) (remaining : Nat),
    equalConcreteValues m (equalValuesSeen m remaining) value value = .ok true →
    ((∃ wire, mapKeyWireFrom m value 1 seen = .ok wire) ↔
      NonRecursive value ∧ ∀ type, HasStruct type value → m.typeIdentity type ∉ seen)

theorem unwrapDynamic_none {limit : Nat} (hu : unwrapDynamic limit value = .ok none) :
    NonRecursive value ∧ (∀ type, ¬ HasStruct type value) ∧ ∀ text, ¬ HasText text value := by
  induction limit generalizing value with
  | zero => cases hu
  | succ limit ih =>
    cases value with
    | nilInterface type =>
      exact ⟨.nilInterface, (fun _ h => by cases h), (fun _ h => by cases h)⟩
    | interface type inner =>
      obtain ⟨hn, hs, ht⟩ := ih hu
      refine ⟨.interface hn, fun other h => ?_, fun text h => ?_⟩
      · cases h with
        | boxed h => exact hs other h
      · cases h with
        | boxed h => exact ht text h
    | _ => cases hu

theorem unwrap_ok {result : Bool} (he : equalValuesSeen m (left + 2) value value = .ok result) :
    ∃ inner, unwrapDynamic 64 value = .ok inner := by
  cases hu : unwrapDynamic 64 value with
  | ok inner => exact ⟨inner, rfl⟩
  | error fault =>
    cases hd : isDynamicComparableWrapper value with
    | false =>
      rw [unwrapDynamic_of_concrete hd] at hu
      cases hu
    | true =>
      rw [equalValuesSeen, hd, Bool.or_self, if_pos rfl, unwrapComparableDynamicValue, hu] at he
      cases he

theorem keyedWhen_boxed (hv : WellTyped m value)
    (hi : ∀ limit inner, unwrapDynamic limit value = .ok (some inner) →
      KeyedWhen m inner) (he : equalValuesSeen m left value value = .ok true) :
    (∃ wire, mapKeyWireFrom m value 64 seen = .ok wire) ↔
      NonRecursive value ∧ ∀ type, HasStruct type value → m.typeIdentity type ∉ seen := by
  obtain ⟨lower, rfl⟩ := equalValuesSeen_ok he
  obtain ⟨inner, hu⟩ := unwrap_ok he
  rw [mapKeyWireFrom_unwrap, hu]
  cases inner with
  | none =>
    obtain ⟨hn, hs, -⟩ := unwrapDynamic_none hu
    exact iff_of_true ⟨_, rfl⟩ ⟨hn, fun type h => absurd h (hs type)⟩
  | some inner =>
    rw [equalValuesSeen_some hv hv hu hu rfl] at he
    rw [hi 64 inner hu seen lower he, nonRecursive_unwrap hu]
    simp only [hasStruct_unwrap hu]

theorem exists_forall₂ {α β : Type} {related : α → β → Prop} {items : List α} :
    (∃ ress, List.Forall₂ related items ress) ↔ ∀ item ∈ items, ∃ result, related item result := by
  induction items with
  | nil => simp
  | cons item items ih =>
    rw [forall_mem_cons, ← ih]
    constructor
    · rintro ⟨_, hcons⟩
      cases hcons with
      | cons hh ht => exact ⟨⟨_, hh⟩, _, ht⟩
    · rintro ⟨⟨result, hh⟩, ress, ht⟩
      exact ⟨result :: ress, .cons hh ht⟩

theorem HasStruct.declared
    (hs : HasStruct type value) (hv : WellTyped m value) : m.declared type := by
  induction hs with
  | here => exact hv.declared rfl
  | item hi _ ih =>
    cases hv with
    | array _ _ _ hty => exact ih (hty _ hi)
  | field hf _ ih =>
    cases hv with
    | struct _ _ _ hty => exact ih (hty _ hf)
  | boxed _ ih =>
    cases hv with
    | interface _ hin => exact ih hin

theorem keyedWhen_scalar (hv : WellTyped m value) (hf : value.form < 7) : KeyedWhen m value := by
  intro seen left he
  have hc := hv.comparable hf
  refine iff_of_true ?_ ⟨.scalar hf, ?_⟩
  · cases hv with
    | array | struct | nilInterface | interface => simp [GuestValue.form] at hf
    | _ =>
      rw [GuestValue.type] at hc
      exact ⟨_, by rw [mapKeyWireFrom, requireKey, if_pos hc]⟩
  · intro type hs
    cases hs <;> simp [GuestValue.form] at hf

theorem keyedWhen_array {items : List GuestValue} (hv : WellTyped m (.array type items))
    (hit : ∀ item ∈ items, ∀ limit inner,
      unwrapDynamic limit item = .ok (some inner) → KeyedWhen m inner) :
    KeyedWhen m (.array type items) := by
  intro seen left he
  rw [equalConcreteValues_array hv rfl, equalItems_eq_true rfl] at he
  obtain ⟨hc, he⟩ := he
  have hr := forall₂_self he
  cases hv with
  | array hd hu ht hty =>
    have hwi : (∃ wire, mapKeyWireFrom m (.array type items) 1 seen = .ok wire) ↔
        ∀ item ∈ items, ∃ wire, mapKeyWireFrom m item 64 seen = .ok wire := by
      rw [← exists_forall₂]
      constructor
      · rintro ⟨wire, hw⟩
        obtain ⟨-, wires, -, hwi⟩ := wire_array.mp hw
        exact ⟨wires, hwi⟩
      · rintro ⟨wires, hwi⟩
        exact ⟨_, wire_array.mpr ⟨hc, wires, rfl, hwi⟩⟩
    rw [hwi]
    constructor
    · intro hall
      have hp := fun item hi => (keyedWhen_boxed (hty item hi)
        (hit item hi) (hr item hi)).mp (hall item hi)
      refine ⟨.array fun item hi => (hp item hi).1, fun other hs => ?_⟩
      cases hs with
      | item hi hs => exact (hp _ hi).2 other hs
    · rintro ⟨hn, hfr⟩ item hi
      refine (keyedWhen_boxed (hty item hi) (hit item hi)
        (hr item hi)).mpr ⟨?_, fun other h => hfr other (.item hi h)⟩
      cases hn with
      | scalar hf => simp [GuestValue.form] at hf
      | array hp => exact hp item hi

theorem keyedWhen_struct {fields : List (String × GuestValue)}
    (hv : WellTyped m (.struct type fields))
    (hfl : ∀ field ∈ fields, ∀ limit inner,
      unwrapDynamic limit field.2 = .ok (some inner) → KeyedWhen m inner) :
    KeyedWhen m (.struct type fields) := by
  intro seen left he
  have hd : ∀ other, HasStruct other (.struct type fields) → m.declared other :=
    fun other hs => hs.declared hv
  rw [equalConcreteValues_struct hv, equalFields_eq_true rfl] at he
  obtain ⟨hc, he⟩ := he
  have hr := forall₂_self he
  cases hv with
  | struct hde hu hty htyp =>
    have hwi : (∃ wire, mapKeyWireFrom m (.struct type fields) 1 seen = .ok wire) ↔
        m.typeIdentity type ∉ seen ∧ ∀ field ∈ fields, ∃ wire,
          mapKeyWireFrom m field.2 64 (m.typeIdentity type :: seen) = .ok wire := by
      constructor
      · rintro ⟨wire, hw⟩
        obtain ⟨-, hse, wires, -, hwi⟩ := wire_struct.mp hw
        refine ⟨hse, fun field hf => ?_⟩
        obtain ⟨wire, -, hw⟩ := exists_forall₂.mp ⟨wires, hwi⟩ field hf
        exact ⟨wire.2, hw⟩
      · rintro ⟨hse, hall⟩
        obtain ⟨wires, hwi⟩ := exists_forall₂.mpr fun field hf =>
          let ⟨wire, hw⟩ := hall field hf
          (⟨(field.1, wire), rfl, hw⟩ : ∃ result : String × Wire, field.1 = result.1 ∧
            mapKeyWireFrom m field.2 64 (m.typeIdentity type :: seen) = .ok result.2)
        exact ⟨_, wire_struct.mpr ⟨hc, hse, wires, rfl, hwi⟩⟩
    rw [hwi]
    constructor
    · rintro ⟨hse, hall⟩
      have hp := fun field hf => (keyedWhen_boxed (htyp field hf)
        (hfl field hf) (hr field hf)).mp (hall field hf)
      refine ⟨.struct (fun field hf hs => ?_) fun field hf => (hp field hf).1, fun other hs => ?_⟩
      · exact (hp field hf).2 type hs mem_cons_self
      · cases hs with
        | here => exact hse
        | field hf hs =>
          exact fun hmem => (hp _ hf).2 other hs (mem_cons_of_mem _ hmem)
    · rintro ⟨hn, hfr⟩
      refine ⟨hfr type .here, fun field hf => ?_⟩
      cases hn with
      | scalar hfo => simp [GuestValue.form] at hfo
      | struct ha hp =>
        refine (keyedWhen_boxed (htyp field hf) (hfl field hf)
          (hr field hf)).mpr ⟨hp field hf, fun other hs => ?_⟩
        rw [mem_cons, not_or]
        refine ⟨fun hsa => ?_, hfr other (.field hf hs)⟩
        -- a type has one identity
        have ht := m.identity_injective _ _ (hd _ (.field hf hs)) hde hsa
        rw [ht] at hs
        exact ha field hf hs

theorem WellTyped.keyedWhen (hv : WellTyped m value) :
    ∀ limit inner, unwrapDynamic limit value = .ok (some inner) → KeyedWhen m inner :=
  WellTyped.concrete_induction (fun _ => keyedWhen_scalar) (fun _ _ => keyedWhen_array)
    (fun _ _ => keyedWhen_struct) hv

end Success

section Collisions

/-- A value with a string that is not UTF-8 shares its wire's text with another. -/
def Collides (m : ModuleInstance) (value : GuestValue) : Prop :=
  ∀ (seen : List (List Nat)) (wire : Wire) (remaining : Nat),
    mapKeyWireFrom m value 1 seen = .ok wire →
    equalConcreteValues m (equalValuesSeen m remaining) value value = .ok true →
    (∃ text, HasText text value ∧ ¬ validText text) →
    ∃ other wire', WellTyped m other ∧ isDynamicComparableWrapper other = false ∧
      other.type = value.type ∧ mapKeyWireFrom m other 1 seen = .ok wire' ∧
      wire'.json = wire.json ∧ wire'.nonReflexive = wire.nonReflexive ∧
      equalConcreteValues m (equalValuesSeen m remaining) value other ≠ .ok true

/-- A value in the boxes of another. -/
theorem exists_rebox {limit : Nat} {inner other : GuestValue}
    (hu : unwrapDynamic limit value = .ok (some inner)) (hv : WellTyped m value)
    (ho : WellTyped m other) (hc : isDynamicComparableWrapper other = false)
    (ht : other.type = inner.type) :
    ∃ reboxed, WellTyped m reboxed ∧ reboxed.type = value.type ∧
      unwrapDynamic limit reboxed = .ok (some other) := by
  induction limit generalizing value with
  | zero => cases hu
  | succ limit ih =>
    cases hd : isDynamicComparableWrapper value with
    | false =>
      rw [unwrapDynamic_of_concrete hd] at hu
      cases hu
      exact ⟨other, ho, ht, unwrapDynamic_of_concrete hc⟩
    | true =>
      cases hv with
      | interface hb hi =>
        obtain ⟨reboxed, hr, -, hun⟩ := ih hu hi
        exact ⟨.interface _ reboxed, .interface hb hr, rfl, hun⟩
      | nilInterface hb => cases hu
      | _ => cases hd

theorem collides_boxed (hv : WellTyped m value)
    (hi : ∀ limit inner, unwrapDynamic limit value = .ok (some inner) →
      Collides m inner) {wire : Wire}
    (hw : mapKeyWireFrom m value 64 seen = .ok wire)
      (he : equalValuesSeen m left value value = .ok true)
    (ht : ∃ text, HasText text value ∧ ¬ validText text) :
    ∃ other wire', WellTyped m other ∧ other.type = value.type ∧
      mapKeyWireFrom m other 64 seen = .ok wire' ∧ wire'.json = wire.json ∧
      wire'.nonReflexive = wire.nonReflexive ∧
      equalValuesSeen m left value other ≠ .ok true := by
  obtain ⟨lower, rfl⟩ := equalValuesSeen_ok he
  obtain ⟨inner, hu⟩ := unwrap_ok he
  rw [mapKeyWireFrom_unwrap, hu] at hw
  obtain ⟨text, ht, hin⟩ := ht
  cases inner with
  | none => exact absurd ht ((unwrapDynamic_none hu).2.2 text)
  | some inner =>
    rw [equalValuesSeen_some hv hv hu hu rfl] at he
    obtain ⟨other, wire', ho, hc, hty, hwi, hj, hf, hd⟩ :=
      hi 64 inner hu seen wire lower hw he ⟨text, (hasText_unwrap hu).mp ht, hin⟩
    obtain ⟨reboxed, hr, hs, hun⟩ :=
      exists_rebox hu hv ho hc hty
    refine ⟨reboxed, wire', hr, hs, ?_, hj, hf, ?_⟩
    · rw [mapKeyWireFrom_unwrap, hun]
      exact hwi
    · rw [ne_eq, equalValuesSeen_some hv hr hu hun hty.symm]
      exact hd

theorem collides_scalar (hv : WellTyped m value) (hf : value.form < 7) : Collides m value := by
  rintro seen wire left hw he ⟨text, ht, hi⟩
  cases ht with
  | item | field | boxed => simp [GuestValue.form] at hf
  | @here type =>
    cases hv with
    | string hd hu =>
      obtain ⟨twin, hne, hr⟩ := exists_twin hi
      rw [mapKeyWireFrom, requireKey_eq_ok] at hw
      cases hw.2
      have ho : WellTyped m (.string type twin) := .string hd hu
      refine ⟨.string type twin, .string (m.typeIdentity type) twin, ho, rfl, rfl, ?_, ?_, rfl, ?_⟩
      · rw [mapKeyWireFrom, requireKey, if_pos hw.1]
      · rw [Wire.json, Wire.json, hr]
      · have hc : isComparableRuntimeType m (GuestValue.string type text).type = true := hw.1
        rw [equalConcreteValues_shaped .string (.string hd hu)
          (by simp [GuestValue.form]), if_pos hc]
        simpa [equalShaped, GuestValue.type, hu, equalStrings] using hne.symm

theorem forall₂_replace {α β : Type} {related : α → β → Prop} {items : List α}
    {ress : List β} (hr : List.Forall₂ related items ress) {item : α}
    (hi : item ∈ items) :
    ∃ pre after results₁ result results₂, items = pre ++ item :: after ∧
      ress = results₁ ++ result :: results₂ ∧ related item result ∧
      ∀ item' result', related item' result' → List.Forall₂ related (pre ++ item' :: after)
          (results₁ ++ result' :: results₂) := by
  induction hr with
  | nil => cases hi
  | @cons head result items ress hh ht ih =>
    rcases mem_cons.mp hi with rfl | hi
    · exact ⟨[], items, [], result, ress, rfl, rfl, hh, fun item' result' hr => .cons hr ht⟩
    · obtain ⟨pre, after, results₁, result', results₂, rfl, rfl, hm, hre⟩ :=
        ih hi
      exact ⟨head :: pre, after, result :: results₁, result', results₂, rfl, rfl,
        hm, fun item' result' hr => .cons hh (hre _ _ hr)⟩

theorem forall₂_middle {α : Type} {related : α → α → Prop} {pre after : List α} {item item' : α}
    (hr : List.Forall₂ related (pre ++ item :: after) (pre ++ item' :: after)) :
    related item item' := by
  induction pre with
  | nil =>
    cases hr
    assumption
  | cons head pre ih =>
    cases hr with
    | cons _ ht => exact ih ht

theorem anyNonReflexive_append (first second : List Wire) :
    anyNonReflexive (first ++ second) = (anyNonReflexive first || anyNonReflexive second) := by
  induction first with
  | nil => rfl
  | cons wire first ih => simp [anyNonReflexive, ih, Bool.or_assoc]

theorem collides_array {items : List GuestValue} (hv : WellTyped m (.array type items))
    (hit : ∀ item ∈ items, ∀ limit inner,
      unwrapDynamic limit item = .ok (some inner) → Collides m inner) :
    Collides m (.array type items) := by
  rintro seen wire left hw he ⟨text, ht, hin⟩
  obtain ⟨hc, wires, rfl, hwi⟩ := wire_array.mp hw
  rw [equalConcreteValues_array hv rfl, equalItems_eq_true rfl] at he
  cases ht with
  | @item _ _ item hi ht =>
    have hwh := hv
    cases hv with
    | array hde hu htyp htyped =>
      obtain ⟨pre, after, wires₁, wire, wires₂, rfl, rfl, hw, hr⟩ :=
        forall₂_replace hwi hi
      obtain ⟨other, wire', ho, hty, hwir, hj, hf, hd⟩ :=
        collides_boxed (htyped item hi) (hit item hi) hw (forall₂_self he.2 item hi) ⟨text, ht, hin⟩
      have hlen : (pre ++ item :: after).length = (pre ++ other :: after).length := by
        simp
      have hmem : ∀ part ∈ pre ++ other :: after, part = other ∨ part ∈ pre ++ item :: after := by
        intro part hp
        simp only [mem_append, mem_cons] at hp ⊢
        tauto
      refine ⟨.array type (pre ++ other :: after),
        .array (m.typeIdentity type) (wires₁ ++ wire' :: wires₂), ?_, rfl, rfl,
        wire_array.mpr ⟨hc, _, rfl, hr _ _ hwir⟩, ?_, ?_, ?_⟩
      · refine .array hde (hlen ▸ hu) (fun part hp => ?_) fun part hp => ?_
        · rcases hmem part hp with rfl | hp
          · rw [hty, htyp item hi]
          · exact htyp part hp
        · rcases hmem part hp with rfl | hp
          · exact ho
          · exact htyped part hp
      · rw [json_array_iff]
        simp [hj]
      · simp [Wire.nonReflexive, anyNonReflexive_append, anyNonReflexive, hf]
      · rw [ne_eq, equalConcreteValues_array hwh hlen, equalItems_eq_true hlen]
        rintro ⟨-, hall⟩
        have hm := forall₂_middle hall
        exact hd hm

theorem collides_struct {fields : List (String × GuestValue)}
    (hv : WellTyped m (.struct type fields))
    (hfl : ∀ field ∈ fields, ∀ limit inner,
      unwrapDynamic limit field.2 = .ok (some inner) → Collides m inner) :
    Collides m (.struct type fields) := by
  rintro seen wire left hw he ⟨text, ht, hi⟩
  obtain ⟨hc, hs, wires, rfl, hwi⟩ := wire_struct.mp hw
  rw [equalConcreteValues_struct hv, equalFields_eq_true rfl] at he
  cases ht with
  | @field _ _ field hf ht =>
    have hwh := hv
    cases hv with
    | struct hde hu htyp htyped =>
      obtain ⟨pre, after, wires₁, wire, wires₂, rfl, rfl, hw, hr⟩ :=
        forall₂_replace hwi hf
      obtain ⟨other, wire', ho, hty, hwir, hj, hfla, hd⟩ :=
        collides_boxed (htyped field hf) (hfl field hf) hw.2
          (forall₂_self he.2 field hf) ⟨text, ht, hi⟩
      have hmem : ∀ part ∈ pre ++ (field.1, other) :: after,
          part = (field.1, other) ∨ part ∈ pre ++ field :: after := by
        intro part hp
        simp only [mem_append, mem_cons] at hp ⊢
        tauto
      refine ⟨.struct type (pre ++ (field.1, other) :: after),
        .struct (m.typeIdentity type) (wires₁ ++ (wire.1, wire') :: wires₂), ?_, rfl, rfl,
        wire_struct.mpr ⟨hc, hs, _, rfl, hr _ _ ⟨hw.1, hwir⟩⟩,
        ?_, ?_, ?_⟩
      · refine .struct hde hu ?_ fun part hp => ?_
        · rw [← htyp]
          simp [hty]
        · rcases hmem part hp with rfl | hp
          · exact ho
          · exact htyped part hp
      · rw [json_struct_iff]
        simp [hj, fieldJson]
      · simp [Wire.nonReflexive, anyFieldNonReflexive_eq_map, anyNonReflexive_append,
          anyNonReflexive, hfla]
      · rw [ne_eq, equalConcreteValues_struct hwh, equalFields_eq_true (by simp)]
        rintro ⟨-, hall⟩
        have hm := forall₂_middle hall
        exact hd hm

theorem WellTyped.collides (hv : WellTyped m value) :
    ∀ limit inner, unwrapDynamic limit value = .ok (some inner) → Collides m inner :=
  WellTyped.concrete_induction (fun _ => collides_scalar) (fun _ _ => collides_array)
    (fun _ _ => collides_struct) hv

end Collisions

end MiniGo.Runtime.MapKey
