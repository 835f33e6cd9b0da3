/-
Map keys against equality, for whole values.

A value that equals itself has a key that agrees with equality if and only if no
struct lies inside of a struct of its type and every string in an array or a
struct is UTF-8.
-/
import MiniGo.Runtime.MapKeyExact

namespace MiniGo.Runtime.MapKey

open Lib GuestValue List

section Keys

variable {m : ModuleInstance}

/-- The text occurs in an array or in a struct of the value. -/
inductive InComposite (text : List Nat) : GuestValue → Prop
  | item {type : RuntimeType} {items : List GuestValue} {item : GuestValue} :
      item ∈ items → HasText text item → InComposite text (.array type items)
  | field {type : RuntimeType} {fields : List (String × GuestValue)} {field : String × GuestValue} :
      field ∈ fields → HasText text field.2 → InComposite text (.struct type fields)
  | boxed {type : RuntimeType} {inner : GuestValue} :
      InComposite text inner → InComposite text (.interface type inner)

/-- The identity of the dynamic type; `none` is that of a nil interface. -/
def dynamicType (m : ModuleInstance) (value : GuestValue) :
    Except Fault (Option (List Nat)) :=
  (unwrapComparableDynamicValue value).map (·.map fun inner => m.typeIdentity inner.type)

def SameDynamicType (m : ModuleInstance) (left right : GuestValue) : Prop :=
  ∃ type, dynamicType m left = .ok type ∧ dynamicType m right = .ok type

/-- The keys of a value are what equality asks for. -/
structure MapKeyAgrees (m : ModuleInstance) (left : GuestValue) : Prop where
  defined : equalValues m left left = .ok true → ∃ key, mapKey m left = .ok key
  nonReflexive : ∀ key, mapKey m left = .ok key →
    (key.nonReflexive = true ↔ equalValues m left left = .ok false)
  same : ∀ right key key', WellTyped m right → mapKey m left = .ok key →
    mapKey m right = .ok key' → key.nonReflexive = false → key'.nonReflexive = false →
    (key = key' ↔ SameDynamicType m left right ∧ equalValues m left right = .ok true)

variable {text : List Nat} {value left right : GuestValue} {key : VmMapKey}

variable {inner : GuestValue} {key' : VmMapKey}

theorem inComposite_unwrap {limit : Nat} (hu : unwrapDynamic limit value = .ok (some inner)) :
    InComposite text value ↔ InComposite text inner := by
  refine unwrap_iff hu fun type boxed => ⟨fun h => ?_, .boxed⟩
  cases h
  assumption

theorem InComposite.hasText (hin : InComposite text value) : HasText text value := by
  induction hin with
  | item hi ht => exact .item hi ht
  | field hf ht => exact .field hf ht
  | boxed _ ih => exact .boxed ih

/-- The values whose key is the text of a wire. -/
def wireKeyed : GuestValue → Bool
  | .float .. | .complex .. | .array .. | .struct .. => true
  | _ => false

theorem concreteKey_wire (hk : wireKeyed value = true) :
    concreteKey m value = (mapKeyWireFrom m value 1 []).map fun wire =>
      { kind := .generic, text := ascii "v:" ++ wire.json.marshal,
        nonReflexive := wire.nonReflexive } := by
  cases value with
  | float | complex | array | struct =>
    rw [← mapKeyWireFrom_concrete rfl 63 []]
    rfl
  | _ => cases hk

/-- A value has a key when it has a wire, and the two agree on `NonReflexive`. -/
theorem concreteKey_flag (hv : WellTyped m value) (hco : isDynamicComparableWrapper value = false) :
    (∀ key, concreteKey m value = .ok key → ∃ wire,
      mapKeyWireFrom m value 1 [] = .ok wire ∧ key.nonReflexive = wire.nonReflexive) ∧
    ∀ wire, mapKeyWireFrom m value 1 [] = .ok wire →
      ∃ key, concreteKey m value = .ok key ∧ key.nonReflexive = wire.nonReflexive := by
  by_cases hke : wireKeyed value = true
  · rw [concreteKey_wire hke]
    constructor
    · intro key hk
      obtain ⟨wire, hw, rfl⟩ := except_map_eq_ok.mp hk
      exact ⟨wire, hw, rfl⟩
    · intro wire hw
      rw [hw]
      exact ⟨_, rfl, rfl⟩
  · have hf : value.form < 7 := by
      cases hv <;> simp_all [wireKeyed, form, isDynamicComparableWrapper]
    have hc := hv.comparable hf
    cases hv with
    | float | complex | array | struct => exact absurd rfl hke
    | nilInterface | interface => cases hco
    | _ =>
      dsimp only [type] at hc
      rw [mapKeyWireFrom, requireKey, if_pos hc]
      constructor
      · intro key hk
        cases hk
        exact ⟨_, rfl, rfl⟩
      · intro wire hw
        cases hw
        exact ⟨_, rfl, rfl⟩

theorem referenceKeyJson_iff {type type' ident identity' : List Nat} :
    referenceKeyJson type ident = referenceKeyJson type' identity' ↔
      runes type = runes type' ∧ runes ident = runes identity' := by
  simp [referenceKeyJson]

/-- What a key holds of a value that is not a box. -/
inductive KeyShape (m : ModuleInstance) (value : GuestValue) (key : VmMapKey) : Prop
  | direct : key.kind ≠ .generic → key.typeIdentity = m.typeIdentity value.type →
      KeyShape m value key
  | reference {target : Reference} : value = .reference value.type target → key.kind = .generic →
      key.text = ascii "r:" ++ (referenceKeyJson (m.typeIdentity value.type)
        (referenceComparableMapKeyIdentity target)).marshal → KeyShape m value key
  | wire {wire : Wire} : mapKeyWireFrom m value 1 [] = .ok wire → key.kind = .generic →
      key.text = ascii "v:" ++ wire.json.marshal → KeyShape m value key

theorem keyShape (hv : WellTyped m value) (hc : isDynamicComparableWrapper value = false)
    (hk : concreteKey m value = .ok key) : KeyShape m value key := by
  cases hv with
  | nilInterface | interface => cases hc
  | reference =>
    cases hk
    exact .reference rfl rfl rfl
  | float | complex | array | struct =>
    rw [concreteKey_wire rfl] at hk
    obtain ⟨wire, hw, rfl⟩ := except_map_eq_ok.mp hk
    exact .wire hw rfl rfl
  | _ =>
    cases hk
    exact .direct (by simp) rfl

/-- The type of a value can be read off its key. -/
theorem type_of_concreteKey (hl : WellTyped m left)
    (hr : WellTyped m right) (hco : isDynamicComparableWrapper left = false)
    (hc : isDynamicComparableWrapper right = false)
    (hk : concreteKey m left = .ok key) (hke : concreteKey m right = .ok key) :
    left.type = right.type := by
  have hde := hl.declared hco
  have hd := hr.declared hc
  cases keyShape hl hco hk with
  | direct hki hty =>
    cases keyShape hr hc hke with
    | direct hkin htyp =>
      exact m.identity_injective _ _ hde hd (hty.symm.trans htyp)
    | reference hf hkin hte => exact absurd hkin hki
    | wire hwi hkin hte => exact absurd hkin hki
  | reference hfo hki ht =>
    cases keyShape hr hc hke with
    | direct hkin htyp => exact absurd hki hkin
    | reference hf hkin hte =>
      have hj := marshal_injective (append_cancel_left (ht.symm.trans hte))
      exact type_of_runes hde hd (referenceKeyJson_iff.mp hj).1
    | wire hwi hkin hte =>
      exact absurd (cons.inj (ht.symm.trans hte)).1 (by decide)
  | wire hw hki ht =>
    cases keyShape hr hc hke with
    | direct hkin htyp => exact absurd hki hkin
    | reference hf hkin hte =>
      exact absurd (cons.inj (ht.symm.trans hte)).1 (by decide)
    | wire hwi hkin hte =>
      have hj := marshal_injective (append_cancel_left (ht.symm.trans hte))
      by_contra hne
      exact json_ne_of_type hl hr hco hc hw hwi hne hj

theorem concreteKey_eq_iff (hl : WellTyped m left)
    (hr : WellTyped m right) (hco : isDynamicComparableWrapper left = false)
    (hc : isDynamicComparableWrapper right = false) (hty : left.type = right.type)
    (hv : ∀ text, InComposite text left → validText text) {remaining : Nat}
    (hs : equalConcreteValues m (equalValuesSeen m remaining) left left = .ok true)
    (hk : concreteKey m left = .ok key)
    (hke : concreteKey m right = .ok key') (hfla : key.nonReflexive = false)
    (hfl : key'.nonReflexive = false) :
    key = key' ↔ equalConcreteValues m (equalValuesSeen m remaining) left right = .ok true := by
  have htw := hl.twins hr hco hc hty
  by_cases hkey : wireKeyed left = true
  · have hkeyed' : wireKeyed right = true := by cases htw <;> first | rfl | cases hkey
    rw [concreteKey_wire hkey, except_map_eq_ok] at hk
    rw [concreteKey_wire hkeyed', except_map_eq_ok] at hke
    obtain ⟨wire, hw, rfl⟩ := hk
    obtain ⟨wire', hwi, rfl⟩ := hke
    dsimp only at hfla hfl
    have htx : ∀ text, HasText text left → validText text := by
      intro text ht
      cases ht with
      | here => cases hkey
      | item hi ht => exact hv text (.item hi ht)
      | field hf ht => exact hv text (.field hf ht)
      | boxed ht => cases hkey
    rw [← hl.agrees 1 left (unwrapDynamic_of_concrete hco) [] [] wire wire' right
      remaining hw htx hs hr hc hwi hty]
    rw [hfla, hfl]
    constructor
    · intro heq
      exact marshal_injective (append_cancel_left (VmMapKey.mk.inj heq).2.2.2.2.2.1)
    · intro hj
      rw [hj]
  · have hform : left.form < 7 := by
      cases hl <;> simp_all [wireKeyed, form, isDynamicComparableWrapper]
    have hcom := hl.comparable hform
    cases htw with
    | float | complex | array | struct => exact absurd rfl hkey
    | reference =>
      cases hk
      cases hke
      cases hl with
      | reference hde href hfo =>
        cases hr with
        | reference hd hre hfor =>
          rw [equalConcreteValues_reference href, VmMapKey.mk.injEq]
          simp only [true_and, and_true, append_cancel_left_eq, Except.ok.injEq, beq_iff_eq]
          rw [← mapKeyIdentity_eq_iff hfo hfor, ← runes_eq_iff (validText_mapKeyIdentity hfo)]
          constructor
          · intro heq
            exact (referenceKeyJson_iff.mp (marshal_injective heq)).2
          · intro hru
            rw [referenceKeyJson_iff.mpr ⟨rfl, hru⟩]
    | bool | string | signed | unsigned =>
      cases hk
      cases hke
      rw [equalConcreteValues_shaped (by constructor) hl (by simp [form]), if_pos hcom]
      cases hl
      rename_i hu
      simp [equalShaped, type, hu, equalBools, equalStrings, equalNumbers,
        numeric?, equalNumericValues]

theorem mapKey_some (hu : unwrapComparableDynamicValue value = .ok (some inner)) :
    mapKey m value = concreteKey m inner := by
  rw [mapKey, hu]

theorem mapKey_none (hu : unwrapComparableDynamicValue value = .ok none) :
    mapKey m value = .ok { kind := .generic, text := ascii "nil-interface" } := by
  rw [mapKey, hu]

theorem mapKey_ok (hk : mapKey m value = .ok key) :
    ∃ inner, unwrapComparableDynamicValue value = .ok inner := by
  cases hu : unwrapComparableDynamicValue value with
  | error fault => simp [mapKey, hu] at hk
  | ok inner => exact ⟨inner, rfl⟩

/-- The key of a nil interface is that of nothing else. -/
theorem nilKey_ne (hv : WellTyped m value) (hc : isDynamicComparableWrapper value = false) :
    concreteKey m value ≠ .ok { kind := .generic, text := ascii "nil-interface" } := by
  intro hk
  cases keyShape hv hc hk with
  | direct hki hty => exact hki rfl
  | reference hf hki ht => exact absurd (cons.inj ht).1 (by decide)
  | wire hw hki ht => exact absurd (cons.inj ht).1 (by decide)

theorem sameDynamicType_iff {leftInner rightInner : Option GuestValue}
    (hun : unwrapComparableDynamicValue left = .ok leftInner)
    (hu : unwrapComparableDynamicValue right = .ok rightInner) :
    SameDynamicType m left right ↔ leftInner.map (fun inner => m.typeIdentity inner.type) =
        rightInner.map (fun inner => m.typeIdentity inner.type) := by
  simpa [SameDynamicType, dynamicType, hun, hu, Except.map] using eq_comm

/-- Equal keys mean equal values of one dynamic type. -/
theorem mapKey_eq_iff (hl : WellTyped m left)
    (hr : WellTyped m right) (hs : equalValues m left left = .ok true)
    (hv : ∀ text, InComposite text left → validText text)
    (hk : mapKey m left = .ok key) (hke : mapKey m right = .ok key')
    (hfl : key.nonReflexive = false) (hf : key'.nonReflexive = false) :
    key = key' ↔ SameDynamicType m left right ∧ equalValues m left right = .ok true := by
  obtain ⟨inner, hun⟩ := mapKey_ok hk
  obtain ⟨inner', hu⟩ := mapKey_ok hke
  rw [sameDynamicType_iff hun hu]
  cases inner with
  | none =>
    rw [mapKey_none hun] at hk
    cases hk
    cases inner' with
    | none =>
      rw [mapKey_none hu] at hke
      cases hke
      refine iff_of_true rfl ⟨rfl, ?_⟩
      rw [equalValues, equalValuesSeen_none hun hu (.inl rfl)]
      rfl
    | some inner' =>
      rw [mapKey_some hu] at hke
      refine iff_of_false (fun heq => ?_) (by simp)
      rw [← heq] at hke
      exact nilKey_ne (hr.unwrap hu) (unwrapDynamic_concrete hu) hke
  | some inner =>
    have hi := hl.unwrap hun
    have hco := unwrapDynamic_concrete hun
    rw [mapKey_some hun] at hk
    cases inner' with
    | none =>
      rw [mapKey_none hu] at hke
      cases hke
      refine iff_of_false (fun heq => ?_) (by simp)
      rw [heq] at hk
      exact nilKey_ne hi hco hk
    | some inner' =>
      have hin := hr.unwrap hu
      have hc := unwrapDynamic_concrete hu
      rw [mapKey_some hu] at hke
      rw [equalValues, equalValuesSeen_some hl hl hun hun rfl] at hs
      by_cases hty : inner.type = inner'.type
      · rw [equalValues, equalValuesSeen_some hl hr hun hu hty, concreteKey_eq_iff hi hin hco hc hty
            (fun text ht => hv text ((inComposite_unwrap hun).mpr ht))
            hs hk hke hfl hf]
        simp [hty]
      · refine iff_of_false (fun heq => hty ?_) fun hsa => hty ?_
        · rw [← heq] at hke
          exact type_of_concreteKey hi hin hco hc hk hke
        · exact m.identity_injective _ _ (hi.declared hco) (hin.declared hc) (by simpa using hsa.1)

theorem mapKey_defined_iff (hv : WellTyped m value) (hs : equalValues m value value = .ok true) :
    (∃ key, mapKey m value = .ok key) ↔ NonRecursive value := by
  obtain ⟨inner, hu⟩ := unwrap_ok hs
  cases inner with
  | none => exact iff_of_true ⟨_, mapKey_none hu⟩ (unwrapDynamic_none hu).1
  | some inner =>
    have hf := concreteKey_flag (hv.unwrap hu) (unwrapDynamic_concrete hu)
    rw [equalValues, equalValuesSeen_some hv hv hu hu rfl] at hs
    have hke := hv.keyedWhen 64 inner hu [] 64 hs
    rw [mapKey_some hu, nonRecursive_unwrap hu]
    constructor
    · rintro ⟨key, hk⟩
      obtain ⟨wire, hw, -⟩ := hf.1 key hk
      exact (hke.mp ⟨wire, hw⟩).1
    · intro hn
      obtain ⟨wire, hw⟩ := hke.mpr ⟨hn, fun _ _ => not_mem_nil⟩
      obtain ⟨key, hk, -⟩ := hf.2 wire hw
      exact ⟨key, hk⟩

theorem mapKey_nonReflexive (hv : WellTyped m value) {result : Bool}
    (he : equalValues m value value = .ok result)
    (hk : mapKey m value = .ok key) : key.nonReflexive = !result := by
  obtain ⟨inner, hu⟩ := mapKey_ok hk
  cases inner with
  | none =>
    rw [mapKey_none hu] at hk
    cases hk
    rw [equalValues, equalValuesSeen_none hu hu (.inl rfl)] at he
    cases he
    rfl
  | some inner =>
    rw [mapKey_some hu] at hk
    rw [equalValues, equalValuesSeen_some hv hv hu hu rfl] at he
    obtain ⟨wire, hw, hs⟩ := (concreteKey_flag (hv.unwrap hu) (unwrapDynamic_concrete hu)).1 key hk
    rw [hs, hv.flagAgrees 64 inner hu [] wire 64 result hw he]

/-- A string that is not UTF-8 makes two values share a key. -/
theorem exists_collision (hv : WellTyped m value) (hs : equalValues m value value = .ok true)
    (hk : mapKey m value = .ok key) (ht : InComposite text value)
    (hin : ¬ validText text) :
    ∃ other, WellTyped m other ∧ mapKey m other = .ok key ∧
      equalValues m value other ≠ .ok true := by
  obtain ⟨inner, hu⟩ := mapKey_ok hk
  cases inner with
  | none => exact absurd ht.hasText ((unwrapDynamic_none hu).2.2 text)
  | some inner =>
    have hi := hv.unwrap hu
    have hco := unwrapDynamic_concrete hu
    rw [inComposite_unwrap hu] at ht
    have hkey : wireKeyed inner = true := by
      cases ht with
      | boxed => cases hco
      | _ => rfl
    rw [mapKey_some hu, concreteKey_wire hkey, except_map_eq_ok] at hk
    obtain ⟨wire, hw, rfl⟩ := hk
    rw [equalValues, equalValuesSeen_some hv hv hu hu rfl] at hs
    obtain ⟨other, wire', ho, hc, hty, hwi, hj, hf, hd⟩ :=
      hv.collides 64 inner hu [] wire 64 hw hs ⟨text, ht.hasText, hin⟩
    have hke : wireKeyed other = true := by
      have htw := hi.twins ho hco hc hty.symm
      cases htw <;> first | rfl | cases hkey
    have hun : unwrapComparableDynamicValue other = .ok (some other) :=
      unwrapDynamic_of_concrete hc
    refine ⟨other, ho, ?_, ?_⟩
    · rw [mapKey_some hun, concreteKey_wire hke, except_map_eq_ok]
      exact ⟨wire', hwi, by rw [hj, hf]⟩
    · rw [equalValues, ne_eq, equalValuesSeen_some hv ho hu hun hty.symm]
      exact hd

/-- Keys agree with equality just for the values that differ from themselves, and
for those with no struct inside of one of its type and with UTF-8 in the strings
of arrays and structs. -/
theorem mapKeyAgrees_iff {value : GuestValue} (hvalue : WellTyped m value) {reflexive : Bool}
    (haccepted : equalValues m value value = .ok reflexive) :
    MapKeyAgrees m value ↔ (reflexive = true →
        NonRecursive value ∧ ∀ text, InComposite text value → validText text) := by
  constructor
  · rintro hagrees rfl
    obtain ⟨key, hkey⟩ := hagrees.defined haccepted
    refine ⟨(mapKey_defined_iff hvalue haccepted).mp ⟨key, hkey⟩, fun text htext => ?_⟩
    by_contra hinvalid
    obtain ⟨other, hother, hkey', hdiffer⟩ :=
      exists_collision hvalue haccepted hkey htext hinvalid
    have hflag : key.nonReflexive = false := mapKey_nonReflexive hvalue haccepted hkey
    exact hdiffer ((hagrees.same other key key hother hkey hkey' hflag hflag).mp rfl).2
  · intro hcondition
    refine ⟨fun hself => ?_, fun key hkey => ?_, ?_⟩
    · rw [hself] at haccepted
      cases haccepted
      exact (mapKey_defined_iff hvalue hself).mpr (hcondition rfl).1
    · rw [mapKey_nonReflexive hvalue haccepted hkey, haccepted]
      cases reflexive <;> simp
    · intro right key key' hright hkey hkey' hflag hflag'
      have hreflexive : reflexive = true := by
        have := mapKey_nonReflexive hvalue haccepted hkey
        rw [hflag] at this
        simpa using this.symm
      subst hreflexive
      exact mapKey_eq_iff hvalue hright haccepted (hcondition rfl).2 hkey hkey' hflag hflag'

end Keys

section Instances

/-- `type S struct{ s string }`. -/
def textStruct : RuntimeType := .named "main.S" (.struct [("s", .string)])

/-- `type T struct{ x any }`. -/
def boxStruct : RuntimeType := .named "main.T" (.struct [("x", .any)])

def declaredTypes : List RuntimeType := [.string, .signed 64, textStruct, boxStruct]

/-- A module with two struct types. -/
def sampleModule : ModuleInstance where
  typeIdentity
    | .named name _ => ascii name
    | .string => ascii "String"
    | .signed _ => ascii "Int"
    | _ => ascii "Any"
  typeText
    | .named name _ => name
    | .string => "String"
    | .signed _ => "Int"
    | _ => "Any"
  float64 _ := 0
  declared type := type ∈ declaredTypes
  identity_injective first second hfirst hsecond heq := by
    simp only [declaredTypes, List.mem_cons, List.not_mem_nil, or_false] at hfirst hsecond
    rcases hfirst with rfl | rfl | rfl | rfl <;>
      rcases hsecond with rfl | rfl | rfl | rfl <;>
      first
      | rfl
      | exact absurd heq (by decide)
  identity_valid type htype := by
    simp only [declaredTypes, List.mem_cons, List.not_mem_nil, or_false] at htype
    rcases htype with rfl | rfl | rfl | rfl <;> exact validText_ascii (by decide)
  identity_ne_nil type htype := by
    simp only [declaredTypes, List.mem_cons, List.not_mem_nil, or_false] at htype
    rcases htype with rfl | rfl | rfl | rfl <;> decide

/-- `S{text}`. -/
def textValue (text : List Nat) : GuestValue := .struct textStruct [("s", .string .string text)]

/-- `T{T{1}}`. -/
def nestedValue : GuestValue :=
  .struct boxStruct [("x", .interface .any
    (.struct boxStruct [("x", .interface .any (.signed (.signed 64) 1))]))]

theorem textValue_wellTyped (text : List Nat) : WellTyped sampleModule (textValue text) := by
  refine .struct (by simp [sampleModule, declaredTypes]) rfl rfl ?_
  simp only [forall_mem_cons, not_mem_nil, false_implies, implies_true, and_true]
  exact .string (by simp [sampleModule, declaredTypes]) rfl

theorem textValue_agrees : MapKeyAgrees sampleModule (textValue (ascii "ok")) := by
  have haccepted : equalValues sampleModule (textValue (ascii "ok"))
      (textValue (ascii "ok")) = .ok true := rfl
  refine (mapKeyAgrees_iff (textValue_wellTyped _) haccepted).mpr ?_
  refine fun _ => ⟨.struct ?_ ?_, ?_⟩
  · intro field hfield hstruct
    cases mem_singleton.mp hfield
    cases hstruct
  · intro field hfield
    cases mem_singleton.mp hfield
    exact .scalar (by decide)
  · intro text htext
    cases htext with
    | field hfield htext =>
      cases mem_singleton.mp hfield
      cases htext
      exact validText_ascii (by decide)

/-- `S{"\xff"}` and `S{"\xfe"}` have one key, and `T{T{1}}` has none. -/
theorem mapKey_disagrees : (∃ key, mapKey sampleModule (textValue [0xFF]) = .ok key ∧
      mapKey sampleModule (textValue [0xFE]) = .ok key ∧ key.nonReflexive = false ∧
      equalValues sampleModule (textValue [0xFF]) (textValue [0xFE]) = .ok false) ∧
    equalValues sampleModule nestedValue nestedValue = .ok true ∧
    mapKey sampleModule nestedValue = .error (.error
      "struct key field \"x\": recursive map key type main.T") := by
  refine ⟨⟨_, rfl, ?_, rfl, rfl⟩, rfl, ?_⟩
  · decide +kernel
  · decide +kernel

end Instances

end MiniGo.Runtime.MapKey
