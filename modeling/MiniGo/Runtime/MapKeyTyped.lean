/-
Guest values by their types.

The values of a type have one form, so two of them are compared, and made keys
of, part by part; a box is compared as what is in it.
-/
import MiniGo.Runtime.MapKeyWire

namespace MiniGo.Runtime.MapKey

open Lib RuntimeType List

variable {value : GuestValue}

variable {right : GuestValue} {left : GuestValue}

section Typed

variable (m : ModuleInstance)

/-- The values that a key may hold, each of the form that its type asks for. -/
inductive WellTyped : GuestValue → Prop
  | bool {type : RuntimeType} {value : Bool} : m.declared type →
      type.underlying = .bool → WellTyped (.bool type value)
  | string {type : RuntimeType} {bytes : List Nat} : m.declared type →
      type.underlying = .string → WellTyped (.string type bytes)
  | signed {type : RuntimeType} {value : Int} {width : Nat} : m.declared type →
      type.underlying = .signed width → WellTyped (.signed type value)
  | unsigned {type : RuntimeType} {value width : Nat} : m.declared type →
      type.underlying = .unsigned width → WellTyped (.unsigned type value)
  | float {type : RuntimeType} {bits : UInt64} {width : Nat} : m.declared type →
      type.underlying = .float width → WellTyped (.float type bits)
  | complex {type : RuntimeType} {realPart imaginaryPart : UInt64} {width : Nat} :
      m.declared type → type.underlying = .complex width →
      WellTyped (.complex type realPart imaginaryPart)
  | reference {type : RuntimeType} {target : Reference} : m.declared type →
      type.isReferenceComparableType = true → target.Formed →
      WellTyped (.reference type target)
  | array {type elem : RuntimeType} {items : List GuestValue} : m.declared type →
      type.underlying = .array items.length elem →
      (∀ item ∈ items, item.type = elem) → (∀ item ∈ items, WellTyped item) →
      WellTyped (.array type items)
  | struct {type : RuntimeType} {fieldTypes : List (String × RuntimeType)}
      {fields : List (String × GuestValue)} : m.declared type →
      type.underlying = .struct fieldTypes →
      fields.map (fun field => (field.1, field.2.type)) = comparableFields fieldTypes →
      (∀ field ∈ fields, WellTyped field.2) → WellTyped (.struct type fields)
  | nilInterface {type : RuntimeType} : type.isInterfaceType = true → WellTyped (.nilInterface type)
  | interface {type : RuntimeType} {inner : GuestValue} : type.isInterfaceType = true →
      WellTyped inner → WellTyped (.interface type inner)

/-- Two values of one type and form. -/
inductive Twins : GuestValue → GuestValue → Prop
  | bool {type : RuntimeType} {left right : Bool} : Twins (.bool type left) (.bool type right)
  | string {type : RuntimeType} {left right : List Nat} :
      Twins (.string type left) (.string type right)
  | signed {type : RuntimeType} {left right : Int} : Twins (.signed type left) (.signed type right)
  | unsigned {type : RuntimeType} {left right : Nat} :
      Twins (.unsigned type left) (.unsigned type right)
  | float {type : RuntimeType} {left right : UInt64} : Twins (.float type left) (.float type right)
  | complex {type : RuntimeType} {left left' right right' : UInt64} :
      Twins (.complex type left left') (.complex type right right')
  | reference {type : RuntimeType} {left right : Reference} :
      Twins (.reference type left) (.reference type right)
  | array {type : RuntimeType} {left right : List GuestValue} :
      Twins (.array type left) (.array type right)
  | struct {type : RuntimeType} {left right : List (String × GuestValue)} :
      Twins (.struct type left) (.struct type right)

variable {m}

def RuntimeType.form : RuntimeType → Nat
  | .bool => 0
  | .string => 1
  | .signed _ => 2
  | .unsigned _ => 3
  | .float _ => 4
  | .complex _ => 5
  | .pointer _ | .waitable _ => 6
  | .array .. => 7
  | .struct _ => 8
  | _ => 9

def GuestValue.form : GuestValue → Nat
  | .bool .. => 0
  | .string .. => 1
  | .signed .. => 2
  | .unsigned .. => 3
  | .float .. => 4
  | .complex .. => 5
  | .reference .. => 6
  | .array .. => 7
  | .struct .. => 8
  | .nilable .. | .nilInterface _ | .interface .. => 9

theorem WellTyped.form_eq (hv : WellTyped m value) (hc : isDynamicComparableWrapper value = false) :
    value.form = value.type.underlying.form := by
  cases hv with
  | reference hd hr hf =>
    rename_i type tgt
    change 6 = type.underlying.form
    unfold isReferenceComparableType at hr
    split at hr
    · rename_i hu
      rw [hu]
      rfl
    · rename_i hu
      rw [hu]
      rfl
    · cases hr
  | nilInterface | interface => cases hc
  | _ hd hu =>
    simp only [GuestValue.type]
    rw [hu]
    rfl

theorem WellTyped.declared (hv : WellTyped m value)
    (hc : isDynamicComparableWrapper value = false) : m.declared value.type := by
  cases hv with
  | nilInterface | interface => cases hc
  | _ hd => exact hd

theorem WellTyped.twins (hl : WellTyped m left) (hr : WellTyped m right)
    (hc : isDynamicComparableWrapper left = false) (hco : isDynamicComparableWrapper right = false)
    (ht : left.type = right.type) : Twins left right := by
  have hf : left.form = right.form := by rw [hl.form_eq hc, hr.form_eq hco, ht]
  cases hl <;> cases hr <;> first
    | (cases ht; constructor)
    | (simp [GuestValue.form] at hf; done)
    | cases hc

end Typed

section Comparison

variable {m : ModuleInstance} {compare : GuestValue → GuestValue → Except Fault Bool}

variable {type : RuntimeType}

theorem underlying_of_isPrimitive (hp : type.isPrimitive = true) : type.underlying = type := by
  cases type <;> first | rfl | cases hp

theorem isPrimitive_of_numeric
    (hn : type.predeclaredNumericComparable = true) : type.isPrimitive = true := by
  cases type <;> first | rfl | cases hn

theorem isReference_iff_form :
    type.isReferenceComparableType = true ↔ type.underlying.form = 6 := by
  unfold isReferenceComparableType
  cases type.underlying <;> simp [form]

theorem isNilOnly_of_form (hf : type.underlying.form < 9) :
    type.isNilOnlyComparableType = false := by
  unfold isNilOnlyComparableType
  revert hf
  cases type.underlying <;> simp [form]

theorem isPrimitive_of_form (hf : 6 ≤ type.underlying.form) : type.isPrimitive = false := by
  rw [Bool.eq_false_iff]
  intro hp
  rw [underlying_of_isPrimitive hp] at hf
  revert hf hp
  cases type <;> simp [form, isPrimitive]

theorem sameRuntimeType_self (type : RuntimeType) : sameRuntimeType m type type = true :=
  beq_self_eq_true _

theorem comparableUnder_underlying (type : RuntimeType) (seen : List (List Nat)) :
    comparableUnder m type seen = comparableUnder m type.underlying seen := by
  cases type with
  | named name type => exact comparableUnder_underlying type seen
  | _ => rfl

theorem isComparable_of_form (hf : type.underlying.form < 7) :
    isComparableRuntimeType m type = true := by
  rw [isComparableRuntimeType, comparableUnder_underlying]
  revert hf
  cases type.underlying <;> simp [form, comparableUnder]

theorem concrete_of_form (hf : value.form < 9) : isDynamicComparableWrapper value = false := by
  cases value <;> first | rfl | simp [GuestValue.form] at hf

theorem WellTyped.comparable (hv : WellTyped m value)
    (hf : value.form < 7) : isComparableRuntimeType m value.type = true := by
  refine isComparable_of_form ?_
  rw [← hv.form_eq (concrete_of_form (by omega))]
  exact hf

theorem equalConcreteValues_of_not_primitive (ht : left.type = right.type)
    (hp : left.type.isPrimitive = false)
    (hnil : left.type.isNilOnlyComparableType = false)
    (hr : left.type.isReferenceComparableType = false) :
    equalConcreteValues m compare left right =
      if isComparableRuntimeType m left.type then equalShaped m compare left right
      else .error (.error (m.typeText left.type ++ " is not comparable")) := by
  have hn : left.type.predeclaredNumericComparable = false := by
    rw [Bool.eq_false_iff] at hp ⊢
    exact mt isPrimitive_of_numeric hp
  have hs : sameRuntimeType m left.type right.type = true := by
    rw [ht]
    exact sameRuntimeType_self _
  unfold equalConcreteValues comparableOperandTypes
  simp only [hp, hn, hs, hnil, hr, Bool.false_and, Bool.true_or,
    Bool.not_true, Bool.false_eq_true, if_false]
  cases isComparableRuntimeType m left.type <;> rfl

theorem equalConcreteValues_reference {left right : Reference}
    (hr : type.isReferenceComparableType = true) :
    equalConcreteValues m compare (.reference type left) (.reference type right) =
      .ok (referenceComparableIdentity left == referenceComparableIdentity right) := by
  have hf := isReference_iff_form.mp hr
  have hp := isPrimitive_of_form (Nat.le_of_eq hf.symm)
  have hn : type.predeclaredNumericComparable = false := by
    rw [Bool.eq_false_iff] at hp ⊢
    exact mt isPrimitive_of_numeric hp
  have hnil : type.isNilOnlyComparableType = false := isNilOnly_of_form (by omega)
  unfold equalConcreteValues comparableOperandTypes
  simp [GuestValue.type, hp, hn, hnil, hr, sameRuntimeType_self]

/-- A comparison of two values of one type. -/
theorem equalConcreteValues_shaped (htw : Twins left right)
    (hl : WellTyped m left) (hf : left.form ≠ 6) :
    equalConcreteValues m compare left right =
      if isComparableRuntimeType m left.type then equalShaped m compare left right
      else .error (.error (m.typeText left.type ++ " is not comparable")) := by
  have ht : left.type = right.type := by cases htw <;> rfl
  have hc : isDynamicComparableWrapper left = false := by cases htw <;> rfl
  have hun := hl.form_eq hc
  have hbd : left.form < 9 := by cases htw <;> simp [GuestValue.form]
  have hnil := isNilOnly_of_form (hun ▸ hbd)
  have hr : left.type.isReferenceComparableType = false := by
    rw [Bool.eq_false_iff, ne_eq, isReference_iff_form, ← hun]
    exact hf
  cases hpr : left.type.isPrimitive with
  | false => exact equalConcreteValues_of_not_primitive ht hpr hnil hr
  | true =>
    have hs := underlying_of_isPrimitive hpr
    have hlo : left.type.underlying.form < 6 := by
      by_contra hh
      rw [isPrimitive_of_form (by omega)] at hpr
      cases hpr
    rw [if_pos (isComparable_of_form (by omega))]
    have hpri : equalPrimitives m left right = some (equalShaped m compare left right) := by
      cases htw with
      | bool | string | signed | unsigned | float | complex =>
        cases hl
        rename_i hu
        have hp := hs.symm.trans hu
        subst hp
        simp [equalPrimitives, equalShaped, GuestValue.numeric?, GuestValue.type,
          underlying, equalNumbers, sameRuntimeType_self]
      | reference => exact absurd rfl hf
      | array | struct =>
        rw [← hun] at hlo
        simp [GuestValue.form] at hlo
    unfold equalConcreteValues
    simp only [hpr, ← ht, Bool.and_self, if_true, hpri]

end Comparison

section Boxes

variable {m : ModuleInstance}

variable {limit : Nat} {inner : GuestValue}

theorem unwrapDynamic_concrete (hunw : unwrapDynamic limit value = .ok (some inner)) :
    isDynamicComparableWrapper inner = false := by
  induction limit generalizing value with
  | zero => cases hunw
  | succ limit ih =>
    cases value with
    | interface type boxed => exact ih hunw
    | nilInterface type => cases hunw
    | _ =>
      cases hunw
      rfl

variable {value : GuestValue} {motive : GuestValue → Prop}

theorem unwrapDynamic_of_concrete (hc : isDynamicComparableWrapper value = false) :
    unwrapDynamic (limit + 1) value = .ok (some value) := by
  cases value <;> first | rfl | cases hc

/-- What holds of the contents and passes to a box holds of the boxes around them. -/
theorem unwrap_induction (hunw : unwrapDynamic limit value = .ok (some inner)) (hi : motive inner)
    (hb : ∀ type boxed, motive boxed → motive (.interface type boxed)) : motive value := by
  induction limit generalizing value with
  | zero => cases hunw
  | succ limit ih =>
    cases value with
    | interface type boxed => exact hb type boxed (ih hunw)
    | nilInterface type => cases hunw
    | _ =>
      cases hunw
      exact hi

/-- A property that a box has when its contents have it. -/
theorem unwrap_iff {property : GuestValue → Prop}
    (hunw : unwrapDynamic limit value = .ok (some inner))
    (hb : ∀ type boxed, property (.interface type boxed) ↔ property boxed) :
    property value ↔ property inner :=
  unwrap_induction hunw Iff.rfl fun type boxed ih => (hb type boxed).trans ih

theorem WellTyped.unwrap (hv : WellTyped m value)
    (hunw : unwrapDynamic limit value = .ok (some inner)) :
    WellTyped m inner := by
  refine @unwrap_induction _ _ _ (fun value => WellTyped m value → WellTyped m inner) hunw id
    (fun type boxed ih hb => ?_) hv
  cases hb with
  | interface ht hi => exact ih hi

/-- Values are taken apart through their boxes. -/
theorem WellTyped.concrete_induction
    (scalar : ∀ value, WellTyped m value → value.form < 7 → motive value)
    (array : ∀ type items, WellTyped m (.array type items) →
      (∀ item ∈ items, ∀ limit inner, unwrapDynamic limit item = .ok (some inner) →
        motive inner) → motive (.array type items))
    (struct : ∀ type fields, WellTyped m (.struct type fields) →
      (∀ field ∈ fields, ∀ limit inner, unwrapDynamic limit field.2 = .ok (some inner) →
        motive inner) → motive (.struct type fields))
    (hv : WellTyped m value) :
    ∀ limit inner, unwrapDynamic limit value = .ok (some inner) → motive inner := by
  have hs : ∀ {value : GuestValue}, isDynamicComparableWrapper value = false → motive value →
      ∀ limit inner, unwrapDynamic limit value = .ok (some inner) → motive inner := by
    intro value hc hm limit inner hunw
    cases limit with
    | zero => cases hunw
    | succ limit =>
      rw [unwrapDynamic_of_concrete hc] at hunw
      cases hunw
      exact hm
  induction hv with
  | bool | string | signed | unsigned | float | complex | reference =>
    exact hs rfl (scalar _ (by constructor <;> assumption) (by simp [GuestValue.form]))
  | array hd hu hty hi ih =>
    exact hs rfl (array _ _ (.array hd hu hty hi) ih)
  | struct hd hu hty hf ih =>
    exact hs rfl (struct _ _ (.struct hd hu hty hf) ih)
  | nilInterface ht =>
    intro limit inner hunw
    cases limit <;> cases hunw
  | interface ht hin ih =>
    intro limit inner hunw
    cases limit with
    | zero => cases hunw
    | succ limit => exact ih limit inner hunw

theorem mapKeyWireFrom_concrete (hc : isDynamicComparableWrapper value = false) (limit : Nat)
    (seen : List (List Nat)) :
    mapKeyWireFrom m value (limit + 1) seen = mapKeyWireFrom m value 1 seen := by
  cases value with
  | nilInterface | interface => cases hc
  | _ => simp only [mapKeyWireFrom]

/-- `mapKeyWire` looks at what is in the boxes. -/
theorem mapKeyWireFrom_unwrap (value : GuestValue) (limit : Nat) (seen : List (List Nat)) :
    mapKeyWireFrom m value limit seen = match unwrapDynamic limit value with
      | .error fault => .error fault
      | .ok none => .ok .nilInterface
      | .ok (some inner) => mapKeyWireFrom m inner 1 seen := by
  induction limit generalizing value with
  | zero => cases value <;> simp only [mapKeyWireFrom, unwrapDynamic]
  | succ limit ih =>
    cases value with
    | interface type boxed =>
      exact ih boxed
    | nilInterface type => simp only [mapKeyWireFrom, unwrapDynamic]
    | _ =>
      exact mapKeyWireFrom_concrete rfl _ _

variable {remaining : Nat} {left right leftInner rightInner : GuestValue}

theorem equalConcreteValues_comparable {compare : GuestValue → GuestValue → Except Fault Bool}
    (hl : WellTyped m left) (ht : Twins left right)
    (hc : isComparableRuntimeType m left.type = false) :
    ∃ fault, equalConcreteValues m compare left right = .error fault := by
  have hco : isDynamicComparableWrapper left = false := by cases ht <;> rfl
  have hf : left.form ≠ 6 := by
    intro hf
    have := hl.form_eq hco
    rw [isComparable_of_form (by omega)] at hc
    cases hc
  rw [equalConcreteValues_shaped ht hl hf, hc]
  exact ⟨_, rfl⟩

/-- Values with the same dynamic type are compared as what is in their boxes. -/
theorem equalValuesSeen_some (hl : WellTyped m left) (hr : WellTyped m right)
    (hunw : unwrapComparableDynamicValue left = .ok (some leftInner))
    (hu : unwrapComparableDynamicValue right = .ok (some rightInner))
    (ht : leftInner.type = rightInner.type) (result : Bool) :
    equalValuesSeen m (remaining + 2) left right = .ok result ↔
      equalConcreteValues m (equalValuesSeen m remaining) leftInner rightInner = .ok result := by
  have htw := (hl.unwrap hunw).twins (hr.unwrap hu)
    (unwrapDynamic_concrete hunw) (unwrapDynamic_concrete hu) ht
  rw [equalValuesSeen]
  split_ifs with hd
  · simp only [hunw, hu, Bind.bind, Except.bind, ht, sameRuntimeType_self,
      Bool.not_true, Bool.false_eq_true, if_false]
    cases hc : isComparableRuntimeType m rightInner.type with
    | true => simp
    | false =>
      rw [← ht] at hc
      obtain ⟨fault, hf⟩ := @equalConcreteValues_comparable _ _ _
        (equalValuesSeen m remaining) (hl.unwrap hunw) htw hc
      simp [hf]
  · simp only [Bool.or_eq_true, not_or, Bool.not_eq_true] at hd
    rw [unwrapComparableDynamicValue, unwrapDynamic_of_concrete hd.1] at hunw
    rw [unwrapComparableDynamicValue, unwrapDynamic_of_concrete hd.2] at hu
    cases hunw
    cases hu
    exact Iff.rfl

theorem dynamic_of_unwrap_none (hunw : unwrapDynamic limit value = .ok none) :
    isDynamicComparableWrapper value = true := by
  cases limit with
  | zero => cases hunw
  | succ limit => cases value <;> first | rfl | cases hunw

/-- A nil interface equals a nil interface only. -/
theorem equalValuesSeen_none {leftInner rightInner : Option GuestValue}
    (hunw : unwrapComparableDynamicValue left = .ok leftInner)
    (hu : unwrapComparableDynamicValue right = .ok rightInner)
    (hnone : leftInner = none ∨ rightInner = none) :
    equalValuesSeen m (remaining + 2) left right = .ok (leftInner.isNone && rightInner.isNone) := by
  have hd : (isDynamicComparableWrapper left || isDynamicComparableWrapper right) =
      true := by
    rcases hnone with rfl | rfl
    · rw [dynamic_of_unwrap_none hunw, Bool.true_or]
    · rw [dynamic_of_unwrap_none hu, Bool.or_true]
  rw [equalValuesSeen, if_pos hd]
  simp only [hunw, hu, Bind.bind, Except.bind]
  rcases hnone with rfl | rfl
  · cases rightInner <;> rfl
  · cases leftInner <;> rfl

/-- Boxes with different dynamic types are not equal. -/
theorem equalValuesSeen_ne (hunw : unwrapComparableDynamicValue left = .ok (some leftInner))
    (hu : unwrapComparableDynamicValue right = .ok (some rightInner))
    (hd : (isDynamicComparableWrapper left || isDynamicComparableWrapper right) = true)
    (ht : sameRuntimeType m leftInner.type rightInner.type = false) :
    equalValuesSeen m (remaining + 2) left right = .ok false := by
  rw [equalValuesSeen, if_pos hd]
  simp [hunw, hu, Bind.bind, Except.bind, ht]

end Boxes

section Parts

variable {m : ModuleInstance} {seen : List (List Nat)}

/-- The text occurs in the value. -/
inductive HasText (text : List Nat) : GuestValue → Prop
  | here {type : RuntimeType} : HasText text (.string type text)
  | item {type : RuntimeType} {items : List GuestValue} {item : GuestValue} :
      item ∈ items → HasText text item → HasText text (.array type items)
  | field {type : RuntimeType} {fields : List (String × GuestValue)} {field : String × GuestValue} :
      field ∈ fields → HasText text field.2 → HasText text (.struct type fields)
  | boxed {type : RuntimeType} {inner : GuestValue} :
      HasText text inner → HasText text (.interface type inner)

/-- A struct of the type occurs in the value. -/
inductive HasStruct (type : RuntimeType) : GuestValue → Prop
  | here {fields : List (String × GuestValue)} : HasStruct type (.struct type fields)
  | item {arrayType : RuntimeType} {items : List GuestValue} {item : GuestValue} :
      item ∈ items → HasStruct type item → HasStruct type (.array arrayType items)
  | field {outer : RuntimeType} {fields : List (String × GuestValue)}
      {field : String × GuestValue} :
      field ∈ fields → HasStruct type field.2 → HasStruct type (.struct outer fields)
  | boxed {boxType : RuntimeType} {inner : GuestValue} :
      HasStruct type inner → HasStruct type (.interface boxType inner)

/-- No struct lies inside of a struct of its type. -/
inductive NonRecursive : GuestValue → Prop
  | scalar {value : GuestValue} : value.form < 7 → NonRecursive value
  | array {type : RuntimeType} {items : List GuestValue} :
      (∀ item ∈ items, NonRecursive item) → NonRecursive (.array type items)
  | struct {type : RuntimeType} {fields : List (String × GuestValue)} :
      (∀ field ∈ fields, ¬ HasStruct type field.2) →
      (∀ field ∈ fields, NonRecursive field.2) → NonRecursive (.struct type fields)
  | nilInterface {type : RuntimeType} : NonRecursive (.nilInterface type)
  | interface {type : RuntimeType} {inner : GuestValue} : NonRecursive inner →
      NonRecursive (.interface type inner)

section Unwrap

variable {limit : Nat} {val inner : GuestValue} (hunw : unwrapDynamic limit val = .ok (some inner))

include hunw

theorem hasText_unwrap {text : List Nat} : HasText text val ↔ HasText text inner := by
  refine unwrap_iff hunw fun type boxed => ⟨fun h => ?_, .boxed⟩
  cases h
  assumption

theorem hasStruct_unwrap {type : RuntimeType} : HasStruct type val ↔ HasStruct type inner := by
  refine unwrap_iff hunw fun type boxed => ⟨fun h => ?_, .boxed⟩
  cases h
  assumption

theorem nonRecursive_unwrap : NonRecursive val ↔ NonRecursive inner := by
  refine unwrap_iff hunw fun type boxed => ⟨fun h => ?_, .interface⟩
  cases h with
  | scalar hf => simp [GuestValue.form] at hf
  | interface h => exact h

end Unwrap

theorem collect_eq_ok {α β ε : Type} {step : α → Except ε β} {wrap : Nat → α → ε → ε}
    {collect : List α → Nat → Except ε (List β)} (hnil : ∀ idx, collect [] idx = .ok [])
    (hcons : ∀ part rest idx, collect (part :: rest) idx = match step part with
      | .error fault => .error (wrap idx part fault)
      | .ok made => (collect rest (idx + 1)).map (made :: ·))
    {parts : List α} {idx : Nat} {results : List β} :
    collect parts idx = .ok results ↔
      List.Forall₂ (fun part made => step part = .ok made) parts results := by
  induction parts generalizing idx results with
  | nil =>
    rw [hnil, forall₂_nil_left_iff]
    exact ⟨fun h => by cases h; rfl, fun h => by rw [h]⟩
  | cons part rest ih =>
    rw [hcons, forall₂_cons_left_iff]
    cases hs : step part with
    | error fault => simp
    | ok made =>
      simp only [← @ih (idx + 1)]
      cases collect rest (idx + 1) <;> simp [Except.map, eq_comm]

theorem mapKeyItems_eq_ok {items : List GuestValue} {idx : Nat} {wires : List Wire} :
    mapKeyItems m items idx seen = .ok wires ↔
      List.Forall₂ (fun item wire => mapKeyWireFrom m item 64 seen = .ok wire)
        items wires :=
  @collect_eq_ok _ _ _ _ (fun idx _ => wrapFault ("array key element " ++ toString idx))
    (fun items idx => mapKeyItems m items idx seen) (fun _ => rfl)
    (fun item _ _ => by
      rw [mapKeyItems]
      cases mapKeyWireFrom m item 64 seen <;> rfl) _ _ _

theorem mapKeyFields_eq_ok {fields : List (String × GuestValue)} {wires : List (String × Wire)} :
    mapKeyFields m fields seen = .ok wires ↔ List.Forall₂ (fun field wire => field.1 = wire.1 ∧
        mapKeyWireFrom m field.2 64 seen = .ok wire.2) fields wires := by
  have hc := @collect_eq_ok _ _ _
    (fun field : String × GuestValue => (mapKeyWireFrom m field.2 64 seen).map (field.1, ·))
    (fun _ field => wrapFault ("struct key field " ++ quoted field.1))
    (fun fields _ => mapKeyFields m fields seen) (fun _ => rfl)
    (fun field rest _ => by
      rw [mapKeyFields]
      cases mapKeyWireFrom m field.2 64 seen <;> rfl) fields 0 wires
  rw [hc]
  refine iff_of_eq (congrArg (List.Forall₂ · fields wires) ?_)
  funext field wire
  cases mapKeyWireFrom m field.2 64 seen <;> simp [Except.map, Prod.ext_iff]

variable {compare : GuestValue → GuestValue → Except Fault Bool}

theorem equalItems_eq_true {idx : Nat} {left right : List GuestValue}
    (hlen : left.length = right.length) :
    equalItems compare idx left right = .ok true ↔
      List.Forall₂ (fun left right => compare left right = .ok true) left right := by
  induction left generalizing idx right with
  | nil =>
    cases length_eq_zero_iff.mp hlen.symm
    simp [equalItems]
  | cons item left ih =>
    cases right with
    | nil => cases hlen
    | cons item' right =>
      rw [equalItems, forall₂_cons]
      cases compare item item' with
      | error fault => simp
      | ok res =>
        cases res with
        | false => simp
        | true => simpa using ih (Nat.succ.inj hlen)

/-- The two loops differ in the texts of their errors only. -/
theorem equalFields_eq_ok {left right : List (String × GuestValue)} {idx : Nat} {result : Bool}
    (hlen : left.length = right.length) : equalFields compare left right = .ok result ↔
      equalItems compare idx (left.map Prod.snd) (right.map Prod.snd) = .ok result := by
  induction left generalizing idx right with
  | nil => rfl
  | cons field left ih =>
    cases right with
    | nil => cases hlen
    | cons field' right =>
      rw [map_cons, map_cons, equalItems, equalFields]
      cases compare field.2 field'.2 with
      | error fault => simp
      | ok same =>
        cases same with
        | false => rfl
        | true => exact ih (Nat.succ.inj hlen)

theorem equalFields_eq_true {left right : List (String × GuestValue)}
    (hlen : left.length = right.length) :
    equalFields compare left right = .ok true ↔
      List.Forall₂ (fun left right => compare left.2 right.2 = .ok true) left right := by
  rw [@equalFields_eq_ok _ _ _ 0 _ hlen, equalItems_eq_true (by simpa using hlen),
    forall₂_map_left_iff, forall₂_map_right_iff]

/-- Two lists of wires are compared wire by wire. -/
theorem map_eq_iff_forall₂ {α β γ : Type} {related agree : α → α → Prop}
    {wired wired' : α → β → Prop} {json : β → γ} {items items' : List α}
    {wires wires' : List β} (hr : List.Forall₂ related items items')
    (hwi : List.Forall₂ wired items wires) (hwir : List.Forall₂ wired' items' wires')
    (ha : ∀ item item' wire wire', item ∈ items → related item item' →
      wired item wire → wired' item' wire' → (json wire = json wire' ↔ agree item item')) :
    wires.map json = wires'.map json ↔ List.Forall₂ agree items items' := by
  induction hr generalizing wires wires' with
  | nil =>
    cases hwi
    cases hwir
    simp
  | @cons item item' items items' hh _ ih =>
    cases hwi with
    | cons hw hwi =>
      cases hwir with
      | cons hwire' hwir =>
        rw [map_cons, map_cons, cons.injEq, forall₂_cons, ha _ _ _ _ mem_cons_self hh hw hwire',
          ih hwi hwir fun item item' wire wire' hi =>
            ha item item' wire wire' (mem_cons_of_mem _ hi)]

end Parts

end MiniGo.Runtime.MapKey
