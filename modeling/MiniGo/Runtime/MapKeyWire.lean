/-
What the text of a map key says.

The texts in a key are hexadecimal numbers, identities of references and strings
of the guest. All but the last are UTF-8, so they are known from the JSON text,
and a reference has the same identity in a key as in a comparison.
-/
import MiniGo.Runtime.MapKey

namespace MiniGo.Runtime.MapKey

open Lib List

section Texts

variable {first second : Nat} {num byte : Nat}

theorem mem_hexText (hb : byte ∈ hexText num) : byte < 0x80 ∧ byte ≠ 0x3A := by
  obtain ⟨digit, hd, rfl⟩ := mem_map.mp hb
  obtain ⟨val, hv, rfl⟩ := mem_toDigits (by decide) (by decide) hd
  have hall : ∀ val < 16, val.digitChar.toNat < 0x80 ∧ val.digitChar.toNat ≠ 0x3A := by
    decide
  exact hall val hv

theorem hexText_injective (heq : hexText first = hexText second) : first = second :=
  toDigits_injective (by decide) (by decide)
    (map_injective_iff.mpr (fun _ _ => Char.toNat_inj.mp) heq)

/-- A number, and what follows it from a colon on. -/
theorem hexText_cancel {rest rest' : List Nat}
    (hr : ∀ byte ∈ rest.head?, byte = 0x3A) (hre : ∀ byte ∈ rest'.head?, byte = 0x3A)
    (heq : hexText first ++ rest = hexText second ++ rest') :
    first = second ∧ rest = rest' := by
  obtain ⟨hd, hs⟩ := cancel_of_forall (fun _ hb => (mem_hexText hb).2)
    (fun _ hb => (mem_hexText hb).2) (fun byte hb => not_not.mpr (hr byte hb))
    (fun byte hb => not_not.mpr (hre byte hb)) heq
  exact ⟨hexText_injective hd, hs⟩

theorem validText_hexText (num : Nat) : validText (hexText num) :=
  validText_ascii fun _ hb => (mem_hexText hb).1

theorem ends_colon (rest : List Nat) : Ends (ascii ":" ++ rest) := by
  intro byte hb
  cases hb
  unfold isDigit
  decide

theorem mem_decimal (hb : byte ∈ decimal num) : byte < 0x80 := by
  have := isDigit_of_mem_decimal hb
  unfold isDigit at this
  omega

end Texts

section References

/-- An identity that is not the text of an address or of nil. -/
def Reference.Formed : Reference → Prop
  | .identity text => validText text ∧ ¬ ascii "0x" <+: text ∧ text ≠ ascii "nil"
  | _ => True

theorem validText_prepend {first second : List Nat} (hf : ∀ byte ∈ first, byte < 0x80)
    (hs : validText second) : validText (first ++ second) := by
  induction first with
  | nil => exact hs
  | cons byte first ih =>
    rw [forall_mem_cons] at hf
    have hr : isRune [byte] = true := by simpa [isRune] using hf.1
    have ha := runes_append ⟨[byte], hr⟩ (first ++ second)
    rw [singleton_append] at ha
    rw [validText, cons_append, ha, mem_cons, not_or]
    exact ⟨by simp, ih hf.2⟩

theorem ascii_lt : ∀ text ∈ ["nil", "pointer:", "waitable:", "mutex:", "0x", ":"],
    ∀ byte ∈ ascii text, byte < 0x80 := by
  decide

theorem validText_mapKeyIdentity {tgt : Reference} (hf : tgt.Formed) :
    validText (referenceComparableMapKeyIdentity tgt) := by
  have ha : ∀ addr, ∀ byte ∈ addressText addr, byte < 0x80 := by
    intro addr byte hb
    rcases mem_append.mp hb with hb | hb
    · exact ascii_lt "0x" (by simp) byte hb
    · exact (mem_hexText hb).1
  cases tgt with
  | nil => exact validText_ascii (ascii_lt "nil" (by simp))
  | storage owner slot gen off =>
    refine validText_ascii fun byte hb => ?_
    simp only [referenceComparableMapKeyIdentity, mem_append] at hb
    rcases hb with ((((((h | h) | h) | h) | h) | h) | h) | h
    · exact ascii_lt "pointer:" (by simp) byte h
    · exact ha _ byte h
    · exact ascii_lt ":" (by simp) byte h
    · exact mem_decimal h
    · exact ascii_lt ":" (by simp) byte h
    · exact mem_decimal h
    · exact ascii_lt ":" (by simp) byte h
    · exact mem_decimal h
  | identity text => exact validText_prepend (ascii_lt "pointer:" (by simp)) hf.1
  | pointer addr =>
    exact validText_prepend (ascii_lt "pointer:" (by simp)) (validText_ascii (ha _))
  | waitable addr =>
    exact validText_prepend (ascii_lt "waitable:" (by simp)) (validText_ascii (ha _))
  | mutex addr =>
    exact validText_prepend (ascii_lt "mutex:" (by simp)) (validText_ascii (ha _))

theorem storageText_injective {owner owner' slot slot' gen generation' off
    offset' : Nat}
    (heq : referenceComparableMapKeyIdentity (.storage owner slot gen off) =
      referenceComparableMapKeyIdentity (.storage owner' slot' generation' offset')) :
    owner = owner' ∧ slot = slot' ∧ gen = generation' ∧ off = offset' := by
  simp only [referenceComparableMapKeyIdentity, addressText, append_assoc] at heq
  obtain ⟨rfl, hs⟩ := hexText_cancel (by simp [ascii]) (by simp [ascii])
    (append_cancel_left (append_cancel_left heq))
  obtain ⟨rfl, hg⟩ :=
    decimal_cancel (ends_colon _) (ends_colon _) (append_cancel_left hs)
  obtain ⟨rfl, ho⟩ :=
    decimal_cancel (ends_colon _) (ends_colon _) (append_cancel_left hg)
  have hl := append_cancel_left ho
  rw [← append_nil (decimal off), ← append_nil (decimal offset')] at hl
  have he : Ends [] := by simp [Ends]
  exact ⟨rfl, rfl, rfl, (decimal_cancel he he hl).1⟩

theorem storageText_ne_pointerText (owner slot gen off addr : Nat) :
    referenceComparableMapKeyIdentity (.storage owner slot gen off) ≠
      referenceComparableMapKeyIdentity (.pointer addr) := by
  intro heq
  simp only [referenceComparableMapKeyIdentity, addressText, append_assoc] at heq
  have ht := append_cancel_left (append_cancel_left heq)
  rw [← append_nil (hexText addr)] at ht
  have hc := (hexText_cancel (by simp [ascii]) (by simp) ht).2
  simp [ascii] at hc

theorem identityText_ne {text rest : List Nat} (hf : Reference.Formed (.identity text)) :
    ascii "pointer:" ++ text ≠ ascii "pointer:" ++ (ascii "0x" ++ rest) :=
  fun heq => hf.2.1 ⟨rest, (append_cancel_left heq).symm⟩

/-- The letter that the identity of a reference begins with. -/
def Reference.letter : Reference → Nat
  | .nil => 0x6E
  | .waitable _ => 0x77
  | .mutex _ => 0x6D
  | .storage .. | .identity _ | .pointer _ => 0x70

variable {first second : Reference}

theorem mapKeyIdentity_letter (heq : referenceComparableMapKeyIdentity first =
      referenceComparableMapKeyIdentity second) : first.letter = second.letter := by
  have hh : ∀ tgt, ∃ rest,
      referenceComparableMapKeyIdentity tgt = Reference.letter tgt :: rest := by
    intro tgt
    cases tgt <;> exact ⟨_, rfl⟩
  obtain ⟨rest, hr⟩ := hh first
  obtain ⟨rest', hre⟩ := hh second
  exact (cons.inj (hr.symm.trans (heq.trans hre))).1

/-- Different references have different identities in a key. -/
theorem mapKeyIdentity_injective (hf : first.Formed) (hs : second.Formed)
    (heq : referenceComparableMapKeyIdentity first =
      referenceComparableMapKeyIdentity second) : first = second := by
  have hl := mapKeyIdentity_letter heq
  cases first with
  | nil =>
    cases second with
    | nil => rfl
    | _ => cases hl
  | storage owner slot gen off =>
    cases second with
    | storage owner' slot' generation' offset' =>
      obtain ⟨rfl, rfl, rfl, rfl⟩ := storageText_injective heq
      rfl
    | identity text =>
      simp only [referenceComparableMapKeyIdentity, addressText, append_assoc] at heq
      exact absurd heq.symm (identityText_ne hs)
    | pointer addr => exact absurd heq (storageText_ne_pointerText _ _ _ _ _)
    | _ => cases hl
  | identity text =>
    cases second with
    | storage owner slot gen off =>
      simp only [referenceComparableMapKeyIdentity, addressText, append_assoc] at heq
      exact absurd heq (identityText_ne hf)
    | identity text' => rw [append_cancel_left heq]
    | pointer addr => exact absurd heq (identityText_ne hf)
    | _ => cases hl
  | pointer addr =>
    cases second with
    | storage owner slot gen off =>
      exact absurd heq.symm (storageText_ne_pointerText _ _ _ _ _)
    | identity text => exact absurd heq.symm (identityText_ne hs)
    | pointer address' =>
      rw [hexText_injective (append_cancel_left (append_cancel_left heq))]
    | _ => cases hl
  | waitable addr =>
    cases second with
    | waitable address' =>
      rw [hexText_injective (append_cancel_left (append_cancel_left heq))]
    | _ => cases hl
  | mutex addr =>
    cases second with
    | mutex address' =>
      rw [hexText_injective (append_cancel_left (append_cancel_left heq))]
    | _ => cases hl

theorem comparableIdentity_injective (hf : first.Formed) (hs : second.Formed)
    (heq : referenceComparableIdentity first = referenceComparableIdentity second) :
    first = second := by
  cases first <;> cases second <;>
    simp_all [referenceComparableIdentity, Reference.Formed]

/-- A key and a comparison tell the same references apart. -/
theorem mapKeyIdentity_eq_iff (hf : first.Formed) (hs : second.Formed) :
    referenceComparableMapKeyIdentity first = referenceComparableMapKeyIdentity second ↔
      referenceComparableIdentity first = referenceComparableIdentity second := by
  constructor
  · intro heq
    rw [mapKeyIdentity_injective hf hs heq]
  · intro heq
    rw [comparableIdentity_injective hf hs heq]

end References

section Floats

theorem isNaN_of_isZero {bits : UInt64} (hz : isZero bits = true) : isNaN bits = false := by
  simp only [isZero, Bool.or_eq_true, beq_iff_eq] at hz
  rcases hz with rfl | rfl <;> decide

theorem isNaN_normalZero (bits : UInt64) : isNaN (normalZero bits) = isNaN bits := by
  unfold normalZero
  split_ifs with hz
  · rw [isNaN_of_isZero hz]
    decide
  · rfl

/-- A float that is not NaN equals those with its key. -/
theorem normalZero_eq_iff {first second : UInt64} (hn : isNaN first = false) :
    normalZero first = normalZero second ↔ floatEqual first second = true := by
  have hz : isZero 0 = true := by decide
  simp only [floatEqual, hn, Bool.not_false, Bool.true_and, Bool.and_eq_true,
    Bool.not_eq_true', Bool.or_eq_true, beq_iff_eq]
  constructor
  · intro heq
    refine ⟨by rw [← isNaN_normalZero, ← heq, isNaN_normalZero, hn], ?_⟩
    unfold normalZero at heq
    split_ifs at heq with hf hs hs
    · exact .inr ⟨hf, hs⟩
    · rw [← heq] at hs
      exact absurd hz hs
    · rw [heq] at hf
      exact absurd hz hf
    · exact .inl heq
  · rintro ⟨-, rfl | ⟨hf, hs⟩⟩
    · rfl
    · rw [normalZero, normalZero, if_pos hf, if_pos hs]

end Floats

section Wires

variable {type type' : List Nat}

theorem wireObject_some_iff {name : String} {val value' : Json} :
    wireObject type (some (name, val)) = wireObject type' (some (name, value')) ↔
      runes type = runes type' ∧ val = value' := by
  simp [wireObject]

theorem jsonItems_eq_map (items : List Wire) : jsonItems items = items.map Wire.json := by
  induction items with
  | nil => rfl
  | cons item items ih => rw [jsonItems, ih, map_cons]

/-- The JSON value of a field. -/
def fieldJson (field : String × Wire) : Json :=
  .object [(runes (ascii "name"), .string (runes (utf8 field.1))),
    (runes (ascii "value"), field.2.json)]

theorem jsonFields_eq_map (fields : List (String × Wire)) :
    jsonFields fields = fields.map fieldJson := by
  induction fields with
  | nil => rfl
  | cons field fields ih => rw [jsonFields, ih, map_cons, fieldJson]

theorem json_array_iff {items items' : List Wire} :
    (Wire.array type items).json = (Wire.array type' items').json ↔
      runes type = runes type' ∧ items.map Wire.json = items'.map Wire.json := by
  cases items <;> cases items' <;> simp [Wire.json, wireObject, jsonItems_eq_map]

theorem json_struct_iff {fields fields' : List (String × Wire)} :
    (Wire.struct type fields).json = (Wire.struct type' fields').json ↔
      runes type = runes type' ∧ fields.map fieldJson = fields'.map fieldJson := by
  rcases fields with - | ⟨⟨name, val⟩, fields⟩ <;>
    rcases fields' with - | ⟨⟨name', value'⟩, fields'⟩ <;>
    simp [Wire.json, wireObject, jsonFields_eq_map, fieldJson]

/-- The type of a wire. -/
def Wire.typeText : Wire → List Nat
  | .nilInterface => ascii "nil-interface"
  | .bool type _ | .string type _ | .int64 type _ | .uint64 type _ | .float type _
  | .complex type _ _ | .ref type _ | .array type _ | .struct type _ => type

theorem json_typeText {first second : Wire} (heq : first.json = second.json) :
    runes first.typeText = runes second.typeText := by
  have ho : ∀ wire : Wire, ∃ fields, wire.json =
      .object ((runes (ascii "type"), .string (runes wire.typeText)) :: fields) := by
    intro wire
    cases wire with
    | array type items => cases items <;> exact ⟨_, rfl⟩
    | struct type fields => rcases fields with - | ⟨⟨name, val⟩, fields⟩ <;> exact ⟨_, rfl⟩
    | _ => exact ⟨_, rfl⟩
  obtain ⟨fields, hfl⟩ := ho first
  obtain ⟨fields', hf⟩ := ho second
  rw [hfl, hf] at heq
  simp only [Json.object.injEq, cons.injEq, Prod.mk.injEq, true_and, Json.string.injEq] at heq
  exact heq.1

end Wires

end MiniGo.Runtime.MapKey
