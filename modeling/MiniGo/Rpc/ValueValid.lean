/-
What `validateValues` accepts, without its order of visiting.

The checks of a value do not depend on those made before; only the running totals
do, and they grow. So the accepted values are the ones that `Fits` describes whose
totals stay within the limits, and rearranging entries or fields keeps a value valid.
-/
import MiniGo.Rpc.Value

namespace MiniGo.Rpc

open Data Value Result List

def Data.ownBytes {V : Type} : Data V → Nat
  | .string value => value.length
  | .bytes value => value.length
  | _ => 0

/-- The bytes that `validate` counts. -/
def Value.byteCount : Value → Nat :=
  Value.fold fun type resource data =>
    type.length + match resource with
      | some _ => 0
      | none => data.ownBytes + data.children.sum

/-- The elements that `validate` counts. -/
def Value.elementCount : Value → Nat :=
  Value.fold fun _ resource data =>
    1 + match resource with
      | some _ => 0
      | none => data.children.sum

/-- The checks of one value that concern neither its parts nor the totals. -/
def Data.Sound (type : Bytes) (data : Data Value) : Prop :=
  validateValueShape type data = true ∧ match data with
    | .string value => validUTF8 value = true
    | .record fields => (∀ field ∈ fields, field.id ≠ 0) ∧ (fields.map Field.id).Nodup
    | _ => True

/-- A value that passes every check but those of the totals. -/
def Value.Fits : Nat → Bool → Value → Prop
  | 0, _, _ => False
  | levels + 1, top, .mk type resource data =>
    type ≠ [] ∧ validUTF8 type = true ∧ match resource with
      | some ref => top = true ∧ data = .nil ∧ validateResourceRef ref = true ∧
          trimSpace type = ref.typeHash
      | none => data.Sound type ∧ ∀ child ∈ data.children, Value.Fits levels false child

def Count.Within (limits : Limits) (count : Count) : Prop :=
  Admits limits.maxMessageBytes count.bytes ∧ Admits limits.maxValueElements count.elements

theorem Count.within_eq_ok {limits : Limits} {count res : Count} :
    Count.within limits count = .ok res ↔ res = count ∧ count.Within limits := by
  unfold Count.within Count.Within Admits
  constructor
  · intro hok
    split at hok
    · cases hok
    · rename_i hf
      cases hok
      exact ⟨rfl, by omega⟩
  · rintro ⟨rfl, hw⟩
    rw [if_neg (by omega)]

theorem Count.Within.mono {limits : Limits} {small large : Count} (hl : large.Within limits)
    (hb : small.bytes ≤ large.bytes) (he : small.elements ≤ large.elements) :
    small.Within limits :=
  ⟨hl.1.mono hb, hl.2.mono he⟩

theorem Data.children_image {V W : Type} (f : V → W) (data : Data V) :
    (data.image f).children = data.children.map f := by
  cases data with
  | map entries =>
    simp only [image, children, map_flatMap, flatMap_map]
    rfl
  | record fields =>
    simp only [image, children, map_map]
    rfl
  | _ => rfl

section Totals

variable {α : Type} {limits : Limits} {step : Count → α → Except ValueError Count}
  {fits : α → Prop} {bytes elems : α → Nat}

theorem foldlM_eq_ok (hs : ∀ item count res, step count item = .ok res ↔
      fits item ∧ res = ⟨count.bytes + bytes item, count.elements + elems item⟩ ∧ res.Within limits)
    (items : List α) {count res : Count} (hc : count.Within limits) :
    items.foldlM step count = .ok res ↔ (∀ item ∈ items, fits item) ∧
        res = ⟨count.bytes + (items.map bytes).sum, count.elements + (items.map elems).sum⟩ ∧
        res.Within limits := by
  induction items generalizing count with
  | nil =>
    simp only [foldlM_nil, not_mem_nil, false_imp_iff, implies_true, map_nil,
      sum_nil, Nat.add_zero, true_and]
    constructor
    · rintro ⟨⟩
      exact ⟨rfl, hc⟩
    · rintro ⟨rfl, -⟩
      rfl
  | cons item items ih =>
    rw [foldlM_cons, bind_eq_ok, forall_mem_cons, map_cons, map_cons, sum_cons, sum_cons]
    constructor
    · rintro ⟨mid, hm, hre⟩
      obtain ⟨hi, rfl, hw⟩ := (hs _ _ _).mp hm
      obtain ⟨hit, rfl, hr⟩ := (ih hw).mp hre
      refine ⟨⟨hi, hit⟩, ?_, hr⟩
      simp only [Nat.add_assoc]
    · rintro ⟨⟨hi, hit⟩, rfl, hw⟩
      have hm : Count.Within limits ⟨count.bytes + bytes item, count.elements + elems item⟩ :=
        hw.mono (by dsimp only; omega) (by dsimp only; omega)
      refine ⟨_, (hs _ _ _).mpr ⟨hi, rfl, hm⟩, (ih hm).mpr ⟨hit, ?_, hw⟩⟩
      simp only [Nat.add_assoc]

end Totals

theorem validateFields_eq_foldlM (validate : Value → Count → Except ValueError Count)
    (seen : List UInt32) (fields : List (Field Value)) (count result : Count) :
    validateFields validate seen fields count = .ok result ↔
      ((∀ field ∈ fields, field.id ≠ 0) ∧ (fields.map Field.id).Nodup ∧
        ∀ field ∈ fields, field.id ∉ seen) ∧
      fields.foldlM (fun count field => validate field.value count) count = .ok result := by
  induction fields generalizing seen count with
  | nil => simp [validateFields, pure, Except.pure]
  | cons field fields ih =>
    rw [validateFields, foldlM_cons, bind_eq_ok]
    by_cases hz : field.id = 0
    · simp [hz]
    by_cases hs : field.id ∈ seen
    · simp [hz, hs]
    rw [if_neg hz, if_neg hs, bind_eq_ok]
    simp only [ih, forall_mem_cons, map_cons, nodup_cons]
    simp only [mem_cons, not_or, mem_map, not_exists, not_and]
    constructor
    · rintro ⟨mid, hm, ⟨hi, hnd, hn⟩, hr⟩
      exact ⟨⟨⟨hz, hi⟩, ⟨fun other ho => (hn other ho).1, hnd⟩, hs,
        fun other ho => (hn other ho).2⟩, mid, hm, hr⟩
    · rintro ⟨⟨⟨-, hi⟩, ⟨hfr, hnd⟩, -, hn⟩, mid, hm, hr⟩
      exact ⟨mid, hm, ⟨hi, hnd, fun other ho =>
        ⟨hfr other ho, hn other ho⟩⟩, hr⟩

theorem Data.ownBytes_image {V W : Type} (f : V → W) (data : Data V) :
    (data.image f).ownBytes = data.ownBytes := by
  cases data <;> rfl

theorem Value.byteCount_mk (type : Bytes) (data : Data Value) : (mk type none data).byteCount =
      type.length + (data.ownBytes + (data.children.map byteCount).sum) := by
  rw [byteCount, fold_mk]
  dsimp only
  rw [children_image, ownBytes_image]

theorem Value.elementCount_mk (type : Bytes) (data : Data Value) :
    (mk type none data).elementCount = 1 + (data.children.map elementCount).sum := by
  rw [elementCount, fold_mk]
  dsimp only
  rw [children_image]

theorem Value.byteCount_resource (type : Bytes) (ref : ResourceRef) (data : Data Value) :
    (mk type (some ref) data).byteCount = type.length := rfl

theorem Value.elementCount_resource (type : Bytes) (ref : ResourceRef) (data : Data Value) :
    (mk type (some ref) data).elementCount = 1 := rfl

variable {levels : Nat} {type : Bytes} {top : Bool}

theorem Value.fits_resource {ref : ResourceRef} {data : Data Value} :
    (mk type (some ref) data).Fits (levels + 1) top ↔
      type ≠ [] ∧ validUTF8 type = true ∧ top = true ∧ data = .nil ∧
        validateResourceRef ref = true ∧ trimSpace type = ref.typeHash := Iff.rfl

theorem Value.fits_data {data : Data Value} : (mk type none data).Fits (levels + 1) top ↔
      type ≠ [] ∧ validUTF8 type = true ∧ data.Sound type ∧
        ∀ child ∈ data.children, child.Fits levels false := Iff.rfl

section Parts

variable {limits : Limits} {validate : Value → Count → Except ValueError Count}
  {fits : Value → Prop}

/-- What a check of values amounts to. -/
def Checks (limits : Limits) (validate : Value → Count → Except ValueError Count)
    (fits : Value → Prop) : Prop :=
  ∀ value count result, validate value count = .ok result ↔ fits value ∧
      result = ⟨count.bytes + value.byteCount, count.elements + value.elementCount⟩ ∧
      result.Within limits

theorem Checks.entry (hc : Checks limits validate fits) (entry : MapEntry Value)
    (count res : Count) :
    (validate entry.key count >>= validate entry.value) = .ok res ↔
      (fits entry.key ∧ fits entry.value) ∧
        res = ⟨count.bytes + (entry.key.byteCount + entry.value.byteCount),
          count.elements + (entry.key.elementCount + entry.value.elementCount)⟩ ∧
        res.Within limits := by
  rw [bind_eq_ok]
  constructor
  · rintro ⟨mid, hk, hva⟩
    obtain ⟨hke, rfl, -⟩ := (hc _ _ _).mp hk
    obtain ⟨hv, rfl, hw⟩ := (hc _ _ _).mp hva
    refine ⟨⟨hke, hv⟩, ?_, hw⟩
    simp only [Nat.add_assoc]
  · rintro ⟨⟨hk, hva⟩, rfl, hw⟩
    have hm : Count.Within limits
        ⟨count.bytes + entry.key.byteCount, count.elements + entry.key.elementCount⟩ :=
      hw.mono (by dsimp only; omega) (by dsimp only; omega)
    refine ⟨_, (hc _ _ _).mpr ⟨hk, rfl, hm⟩, (hc _ _ _).mpr ⟨hva, ?_, hw⟩⟩
    simp only [Nat.add_assoc]

theorem foldlM_within {α : Type} {step : Count → α → Except ValueError Count}
    {kind : α → Prop} {bytes elements : α → Nat}
    (hs : ∀ item count res, step count item = .ok res ↔
      kind item ∧ res = ⟨count.bytes + bytes item, count.elements + elements item⟩ ∧
        res.Within limits)
    (items : List α) {count res : Count} (hc : count.Within limits) :
    (items.foldlM step count >>= Count.within limits) = .ok res ↔ (∀ item ∈ items, kind item) ∧
        res = ⟨count.bytes + (items.map bytes).sum, count.elements + (items.map elements).sum⟩ ∧
        res.Within limits := by
  rw [bind_eq_ok]
  simp only [Count.within_eq_ok]
  rw [← foldlM_eq_ok hs items hc]
  constructor
  · rintro ⟨mid, hm, rfl, -⟩
    exact hm
  · intro hr
    exact ⟨res, hr, rfl, ((foldlM_eq_ok hs items hc).mp hr).2.2⟩

theorem sum_entries (weight : Value → Nat) (entries : List (MapEntry Value)) :
    ((entries.flatMap fun entry => [entry.key, entry.value]).map weight).sum =
      (entries.map fun entry => weight entry.key + weight entry.value).sum := by
  induction entries with
  | nil => rfl
  | cons entry entries ih => simp [ih, Nat.add_assoc]

theorem forall_mem_entries {kind : Value → Prop} {entries : List (MapEntry Value)} :
    (∀ child ∈ entries.flatMap fun entry => [entry.key, entry.value], kind child) ↔
      ∀ entry ∈ entries, kind entry.key ∧ kind entry.value := by
  simp only [mem_flatMap, mem_cons, not_mem_nil, or_false]
  constructor
  · exact fun hall entry he =>
      ⟨hall _ ⟨entry, he, .inl rfl⟩, hall _ ⟨entry, he, .inr rfl⟩⟩
  · rintro hall child ⟨entry, he, rfl | rfl⟩
    · exact (hall entry he).1
    · exact (hall entry he).2

theorem validateParts_eq_ok (hch : Checks limits validate fits) {type : Bytes}
    {data : Data Value} {count res : Count} (hc : count.Within limits) :
    (validateValueShape type data = true ∧ validateParts limits validate data count = .ok res) ↔
      (data.Sound type ∧ ∀ child ∈ data.children, fits child) ∧
        res = ⟨count.bytes + (data.ownBytes + (data.children.map byteCount).sum),
          count.elements + (data.children.map elementCount).sum⟩ ∧
        res.Within limits := by
  cases data with
  | string val =>
    by_cases hv : validUTF8 val = true
    · simp only [validateParts, hv, Bool.not_true, Bool.false_eq_true, if_false,
        Count.within_eq_ok, Data.Sound, children, ownBytes, not_mem_nil,
        false_imp_iff, implies_true, and_true, map_nil, sum_nil, Nat.add_zero]
      exact ⟨fun h => ⟨h.1, h.2.1, h.2.1 ▸ h.2.2⟩, fun h => ⟨h.1, h.2.1, h.2.1 ▸ h.2.2⟩⟩
    · simp [validateParts, Data.Sound, hv]
  | bytes val =>
    simp only [validateParts, Count.within_eq_ok, Data.Sound, children, ownBytes,
      not_mem_nil, false_imp_iff, implies_true, and_true, map_nil, sum_nil,
      Nat.add_zero]
    exact ⟨fun h => ⟨h.1, h.2.1, h.2.1 ▸ h.2.2⟩, fun h => ⟨h.1, h.2.1, h.2.1 ▸ h.2.2⟩⟩
  | slice items =>
    simp only [validateParts, Data.Sound, children, ownBytes, Nat.zero_add, and_true]
    rw [foldlM_within (fun item count res => hch item count res) items hc, and_assoc]
  | map entries =>
    simp only [validateParts, Data.Sound, children, ownBytes, Nat.zero_add, and_true]
    rw [foldlM_within (fun entry count res => hch.entry entry count res) entries hc,
      sum_entries, sum_entries, forall_mem_entries, and_assoc]
  | record fields =>
    have hfl := validateFields_eq_foldlM validate [] fields count
    simp only [not_mem_nil, not_false_eq_true, implies_true, and_true] at hfl
    have hf := @foldlM_within limits _ _ _ _ _
      (fun (field : Field Value) count res => hch field.value count res)
      fields count res hc
    simp only [validateParts, Data.Sound, children, ownBytes, Nat.zero_add, map_map, forall_mem_map]
    rw [and_assoc, and_assoc]
    refine and_congr_right fun _ => ?_
    rw [bind_eq_ok] at hf ⊢
    simp only [hfl]
    constructor
    · rintro ⟨mid, ⟨hi, hm⟩, hr⟩
      exact ⟨hi, hf.mp ⟨mid, hm, hr⟩⟩
    · rintro ⟨hi, hre⟩
      obtain ⟨mid, hm, hr⟩ := hf.mpr hre
      exact ⟨mid, ⟨hi, hm⟩, hr⟩
  | optional val =>
    simp only [validateParts, Data.Sound, children, ownBytes, Nat.zero_add, and_true,
      forall_mem_singleton, map_singleton, sum_singleton]
    rw [hch, and_assoc]
  | _ =>
    simp only [validateParts, Data.Sound, children, ownBytes, not_mem_nil,
      false_imp_iff, implies_true, and_true, map_nil, sum_nil, Nat.add_zero,
      Except.ok.injEq]
    exact ⟨fun h => ⟨h.1, h.2.symm, h.2 ▸ hc⟩, fun h => ⟨h.1, h.2.1.symm⟩⟩

end Parts

theorem validateValue_checks (limits : Limits) (levels : Nat) (top : Bool) :
    Checks limits (validateValue limits levels top) (Value.Fits levels top) := by
  induction levels generalizing top with
  | zero =>
    rintro ⟨type, res, data⟩ count result
    rw [validateValue, Value.Fits]
    split_ifs <;> simp
  | succ levels ih =>
    rintro ⟨type, res, data⟩ count result
    rw [validateValue]
    by_cases he : type = []
    · rw [if_pos he]
      exact ⟨nofun, fun hf => absurd he hf.1.1⟩
    by_cases hv : validUTF8 type = true
    swap
    · rw [if_neg he, if_pos (by simpa using hv)]
      exact ⟨nofun, fun hf => absurd hf.1.2.1 hv⟩
    rw [if_neg he, if_neg (by simp [hv]), bind_eq_ok]
    simp only [Count.within_eq_ok, and_assoc, exists_eq_left]
    cases res with
    | some ref =>
      rw [fits_resource, byteCount_resource, elementCount_resource]
      cases top
      · simp
      · have hres : (data.isNil && validateResourceRef ref &&
            trimSpace type == ref.typeHash) = true ↔ data = .nil ∧
              validateResourceRef ref = true ∧ trimSpace type = ref.typeHash := by
          cases data <;> simp [isNil]
        simp only [Bool.not_true, Bool.false_eq_true, if_false]
        constructor
        · rintro ⟨hw, hr⟩
          split at hr
          · rename_i hch
            obtain ⟨hd, hre, hh⟩ := hres.mp hch
            cases hr
            exact ⟨⟨he, hv, trivial, hd, hre, hh⟩, rfl, hw⟩
          · cases hr
        · rintro ⟨⟨-, -, -, hd, hre, hh⟩, rfl, hw⟩
          exact ⟨hw, if_pos (hres.mpr ⟨hd, hre, hh⟩)⟩
    | none =>
      rw [fits_data, byteCount_mk, elementCount_mk]
      have hp := fun hc => @validateParts_eq_ok limits _ _ (ih false) type data
        ⟨count.bytes + type.length, count.elements + 1⟩ result hc
      simp only [Nat.add_assoc] at hp ⊢
      constructor
      · rintro ⟨hw, hr⟩
        split at hr
        · cases hr
        · rename_i hs
          obtain ⟨hsn, rfl, hl⟩ :=
            (hp hw).mp ⟨by simpa using hs, hr⟩
          exact ⟨⟨he, hv, hsn⟩, rfl, hl⟩
      · rintro ⟨⟨-, -, hsn⟩, rfl, hl⟩
        have hw : Count.Within limits ⟨count.bytes + type.length, count.elements + 1⟩ :=
          hl.mono (by dsimp only; omega) (by dsimp only; omega)
        obtain ⟨hs, hr⟩ := (hp hw).mpr ⟨hsn, rfl, hl⟩
        exact ⟨hw, by rw [if_neg (by simp [hs]), hr]⟩

theorem validateValues_eq_ok {limits : Limits} {vals : List Value} {res : Count} :
    validateValues limits vals = .ok res ↔ (∀ val ∈ vals, val.Fits limits.levels true) ∧
        res = ⟨(vals.map byteCount).sum, (vals.map elementCount).sum⟩ ∧
        (vals = [] ∨ res.Within limits) := by
  have hs := validateValue_checks limits limits.levels true
  cases vals with
  | nil =>
    simp only [validateValues, foldlM_nil, pure, Except.pure, Except.ok.injEq]
    simp [eq_comm]
  | cons val vals =>
    rw [validateValues, foldlM_cons, bind_eq_ok, forall_mem_cons]
    simp only [map_cons, sum_cons, reduceCtorEq, false_or]
    constructor
    · rintro ⟨mid, hm, hr⟩
      obtain ⟨hf, rfl, hw⟩ := (hs _ _ _).mp hm
      obtain ⟨hv, rfl, hl⟩ := (foldlM_eq_ok hs vals hw).mp hr
      refine ⟨⟨hf, hv⟩, ?_, hl⟩
      simp only [Nat.zero_add]
    · rintro ⟨⟨hf, hv⟩, rfl, hl⟩
      have hw : Count.Within limits ⟨0 + val.byteCount, 0 + val.elementCount⟩ :=
        hl.mono (by dsimp only; omega) (by dsimp only; omega)
      refine ⟨_, (hs _ _ _).mpr ⟨hf, rfl, hw⟩, (foldlM_eq_ok hs vals hw).mpr ⟨hv, ?_, hl⟩⟩
      simp only [Nat.zero_add]

end MiniGo.Rpc
