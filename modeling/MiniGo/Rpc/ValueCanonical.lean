/-
The canonical order of RPC values.

Encoding a value is writing it plainly after its maps and messages have been put in
order. Since a plain encoding is read back, encoding and decoding a value gives the
value in order; and since only plain encodings are read, a payload is encoded again
as it was exactly when the values in it were in order.
-/
import MiniGo.Rpc.ValueCodec

namespace MiniGo.Rpc

open Data List

section Order

theorem SliceSort.sort_eq_self (sorter : SliceSort) {α : Type} {less : α → α → Bool}
    (hasy : ∀ a b, less a b = true → less b a = false)
    (hc : ∀ a b c, less c a = true → less c b = true ∨ less b a = true) {items : List α}
    (hs : items.Pairwise fun first second => less first second = true) :
    sorter.sort less items = items := by
  have hcm : ∀ a ∈ items, ∀ b ∈ items, a ≠ b → less a b = true ∨ less b a = true := by
    have : Std.Symm fun a b => less a b = true ∨ less b a = true := ⟨fun _ _ => Or.symm⟩
    exact (hs.imp Or.inl).forall
  refine List.Perm.eq_of_pairwise (fun a b ha hb hab hba => ?_)
    (sorter.sorted less items hasy hc) (hs.imp (hasy _ _)) (sorter.perm _ _)
  by_contra hne
  rcases hcm a ((sorter.perm _ _).subset ha) b hb hne with h | h
  · rw [h] at hba
    cases hba
  · rw [h] at hab
    cases hab

end Order

/-- The entries and fields in order. -/
def Data.arranged (sorter : SliceSort) : Data Value → Data Value
  | .map entries => .map (sorter.sort (fun a b => bytesLess a.key.plain b.key.plain) entries)
  | .record fields => .record (sorter.sort (fun a b => a.id < b.id) fields)
  | data => data

/-- The value with all its entries and fields in order. -/
def Value.canonical (sorter : SliceSort) : Value → Value :=
  Value.fold fun type resource data => .mk type resource (data.arranged sorter)

section Canonical

variable (sorter : SliceSort)

theorem Value.canonical_mk (type : Bytes) (res : Option ResourceRef) (data : Data Value) :
    (Value.mk type res data).canonical sorter =
      .mk type res ((data.image (Value.canonical sorter)).arranged sorter) :=
  Value.fold_mk _ _ _ _

theorem Data.image_congr {V W : Type} {f g : V → W} {data : Data V}
    (heq : ∀ child ∈ data.children, f child = g child) : data.image f = data.image g := by
  cases data with
  | slice items => simpa [image, children] using heq
  | map entries =>
    simp only [children, mem_flatMap, mem_cons, not_mem_nil, or_false] at heq
    simp only [image, map.injEq, map_inj_left, MapEntry.image]
    intro entry he
    rw [heq _ ⟨entry, he, .inl rfl⟩, heq _ ⟨entry, he, .inr rfl⟩]
  | record fields =>
    simp only [children, forall_mem_map] at heq
    simp only [image, record.injEq, map_inj_left, Field.image]
    intro field hf
    rw [heq _ hf]
  | optional value => simpa [image, children] using heq
  | _ => rfl

theorem Data.image_image {V W X : Type} (f : V → W) (g : W → X) (data : Data V) :
    (data.image f).image g = data.image (g ∘ f) := by
  cases data <;> simp [image, MapEntry.image, Field.image]

theorem Data.image_id {V : Type} (data : Data V) : data.image id = data := by
  cases data <;> simp [image, MapEntry.image, Field.image]

theorem Data.sorted_image (data : Data Value) :
    (data.image Value.plain).sorted sorter = (data.arranged sorter).image Value.plain := by
  cases data with
  | map entries =>
    simp only [image, sorted, arranged, sorter.natural]
    rfl
  | record fields =>
    simp only [image, sorted, arranged, sorter.natural]
    rfl
  | _ => rfl

/-- Encoding a value is writing it plainly once it is in order. -/
theorem encodeBinaryValue_eq (value : Value) :
    encodeBinaryValue sorter value = (value.canonical sorter).plain := by
  induction value using Value.induction with
  | step type res data ih =>
    rw [encodeBinaryValue, Value.fold_mk, Value.canonical_mk, Value.plain_mk,
      ← sorted_image, image_image]
    change encodeParts type res ((data.image (encodeBinaryValue sorter)).sorted sorter) = _
    rw [image_congr ih]
    rfl

theorem Value.canonical_type (value : Value) : (value.canonical sorter).type = value.type := by
  cases value
  rfl

theorem Data.arranged_children (data : Data Value) :
    (data.arranged sorter).children.Perm data.children := by
  cases data with
  | map entries => exact (sorter.perm _ _).flatMap_right _
  | record fields => exact (sorter.perm _ _).map _
  | _ => exact List.Perm.refl _

theorem Data.arranged_ownBytes (data : Data Value) :
    (data.arranged sorter).ownBytes = data.ownBytes := by
  cases data <;> rfl

theorem Value.canonical_counts (value : Value) :
    (value.canonical sorter).byteCount = value.byteCount ∧
      (value.canonical sorter).elementCount = value.elementCount := by
  induction value using Value.induction with
  | step type res data ih =>
    rw [Value.canonical_mk]
    cases res with
    | some ref => exact ⟨rfl, rfl⟩
    | none =>
      have hp := (data.image (Value.canonical sorter)).arranged_children sorter
      rw [children_image] at hp
      have hb : (data.children.map (Value.canonical sorter)).map Value.byteCount =
          data.children.map Value.byteCount := by
        rw [map_map, map_inj_left]
        exact fun child hc => (ih child hc).1
      have he : (data.children.map (Value.canonical sorter)).map Value.elementCount =
          data.children.map Value.elementCount := by
        rw [map_map, map_inj_left]
        exact fun child hc => (ih child hc).2
      rw [Value.byteCount_mk, Value.elementCount_mk, Value.byteCount_mk,
        Value.elementCount_mk, (hp.map _).sum_eq, (hp.map _).sum_eq, hb, he,
        arranged_ownBytes, ownBytes_image]
      exact ⟨rfl, rfl⟩

/-- The data of a value has its shape in any order. -/
theorem Data.sound_canonical {type : Bytes} {data : Data Value} (hsn : data.Sound type) :
    ((data.image (Value.canonical sorter)).arranged sorter).Sound type := by
  have ht := Value.canonical_type sorter
  obtain ⟨hsh, hpt⟩ := hsn
  cases data with
  | slice items =>
    have hs : scalarShape (trimSpace type) (.slice (items.map (Value.canonical sorter))) =
        scalarShape (trimSpace type) (.slice items) := rfl
    refine ⟨?_, trivial⟩
    simpa [validateValueShape, image, arranged, ht, hs] using hsh
  | map entries =>
    have hp := sorter.perm (fun a b => bytesLess a.key.plain b.key.plain)
      (entries.map (·.image (Value.canonical sorter)))
    have hs : ∀ others, scalarShape (trimSpace type) (.map others) =
        scalarShape (trimSpace type) (.map entries) := fun _ => rfl
    have hall : ∀ keyType valueType, (sorter.sort (fun a b => bytesLess a.key.plain b.key.plain)
          (entries.map (·.image (Value.canonical sorter)))).all (fun entry =>
            trimSpace entry.key.type == keyType && trimSpace entry.value.type == valueType) =
          entries.all fun entry =>
            trimSpace entry.key.type == keyType && trimSpace entry.value.type == valueType := by
      intro keyType valueType
      rw [hp.all_eq, all_map]
      simp [Function.comp_def, MapEntry.image, ht]
    refine ⟨?_, trivial⟩
    simp only [validateValueShape, image, arranged, hs] at hsh ⊢
    cases hm : rpcMapTypes (trimSpace type) with
    | none => simpa only [hm] using hsh
    | some types => simpa only [hm, hall] using hsh
  | record fields =>
    have hp := sorter.perm (fun a b : Field Value => a.id < b.id)
      (fields.map (·.image (Value.canonical sorter)))
    have hs : ∀ others, scalarShape (trimSpace type) (.record others) =
        scalarShape (trimSpace type) (.record fields) := fun _ => rfl
    have hi : (fields.map (·.image (Value.canonical sorter))).map Field.id =
        fields.map Field.id := by simp [Field.image]
    refine ⟨?_, fun field hf => ?_, ?_⟩
    · simpa [validateValueShape, image, arranged, hs] using hsh
    · obtain ⟨original, ho, rfl⟩ := mem_map.mp (hp.subset hf)
      exact hpt.1 original ho
    · rw [(hp.map Field.id).nodup_iff, hi]
      exact hpt.2
  | optional value =>
    have hs : scalarShape (trimSpace type) (.optional (value.canonical sorter)) =
        scalarShape (trimSpace type) (.optional value) := rfl
    refine ⟨?_, trivial⟩
    simpa [validateValueShape, image, arranged, ht, hs] using hsh
  | _ => exact ⟨hsh, hpt⟩

theorem Value.fits_canonical {levels : Nat} {top : Bool} {value : Value}
    (hf : value.Fits levels top) : (value.canonical sorter).Fits levels top := by
  induction levels generalizing top value with
  | zero => exact hf
  | succ levels ih =>
    rcases value with ⟨type, _ | ref, data⟩
    · obtain ⟨he, hv, hs, hch⟩ := Value.fits_data.mp hf
      rw [Value.canonical_mk, Value.fits_data]
      refine ⟨he, hv, sound_canonical sorter hs, fun child hc => ?_⟩
      have hmem := ((data.image (Value.canonical sorter)).arranged_children sorter).subset hc
      rw [children_image] at hmem
      obtain ⟨original, ho, rfl⟩ := mem_map.mp hmem
      exact ih (hch original ho)
    · obtain ⟨he, hv, ht, rfl, hr⟩ := Value.fits_resource.mp hf
      exact ⟨he, hv, ht, rfl, hr⟩

end Canonical

section Ordered

/-- The keys of a map and the identifiers of a message's fields grow. -/
def Data.InOrder : Data Value → Prop
  | .map entries => entries.Pairwise fun a b => bytesLess a.key.plain b.key.plain = true
  | .record fields => fields.Pairwise fun a b => a.id < b.id
  | _ => True

/-- A value in canonical order: no two keys of a map are alike and all grow. -/
inductive Value.Ordered : Value → Prop
  | mk (type : Bytes) (resource : Option ResourceRef) (data : Data Value) :
      data.InOrder → (∀ child ∈ data.children, child.Ordered) →
        Value.Ordered (.mk type resource data)

/-- No two keys of a map are encoded alike and no identifier is used twice. -/
def Data.Distinct (sorter : SliceSort) : Data Value → Prop
  | .map entries => entries.Pairwise fun a b =>
    encodeBinaryValue sorter a.key ≠ encodeBinaryValue sorter b.key
  | .record fields => (fields.map Field.id).Nodup
  | _ => True

inductive Value.Distinct (sorter : SliceSort) : Value → Prop
  | mk (type : Bytes) (resource : Option ResourceRef) (data : Data Value) :
      data.Distinct sorter → (∀ child ∈ data.children, child.Distinct sorter) →
        Value.Distinct sorter (.mk type resource data)

variable (sorter : SliceSort)

theorem keyLess_asymm (a b : MapEntry Value) (h : bytesLess a.key.plain b.key.plain = true) :
    bytesLess b.key.plain a.key.plain = false := bytesLess_asymm h

theorem keyLess_cotrans (a b c : MapEntry Value) (h : bytesLess c.key.plain a.key.plain = true) :
    bytesLess c.key.plain b.key.plain = true ∨ bytesLess b.key.plain a.key.plain = true :=
  bytesLess_cotrans _ h

theorem idLess_asymm (a b : Field Value) (h : decide (a.id < b.id) = true) :
    decide (b.id < a.id) = false := by
  rw [decide_eq_true_eq, UInt32.lt_iff_toNat_lt] at h
  rw [decide_eq_false_iff_not, UInt32.lt_iff_toNat_lt]
  omega

theorem idLess_cotrans (a b c : Field Value) (h : decide (c.id < a.id) = true) :
    decide (c.id < b.id) = true ∨ decide (b.id < a.id) = true := by
  simp only [decide_eq_true_eq, UInt32.lt_iff_toNat_lt] at h ⊢
  omega

variable {value : Value}

/-- A value in order is what it is arranged to. -/
theorem Value.Ordered.canonical_eq (ho : value.Ordered) : value.canonical sorter = value := by
  induction ho with
  | mk type res data hd hc ih =>
    have hi : data.image (Value.canonical sorter) = data := by
      rw [image_congr (g := id) ih, image_id]
    rw [Value.canonical_mk, hi]
    congr 1
    cases data with
    | map entries =>
      rw [arranged, sorter.sort_eq_self keyLess_asymm keyLess_cotrans hd]
    | record fields =>
      have hs : fields.Pairwise fun a b => decide (a.id < b.id) = true :=
        hd.imp fun h => decide_eq_true h
      rw [arranged, sorter.sort_eq_self idLess_asymm idLess_cotrans hs]
    | _ => rfl

/-- A value without duplicates is arranged into strict order. -/
theorem Value.Distinct.ordered_canonical (hdi : value.Distinct sorter) :
    (value.canonical sorter).Ordered := by
  induction hdi with
  | mk type res data hd hch ih =>
    rw [Value.canonical_mk]
    refine .mk _ _ _ ?_ fun child hc => ?_
    · cases data with
      | map entries =>
        have hm : (entries.map (·.image (Value.canonical sorter))).Pairwise
            fun a b => a.key.plain ≠ b.key.plain := by
          rw [pairwise_map]
          refine hd.imp fun hne => ?_
          rwa [encodeBinaryValue_eq, encodeBinaryValue_eq] at hne
        have hk := ((sorter.perm (fun a b => bytesLess a.key.plain b.key.plain) _).pairwise_iff
          Ne.symm).mpr hm
        refine ((sorter.sorted _ _ keyLess_asymm keyLess_cotrans).and hk).imp ?_
        intro first second h
        by_contra hl
        exact h.2 (bytesLess_total (Bool.eq_false_iff.mpr hl) h.1)
      | record fields =>
        have hm : (fields.map (·.image (Value.canonical sorter))).Pairwise
            fun a b => a.id ≠ b.id := by
          rw [pairwise_map]
          exact pairwise_map.mp hd
        have hi := ((sorter.perm (fun a b : Field Value => a.id < b.id) _).pairwise_iff
          Ne.symm).mpr hm
        refine ((sorter.sorted _ _ idLess_asymm idLess_cotrans).and hi).imp ?_
        intro first second h
        have hge := h.1
        rw [decide_eq_false_iff_not, UInt32.lt_iff_toNat_lt] at hge
        rw [UInt32.lt_iff_toNat_lt]
        have hne : first.id.toNat ≠ second.id.toNat := fun heq => h.2 (UInt32.toNat_inj.mp heq)
        omega
      | _ => trivial
    · have hmem := ((data.image (Value.canonical sorter)).arranged_children sorter).subset hc
      rw [children_image] at hmem
      obtain ⟨original, ho, rfl⟩ := mem_map.mp hmem
      exact ih original ho

theorem Value.Ordered.distinct (ho : value.Ordered) :
    value.Distinct sorter := by
  induction ho with
  | mk type res data hd hch ih =>
    refine .mk _ _ _ ?_ ih
    cases data with
    | map entries =>
      have hc := forall_mem_entries.mp hch
      refine hd.imp_of_mem fun {first second} hf hs hl heq => ?_
      rw [encodeBinaryValue_eq, encodeBinaryValue_eq,
        (hc first hf).1.canonical_eq, (hc second hs).1.canonical_eq] at heq
      rw [heq] at hl
      have hnot := bytesLess_asymm hl
      rw [hl] at hnot
      cases hnot
    | record fields =>
      refine pairwise_map.mpr (hd.imp fun hl heq => ?_)
      rw [UInt32.lt_iff_toNat_lt, heq] at hl
      omega
    | _ => trivial

end Ordered

section Payloads

variable {sorter : SliceSort} {limits : Limits} {values : List Value} {payload : Bytes}

theorem encodeValues_eq_ok : encodeValues sorter values limits = .ok payload ↔
      (∃ count, validateValues (normalizeLimits limits) values = .ok count) ∧
        payload = encodeUint (.ofNat values.length) ++ values.flatMap (encodeBinaryValue sorter) ∧
        Admits (normalizeLimits limits).maxMessageBytes payload.length := by
  unfold encodeValues Admits
  dsimp only
  cases hv : validateValues (normalizeLimits limits) values with
  | error fault => simp
  | ok count =>
    dsimp only
    constructor
    · intro hok
      split at hok
      · cases hok
      · cases hok
        exact ⟨⟨count, rfl⟩, rfl, by omega⟩
    · rintro ⟨-, rfl, hlen⟩
      rw [if_neg (by omega)]

theorem decodeValues_eq_ok : decodeValues payload limits = .ok values ↔
      Admits (normalizeLimits limits).maxMessageBytes payload.length ∧
        decodePayload (normalizeLimits limits) payload = .ok (values, []) ∧
        ∃ count, validateValues (normalizeLimits limits) values = .ok count := by
  unfold decodeValues Admits
  dsimp only
  constructor
  · intro hok
    split at hok
    · cases hok
    split at hok
    · cases hok
    · rename_i hlen _ others rest hp
      split at hok
      · cases hok
      · rename_i hr
        rw [not_not] at hr
        subst hr
        split at hok
        · cases hok
        · rename_i count hv
          cases hok
          exact ⟨by omega, hp, count, hv⟩
  · rintro ⟨hlen, hp, count, hv⟩
    rw [if_neg (by omega), hp]
    dsimp only
    rw [if_neg (by simp), hv]

/-- The values of a payload are read as they were written. -/
theorem decodePayload_exact (limits : Limits) : Codec.Exact (decodePayload limits)
      (fun values => encodeUint (.ofNat values.length) ++ values.flatMap Value.plain) := by
  intro input values rest hr
  obtain ⟨count, mid, hc, hv⟩ := Codec.bind_eq_ok.mp hr
  unfold orMalformed at hc
  split at hc
  · rename_i hok
    cases hc
    obtain ⟨rfl, rfl⟩ := Codec.readMany_exact (decodeBinaryValue_exact limits _) hv
    rw [decodeCount_exact limits hok, append_assoc]
  · cases hc

theorem decodePayload_reads {count : Count} (hv : validateValues limits values = .ok count) :
    Codec.Reads (decodePayload limits)
      (fun values => encodeUint (.ofNat values.length) ++ values.flatMap Value.plain) values := by
  intro rest
  obtain ⟨hf, hc, hw⟩ := validateValues_eq_ok.mp hv
  have hn : decodeCount limits
      (encodeUint (.ofNat values.length) ++ (values.flatMap Value.plain ++ rest)) =
        .ok (values.length, values.flatMap Value.plain ++ rest) := by
    rcases hw with rfl | hw
    · rw [decodeCount, (decodeUint_reads _).bind]
      have hz : ¬ limits.maxValueElements.toUInt64 < UInt64.ofNat ([] : List Value).length := by
        exact Nat.not_lt_zero _
      rfl
    · refine decodeCount_reads (hw.2.mono ?_) _
      rw [hc]
      exact length_le_sum Value.elementCount_pos values
  have hrd : ∀ value ∈ values,
      Codec.Reads (decodeBinaryValue limits limits.levels) Value.plain value := by
    intro value hva
    have hw := hw.resolve_left (ne_nil_of_mem hva)
    rw [hc] at hw
    refine decodeBinaryValue_reads (hf value hva) (hw.1.mono ?_) (hw.2.mono ?_)
    · exact single_le_sum (fun _ _ => Nat.zero_le _) _ (mem_map_of_mem (f := Value.byteCount) hva)
    · exact single_le_sum (fun _ _ => Nat.zero_le _) _
        (mem_map_of_mem (f := Value.elementCount) hva)
  have hl : orMalformed (decodeCount limits) "decode RPC values: invalid value count"
      (encodeUint (.ofNat values.length) ++ (values.flatMap Value.plain ++ rest)) =
        .ok (values.length, values.flatMap Value.plain ++ rest) := by
    rw [orMalformed, hn]
  rw [append_assoc, decodePayload, Codec.bind_of_eq_ok hl, Codec.readMany_reads hrd]

theorem validateValues_canonical {count : Count} (hv : validateValues limits values = .ok count) :
    validateValues limits (values.map (Value.canonical sorter)) = .ok count := by
  obtain ⟨hf, hc, hw⟩ := validateValues_eq_ok.mp hv
  refine validateValues_eq_ok.mpr ⟨?_, ?_, ?_⟩
  · rw [forall_mem_map]
    exact fun value hva => Value.fits_canonical sorter (hf value hva)
  · rw [hc, map_map, map_map]
    congr 2
    · exact map_congr_left fun value _ => (value.canonical_counts sorter).1.symm
    · exact map_congr_left fun value _ => (value.canonical_counts sorter).2.symm
  · rw [map_eq_nil_iff]
    exact hw

theorem flatMap_encodeBinaryValue (values : List Value) :
    values.flatMap (encodeBinaryValue sorter) =
      (values.map (Value.canonical sorter)).flatMap Value.plain := by
  rw [flatMap_map]
  congr 1
  funext value
  exact encodeBinaryValue_eq sorter value

/-- Encoding and decoding values puts them in canonical order. -/
theorem decodeValues_encodeValues (he : encodeValues sorter values limits = .ok payload) :
    decodeValues payload limits = .ok (values.map (Value.canonical sorter)) := by
  obtain ⟨⟨count, hv⟩, rfl, hlen⟩ := encodeValues_eq_ok.mp he
  have hc := @validateValues_canonical sorter _ _ _ hv
  refine decodeValues_eq_ok.mpr ⟨hlen, ?_, count, hc⟩
  have hr := decodePayload_reads hc []
  dsimp only at hr
  rw [append_nil, length_map] at hr
  rw [flatMap_encodeBinaryValue, hr]

theorem encodeValues_decodeValues (hd : decodeValues payload limits = .ok values)
    (ho : ∀ value ∈ values, value.Ordered) :
    encodeValues sorter values limits = .ok payload := by
  obtain ⟨hlen, hp, hv⟩ := decodeValues_eq_ok.mp hd
  refine encodeValues_eq_ok.mpr ⟨hv, ?_, hlen⟩
  have hs : values.map (Value.canonical sorter) = values := by
    rw [map_congr_left fun value hva => (ho value hva).canonical_eq sorter]
    exact map_id values
  rw [flatMap_encodeBinaryValue, hs]
  simpa using decodePayload_exact _ hp

/-- `EncodeValues` and `DecodeValues` under one set of limits. What was encoded is
decoded to the same values in canonical order. A payload that is accepted is what its
values are encoded to, and holds no duplicates, exactly when its map entries and
fields are in canonical order: the decoder does not ask for that. -/
theorem codec_canonical_iff (sorter : SliceSort) (limits : Limits) (values : List Value)
    (payload : Bytes) :
    (encodeValues sorter values limits = .ok payload →
      decodeValues payload limits = .ok (values.map (Value.canonical sorter))) ∧
    (decodeValues payload limits = .ok values → ((encodeValues sorter values limits = .ok payload ∧
          ∀ value ∈ values, value.Distinct sorter) ↔
        ∀ value ∈ values, value.Ordered)) := by
  refine ⟨decodeValues_encodeValues, fun hdecode => ⟨?_, ?_⟩⟩
  · rintro ⟨hencode, hdistinct⟩ value hvalue
    have hsame := (decodeValues_encodeValues hencode).symm.trans hdecode
    rw [Except.ok.injEq] at hsame
    have hfixed := map_inj_left.mp (hsame.trans (map_id values).symm) value hvalue
    rw [id] at hfixed
    rw [← hfixed]
    exact (hdistinct value hvalue).ordered_canonical sorter
  · intro hordered
    exact ⟨encodeValues_decodeValues hdecode hordered,
      fun value hvalue => (hordered value hvalue).distinct sorter⟩

/-- Sorting by insertion, which is what `sort.Slice` does with a short slice. -/
def insertionSorter : SliceSort where
  sort less items := items.insertionSort fun first second => less second first = false
  perm less items := List.perm_insertionSort _ items
  sorted less items hasymm hcotrans := by
    have : Std.Total fun first second => less second first = false := ⟨fun first second => by
      cases h : less second first
      · exact .inl rfl
      · exact .inr (hasymm _ _ h)⟩
    have : IsTrans _ fun first second => less second first = false := ⟨fun a b c hab hbc => by
      by_contra h
      rcases hcotrans a b c (Bool.eq_true_of_not_eq_false h) with h | h
      · rw [h] at hbc
        cases hbc
      · rw [h] at hab
        cases hab⟩
    exact List.pairwise_insertionSort _ items
  natural less f items :=
    (List.map_insertionSort _ _ f items fun _ _ _ _ => Iff.rfl).symm

def boolean (value : Bool) : Value := .mk (text "bool") none (.bool value)

/-- A map with two entries, in the order given. -/
def switches (first second : Bool) : Value :=
  .mk (text "map[bool]bool") none
    (.map [⟨boolean first, boolean true⟩, ⟨boolean second, boolean true⟩])

def switchesPayload (first second : Bool) : Bytes :=
  encodeUint 1 ++ (switches first second).plain

theorem switches_ordered : (switches false true).Ordered := by
  have hb : ∀ value, (boolean value).Ordered := fun value => .mk _ _ _ trivial nofun
  refine .mk _ _ _ ?_ (forall_mem_entries.mpr ?_)
  · simp only [Data.InOrder, pairwise_cons, mem_singleton, forall_eq, not_mem_nil,
      false_imp_iff, implies_true, List.Pairwise.nil, and_true]
    decide
  · simp [hb]

/-- A map in order goes through the codec unchanged. -/
theorem switches_canonical :
    decodeValues (switchesPayload false true) {} = .ok [switches false true] ∧
      encodeValues insertionSorter [switches false true] {} = .ok (switchesPayload false true) := by
  have hdecode : decodeValues (switchesPayload false true) {} = .ok [switches false true] := rfl
  have hcodec := codec_canonical_iff insertionSorter {} [switches false true]
    (switchesPayload false true)
  refine ⟨hdecode, ((hcodec.2 hdecode).mpr ?_).1⟩
  simpa using switches_ordered

/-- A map out of order is accepted and encoded to another payload. -/
theorem switches_reordered :
    decodeValues (switchesPayload true false) {} = .ok [switches true false] ∧
      encodeValues insertionSorter [switches true false] {} = .ok (switchesPayload false true) ∧
      switchesPayload false true ≠ switchesPayload true false :=
  ⟨rfl, rfl, by decide⟩

end Payloads

end MiniGo.Rpc
