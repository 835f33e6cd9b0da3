/-
Reading and writing RPC values.

`plain` writes a value without rearranging it. Whatever `decodeBinaryValue` reads
was written that way, and a valid value written that way is read back.
-/
import MiniGo.Rpc.ValueValid

namespace MiniGo.Rpc

open Codec Data List UInt64

section Spaces

theorem isRune_of_isSpace {bytes : Bytes} (hsp : isSpace bytes = true) :
    Lib.isRune (bytes.map UInt8.toNat) = true := by
  unfold isSpace at hsp
  split at hsp
  · rename_i a
    simp only [Bool.or_eq_true, Bool.and_eq_true, decide_eq_true_eq, beq_iff_eq,
      UInt8.le_iff_toNat_le] at hsp
    simp only [map_cons, map_nil, Lib.isRune, decide_eq_true_eq]
    rcases hsp with hsp | rfl
    · exact Nat.lt_of_le_of_lt hsp.2 (by decide)
    · decide
  · simp only [Bool.or_eq_true, Bool.and_eq_true, beq_iff_eq] at hsp
    rcases hsp with ⟨rfl, rfl | rfl⟩ <;> decide
  · rename_i a b c
    simp only [Bool.or_eq_true, Bool.and_eq_true, decide_eq_true_eq, beq_iff_eq,
      UInt8.le_iff_toNat_le] at hsp
    have ht : a = 0xE2 ∧ b = 0x80 → (0x80 : UInt8).toNat ≤ c.toNat →
        c.toNat ≤ (0xBF : UInt8).toNat → Lib.isRune ([a, b, c].map UInt8.toNat) = true := by
      rintro ⟨rfl, rfl⟩ hl hh
      simp only [map_cons, map_nil, Lib.isRune, Lib.isTail, Bool.and_eq_true, decide_eq_true_eq]
      exact ⟨by decide, hl, hh⟩
    rcases hsp with ((⟨⟨rfl, rfl⟩, rfl⟩ | ⟨hab, ((hc | rfl) | rfl) | rfl⟩) | ⟨⟨rfl, rfl⟩, rfl⟩) |
      ⟨⟨rfl, rfl⟩, rfl⟩
    · decide
    · exact ht hab hc.1 (Nat.le_trans hc.2 (by decide))
    · exact ht hab (by decide) (by decide)
    · exact ht hab (by decide) (by decide)
    · exact ht hab (by decide) (by decide)
    · decide
    · decide
  · cases hsp

theorem validUTF8_iff {text : Bytes} :
    validUTF8 text = true ↔ Lib.validText (text.map UInt8.toNat) := decide_eq_true_iff

variable {P : Bytes → Prop} {text : Bytes}

theorem trimLeft_keeps (hk : ∀ text size, isSpace (List.take size text) = true → P text →
      P (text.drop size)) (count : Nat) (ht : P text) : P (trimLeft count text) := by
  induction count generalizing text with
  | zero => exact ht
  | succ count ih =>
    unfold trimLeft
    split
    · exact ht
    · next size hs =>
      have hsp := find?_some hs
      exact ih (hk text size hsp ht)

theorem trimRight_keeps (hk : ∀ text size,
      isSpace (List.drop (text.length - size) text) = true → P text →
      P (text.take (text.length - size))) (count : Nat) (ht : P text) :
    P (trimRight count text) := by
  induction count generalizing text with
  | zero => exact ht
  | succ count ih =>
    unfold trimRight
    split
    · exact ht
    · next size hs =>
      have hsp := find?_some hs
      exact ih (hk text size hsp ht)

theorem trimSpace_length (text : Bytes) : (trimSpace text).length ≤ text.length := by
  refine trimRight_keeps (P := (·.length ≤ text.length)) (fun other size _ h => ?_) _
    (trimLeft_keeps (P := (·.length ≤ text.length)) (fun other size _ h => ?_) _ le_rfl)
  · exact (length_take_le' _ _).trans h
  · exact (drop_sublist _ _).length_le.trans h

theorem trimSpace_valid (hv : validUTF8 text = true) : validUTF8 (trimSpace text) = true := by
  refine trimRight_keeps (P := (validUTF8 · = true)) (fun text size hsp h => ?_) _
    (trimLeft_keeps (P := (validUTF8 · = true)) (fun text size hsp h => ?_) _ hv)
  · rw [validUTF8_iff, ← take_append_drop (text.length - size) text, map_append] at h
    rw [validUTF8_iff]
    exact @Lib.validText_of_append _ ⟨_, isRune_of_isSpace hsp⟩ h
  · rw [validUTF8_iff, ← take_append_drop size text, map_append] at h
    rw [validUTF8_iff]
    exact (@Lib.validText_append_left _ ⟨_, isRune_of_isSpace hsp⟩).mp h

end Spaces

/-- The encoding that keeps entries and fields in the order they have. -/
def Value.plain : Value → Bytes := Value.fold encodeParts

theorem Value.plain_mk (type : Bytes) (res : Option ResourceRef) (data : Data Value) :
    (Value.mk type res data).plain = encodeParts type res (data.image Value.plain) :=
  Value.fold_mk _ _ _ _

def encodePlainEntry (entry : MapEntry Value) : Bytes := entry.key.plain ++ entry.value.plain

def encodePlainField (field : Field Value) : Bytes :=
  encodeUint (.ofNat field.id.toNat) ++ field.value.plain

/-- What follows the kind of a value. -/
def Data.plain (data : Data Value) : Bytes := encodeData (data.image Value.plain)

theorem Data.plain_slice (items : List Value) :
    (slice items).plain = encodeUint (.ofNat items.length) ++ items.flatMap Value.plain := by
  simp [plain, image, encodeData, flatMap]

theorem Data.plain_map (entries : List (MapEntry Value)) : (map entries).plain =
      encodeUint (.ofNat entries.length) ++ entries.flatMap encodePlainEntry := by
  simp only [plain, image, encodeData, length_map, flatMap_map]
  rfl

theorem Data.plain_record (fields : List (Field Value)) : (record fields).plain =
      encodeUint (.ofNat fields.length) ++ fields.flatMap encodePlainField := by
  simp only [plain, image, encodeData, length_map, flatMap_map]
  rfl

theorem Data.kind_image {V W : Type} (f : V → W) (data : Data V) :
    (data.image f).kind = data.kind := by
  cases data <;> rfl

theorem Value.plain_data (type : Bytes) (data : Data Value) :
    (Value.mk type none data).plain = encodeString type ++
    (encodeUint data.kind ++ data.plain) := by
  rw [Value.plain_mk, encodeParts, kind_image]
  rfl

theorem Value.plain_resource (type : Bytes) (ref : ResourceRef) (data : Data Value) :
    (Value.mk type (some ref) data).plain =
      encodeString type ++ (encodeUint wireResource ++ encodeResource ref) :=
  Value.plain_mk _ _ _

section Exact

variable (lim : Limits)

theorem decodeTypeName_exact : Codec.Exact (decodeTypeName lim) encodeString := by
  intro input type rest hr
  obtain ⟨text, mid, ht, hr⟩ := bind_eq_ok.mp hr
  unfold orMalformed at ht
  split at ht
  · rename_i hs
    cases ht
    split at hr
    · cases hr
    · obtain ⟨rfl, rfl⟩ := pure_eq_ok.mp hr
      exact decodeString_exact _ hs
  · cases ht

variable {input rest : Bytes} {data : Data Value} {kind : UInt64} {α : Type}

theorem decodeCount_exact {count : Nat} (hr : decodeCount lim input = .ok (count, rest)) :
    input = encodeUint (.ofNat count) ++ rest := by
  obtain ⟨num, mid, hn, hr⟩ := bind_eq_ok.mp hr
  split at hr
  · cases hr
  · obtain ⟨rfl, rfl⟩ := pure_eq_ok.mp hr
    rw [UInt64.ofNat_toNat]
    exact decodeUint_exact hn

theorem decodeResource_exact : Codec.Exact (decodeResource lim) encodeResource := by
  intro input ref rest hr
  obtain ⟨epoch, first, he, hr⟩ := bind_eq_ok.mp hr
  obtain ⟨objectID, second, ho, hr⟩ := bind_eq_ok.mp hr
  obtain ⟨typeHash, third, hh, hr⟩ := bind_eq_ok.mp hr
  obtain ⟨rfl, rfl⟩ := pure_eq_ok.mp hr
  rw [decodeUint_exact he, decodeUint_exact ho, decodeString_exact _ hh,
    encodeResource, append_assoc, append_assoc]

theorem decodeCounted_exact {read : Decoder α} {write : α → Bytes} (hr : Codec.Exact read write) :
    Codec.Exact (decodeCounted lim read)
      (fun items => encodeUint (.ofNat items.length) ++ items.flatMap write) := by
  intro input items rest hi
  obtain ⟨count, mid, hc, hi⟩ := bind_eq_ok.mp hi
  obtain ⟨rfl, rfl⟩ := readMany_exact hr hi
  rw [decodeCount_exact lim hc, append_assoc]

variable {lim} {decode : Decoder Value} (hd : Codec.Exact decode Value.plain)

include hd

theorem decodeEntry_exact : Codec.Exact (decodeEntry decode) encodePlainEntry := by
  intro input entry rest hr
  obtain ⟨key, first, hk, hr⟩ := bind_eq_ok.mp hr
  obtain ⟨val, second, hv, hr⟩ := bind_eq_ok.mp hr
  obtain ⟨rfl, rfl⟩ := pure_eq_ok.mp hr
  rw [hd hk, hd hv, encodePlainEntry, append_assoc]

theorem decodeField_exact : Codec.Exact (decodeField decode) encodePlainField := by
  intro input field rest hre
  obtain ⟨id, first, hid, hre⟩ := bind_eq_ok.mp hre
  split at hre
  · cases hre
  · rename_i hr
    obtain ⟨val, second, hv, hre⟩ := bind_eq_ok.mp hre
    obtain ⟨rfl, rfl⟩ := pure_eq_ok.mp hre
    have hf : id.toNat < 4294967296 := by
      rw [not_or, lt_iff_toNat_lt] at hr
      have := hr.2
      change ¬ 4294967295 < id.toNat at this
      omega
    have hb : ofNat id.toUInt32.toNat = id := by
      rw [toNat_toUInt32, Nat.mod_eq_of_lt hf, UInt64.ofNat_toNat]
    rw [decodeUint_exact hid, hd hv, encodePlainField, hb, append_assoc]

omit hd in
/-- A datum that is read as one part. -/
theorem exact_of_part {read : Decoder α} {write : α → Bytes} {wrap : α → Data Value}
    (hpa : (wrap <$> read) input = .ok (data, rest)) (hr : Codec.Exact read write)
    (hk : ∀ val, (wrap val).kind = kind)
    (hp : ∀ val, (wrap val).plain = write val) :
    data.kind = kind ∧ input = data.plain ++ rest := by
  obtain ⟨val, hv, rfl⟩ := map_eq_ok.mp hpa
  rw [hp]
  exact ⟨hk val, hr hv⟩

theorem decodeData_exact (hr : decodeData lim decode kind input = .ok (data, rest)) :
    data.kind = kind ∧ input = data.plain ++ rest := by
  have hc : ∀ {code : UInt64}, kind.toNat = code.toNat → code = kind :=
    fun h => (UInt64.toNat_inj.mp h).symm
  rw [decodeData] at hr
  generalize hca : kind.toNat = code at hr
  match code, hca, hr with
  | 0, hk, hr =>
    obtain ⟨rfl, rfl⟩ := pure_eq_ok.mp hr
    exact ⟨hc hk, rfl⟩
  | 1, hk, hr =>
    exact exact_of_part hr decodeBool_exact (fun _ => hc hk) fun _ => rfl
  | 2, hk, hr =>
    exact exact_of_part hr decodeInt_exact (fun _ => hc hk) fun _ => rfl
  | 3, hk, hr =>
    exact exact_of_part hr decodeUint_exact (fun _ => hc hk) fun _ => rfl
  | 4, hk, hr =>
    exact exact_of_part hr decodeFloat64_exact (fun _ => hc hk) fun _ => rfl
  | 5, hk, hr =>
    exact exact_of_part hr decodeComplex128_exact (fun _ => hc hk) fun _ => rfl
  | 6, hk, hr =>
    exact exact_of_part hr (decodeString_exact _) (fun _ => hc hk) fun _ => rfl
  | 7, hk, hr =>
    exact exact_of_part hr (decodeRaw_exact _) (fun _ => hc hk) fun _ => rfl
  | 8, hk, hr =>
    exact exact_of_part hr (decodeCounted_exact lim hd) (fun _ => hc hk) plain_slice
  | 9, hk, hr =>
    exact exact_of_part hr (decodeCounted_exact lim (decodeEntry_exact hd))
      (fun _ => hc hk) plain_map
  | 10, hk, hr =>
    exact exact_of_part hr (decodeCounted_exact lim (decodeField_exact hd))
      (fun _ => hc hk) plain_record
  | 11, hk, hr => exact exact_of_part hr hd (fun _ => hc hk) fun _ => rfl
  | _ + 12, _, hr => cases hr

end Exact

/-- What is read was written, part by part. -/
theorem decodeBinaryValue_exact (limits : Limits) (levels : Nat) :
    Codec.Exact (decodeBinaryValue limits levels) Value.plain := by
  induction levels with
  | zero =>
    intro input val rest hrea
    cases hrea
  | succ levels ih =>
    intro input val rest hrea
    obtain ⟨type, first, ht, hrea⟩ := bind_eq_ok.mp hrea
    obtain ⟨kind, second, hk, hrea⟩ := bind_eq_ok.mp hrea
    rw [decodeTypeName_exact limits ht, decodeUint_exact hk]
    split at hrea
    · rename_i hr
      obtain ⟨ref, third, hre, hrea⟩ := bind_eq_ok.mp hrea
      obtain ⟨rfl, rfl⟩ := pure_eq_ok.mp hrea
      rw [decodeResource_exact limits hre, Value.plain_resource, hr]
      simp only [append_assoc]
    · obtain ⟨data, third, hda, hrea⟩ := bind_eq_ok.mp hrea
      obtain ⟨rfl, rfl⟩ := pure_eq_ok.mp hrea
      obtain ⟨rfl, rfl⟩ := decodeData_exact ih hda
      rw [Value.plain_data]
      simp only [append_assoc]

section Reads

variable {lim : Limits}

theorem decodeTypeName_reads {type : Bytes} (he : type ≠ []) (hv : validUTF8 type = true)
    (ha : Admits lim.maxMessageBytes type.length) :
    Codec.Reads (decodeTypeName lim) encodeString type := by
  intro rest
  have hr : orMalformed (decodeString lim.maxMessageBytes) "invalid rpc value type"
      (encodeString type ++ rest) = .ok (type, rest) := by
    rw [orMalformed, decodeString_reads hv ha rest]
  rw [decodeTypeName, bind_of_eq_ok hr, if_neg he]
  rfl

theorem decodeCount_reads {count : Nat} (ha : Admits lim.maxValueElements count) (rest : Bytes) :
    decodeCount lim (encodeUint (.ofNat count) ++ rest) = .ok (count, rest) := by
  rw [decodeCount, (decodeUint_reads _).bind, if_neg ha.not_lt, ha.toNat_ofNat]
  rfl

theorem decodeCounted_reads {α : Type} {read : Decoder α} {write : α → Bytes} {items : List α}
    (ha : Admits lim.maxValueElements items.length)
    (hi : ∀ item ∈ items, Codec.Reads read write item) :
    Codec.Reads (decodeCounted lim read)
      (fun items => encodeUint (.ofNat items.length) ++ items.flatMap write) items := by
  intro rest
  rw [append_assoc, decodeCounted, bind_of_eq_ok (decodeCount_reads ha _), readMany_reads hi]

theorem decodeResource_reads {ref : ResourceRef} (hv : validUTF8 ref.typeHash = true)
    (ha : Admits lim.maxMessageBytes ref.typeHash.length) :
    Codec.Reads (decodeResource lim) encodeResource ref := by
  intro rest
  rw [decodeResource, encodeResource, append_assoc, append_assoc,
    (decodeUint_reads _).bind, (decodeUint_reads _).bind,
    (decodeString_reads hv ha).bind]
  rfl

variable {decode : Decoder Value}

theorem decodeEntry_reads {entry : MapEntry Value} (hk : Codec.Reads decode Value.plain entry.key)
    (hv : Codec.Reads decode Value.plain entry.value) :
    Codec.Reads (decodeEntry decode) encodePlainEntry entry := by
  intro rest
  rw [decodeEntry, encodePlainEntry, append_assoc, hk.bind, hv.bind]
  rfl

theorem decodeField_reads {field : Field Value} (hid : field.id ≠ 0)
    (hv : Codec.Reads decode Value.plain field.value) :
    Codec.Reads (decodeField decode) encodePlainField field := by
  intro rest
  have hlt := field.id.toNat_lt
  have hn : (ofNat field.id.toNat).toNat = field.id.toNat :=
    toNat_ofNat_of_lt (by change _ < 18446744073709551616; omega)
  have hr : ¬ (ofNat field.id.toNat = 0 ∨ 4294967295 < ofNat field.id.toNat) := by
    rw [not_or, lt_iff_toNat_lt, ← UInt64.toNat_inj, hn]
    refine ⟨fun hz => hid (UInt32.toNat_inj.mp hz), ?_⟩
    change ¬ 4294967295 < field.id.toNat
    omega
  have hb : (ofNat field.id.toNat).toUInt32 = field.id := by
    rw [← UInt32.toNat_inj, toNat_toUInt32, hn, Nat.mod_eq_of_lt (by omega)]
  rw [decodeField, encodePlainField, append_assoc, (decodeUint_reads _).bind,
    if_neg hr, hv.bind, hb]
  rfl

theorem decodeData_reads {type : Bytes} {data : Data Value} (hs : data.Sound type)
    (hch : ∀ child ∈ data.children, Codec.Reads decode Value.plain child)
    (hc : Admits lim.maxValueElements data.children.length)
    (hb : Admits lim.maxMessageBytes data.ownBytes) (rest : Bytes) :
    decodeData lim decode data.kind (data.plain ++ rest) = .ok (data, rest) := by
  cases data with
  | nil => rfl
  | bool val => exact map_eq_ok.mpr ⟨val, decodeBool_reads val rest, rfl⟩
  | int val => exact map_eq_ok.mpr ⟨val, decodeInt_reads val rest, rfl⟩
  | uint val => exact map_eq_ok.mpr ⟨val, decodeUint_reads val rest, rfl⟩
  | float bits => exact map_eq_ok.mpr ⟨bits, decodeFloat64_reads bits rest, rfl⟩
  | complex val => exact map_eq_ok.mpr ⟨val, decodeComplex128_reads val rest, rfl⟩
  | string val =>
    exact map_eq_ok.mpr ⟨val, decodeString_reads hs.2 hb rest, rfl⟩
  | bytes val => exact map_eq_ok.mpr ⟨val, decodeRaw_reads hb rest, rfl⟩
  | slice items =>
    rw [plain_slice]
    exact map_eq_ok.mpr ⟨items, decodeCounted_reads hc hch rest, rfl⟩
  | map entries =>
    rw [plain_map]
    have hlen : entries.length ≤ (map entries).children.length := by
      simp [children, length_flatMap]
      omega
    have hen := forall_mem_entries.mp hch
    exact map_eq_ok.mpr ⟨entries, decodeCounted_reads (hc.mono hlen)
      (fun entry he => decodeEntry_reads (hen entry he).1 (hen entry he).2)
      rest, rfl⟩
  | record fields =>
    rw [plain_record]
    have hlen : fields.length ≤ (record fields).children.length := by
      simp [children]
    exact map_eq_ok.mpr ⟨fields, decodeCounted_reads (hc.mono hlen)
      (fun field hf => decodeField_reads (hs.2.1 field hf) (hch _ (mem_map_of_mem hf))) rest, rfl⟩
  | optional val =>
    exact map_eq_ok.mpr ⟨val, hch val (by simp [children]) rest, rfl⟩

end Reads

theorem Value.elementCount_pos (val : Value) : 0 < val.elementCount := by
  rcases val with ⟨type, _ | ref, data⟩
  · rw [Value.elementCount_mk]
    omega
  · rw [Value.elementCount_resource]
    omega

theorem length_le_sum {α : Type} {weight : α → Nat} (hpos : ∀ item, 0 < weight item)
    (items : List α) : items.length ≤ (items.map weight).sum := by
  induction items with
  | nil => exact Nat.le_refl _
  | cons item items ih =>
    rw [length_cons, map_cons, sum_cons]
    have := hpos item
    omega

theorem Data.kind_ne_resource {V : Type} (data : Data V) : data.kind ≠ wireResource := by
  cases data <;> simp [kind, wireResource]

/-- A valid value that was written plainly is read back. -/
theorem decodeBinaryValue_reads {limits : Limits} {levels : Nat} {top : Bool} {value : Value}
    (hf : value.Fits levels top)
    (hb : Admits limits.maxMessageBytes value.byteCount)
    (he : Admits limits.maxValueElements value.elementCount) :
    Codec.Reads (decodeBinaryValue limits levels) Value.plain value := by
  induction levels generalizing top value with
  | zero => exact hf.elim
  | succ levels ih =>
    rcases value with ⟨type, _ | ref, data⟩
    · obtain ⟨hem, hv, hs, hchi⟩ := Value.fits_data.mp hf
      rw [Value.byteCount_mk] at hb
      rw [Value.elementCount_mk] at he
      have hp : ∀ child ∈ data.children,
          Codec.Reads (decodeBinaryValue limits levels) Value.plain child := by
        intro child hch
        refine ih (hchi child hch) (hb.mono ?_) (he.mono ?_)
        · have := single_le_sum (fun _ _ => Nat.zero_le _) _
            (mem_map_of_mem (f := Value.byteCount) hch)
          omega
        · have := single_le_sum (fun _ _ => Nat.zero_le _) _
            (mem_map_of_mem (f := Value.elementCount) hch)
          omega
      have hc := length_le_sum Value.elementCount_pos data.children
      have hda := decodeData_reads hs hp (he.mono (by omega)) (hb.mono (by omega))
      intro rest
      rw [decodeBinaryValue, Value.plain_data, append_assoc, append_assoc,
        (decodeTypeName_reads hem hv (hb.mono (by omega))).bind,
        (decodeUint_reads _).bind, if_neg data.kind_ne_resource,
        bind_of_eq_ok (hda rest)]
      rfl
    · obtain ⟨hem, hv, -, rfl, -, hh⟩ := Value.fits_resource.mp hf
      rw [Value.byteCount_resource] at hb
      have hlen := trimSpace_length type
      have hu := trimSpace_valid hv
      rw [hh] at hlen hu
      intro rest
      rw [decodeBinaryValue, Value.plain_resource, append_assoc, append_assoc,
        (decodeTypeName_reads hem hv hb).bind, (decodeUint_reads _).bind, if_pos rfl,
        (decodeResource_reads hu (hb.mono hlen)).bind]
      rfl

end MiniGo.Rpc
