/-
The primitive values of an RPC payload (`rpc/wire_codec.go`, `rpc/limits.go`).

A payload is a sequence of bytes; a decoder keeps the part that it has not read
yet. A `float64` is its bit pattern. Strings are byte strings, as in Go: reading
one checks that it is UTF-8, writing one does not.
-/
import MiniGo.Lib.Codec
import MiniGo.Lib.Json

namespace MiniGo.Rpc

open Codec List UInt64

abbrev Bytes := List UInt8

instance Bytes.lawfulBEq : LawfulBEq Bytes := inferInstance

/-- The errors of `wireDecoder`. -/
inductive WireError where
  /-- `truncated MRPC payload`. -/
  | truncated
  /-- `truncated MRPC varint`. -/
  | truncatedVarint
  /-- `overflowing MRPC varint`. -/
  | overflowingVarint
  /-- `non-canonical MRPC varint`. -/
  | nonCanonicalVarint
  /-- `invalid MRPC bool`. -/
  | invalidBool (value : UInt8)
  /-- `invalid MRPC byte length`. -/
  | invalidLength
  /-- `invalid UTF-8 in MRPC string`. -/
  | invalidUTF8
  /-- `MRPC payload has trailing bytes`. -/
  | trailing (count : Nat)
  /-- An error of the value or frame that the payload stands for. -/
  | malformed (message : String)
deriving Repr, DecidableEq

abbrev Decoder (α : Type) := Codec.Reader WireError UInt8 α

def fail {α : Type} (fault : WireError) : Decoder α := throw fault

/-- `utf8.Valid`. -/
def validUTF8 (text : Bytes) : Bool := decide (none ∉ Lib.runes (text.map UInt8.toNat))

section Varints

/-- `binary.MaxVarintLen64`. -/
def maxVarintLen64 : Nat := 10

/-- `binary.AppendUvarint`: groups of seven bits, the lowest first. -/
def uvarintBytes : Nat → Nat → Bytes
  | 0, _ => []
  | groups + 1, value =>
    if value < 128 then [UInt8.ofNat value]
    else UInt8.ofNat (value % 128 + 128) :: uvarintBytes groups (value / 128)

inductive Uvarint where
  | value (value size : Nat)
  | short
  | overflow
deriving Repr, DecidableEq

/-- `binary.Uvarint`. The groups do not overlap, so joining them is addition. -/
def uvarintFrom : Nat → Nat → Nat → Nat → Bytes → Uvarint
  | _, _, _, _, [] => .short
  | 0, _, _, _, _ :: _ => .overflow
  | groups + 1, size, shift, value, byte :: rest =>
    if byte.toNat < 128 then
      if groups = 0 ∧ 1 < byte.toNat then .overflow
      else .value (value + byte.toNat * 2 ^ shift) (size + 1)
    else
      uvarintFrom groups (size + 1) (shift + 7) (value + byte.toNat % 128 * 2 ^ shift) rest

def encodeUint (value : UInt64) : Bytes := uvarintBytes maxVarintLen64 value.toNat

/-- `wireDecoder.Uint`. -/
def decodeUint : Decoder UInt64 := fun data =>
  if data = [] then .error .truncated
  else match uvarintFrom maxVarintLen64 0 0 0 data with
    | .short => .error .truncatedVarint
    | .overflow => .error .overflowingVarint
    | .value value size =>
      if data.take size = encodeUint (.ofNat value) then
        .ok (.ofNat value, data.drop size)
      else .error .nonCanonicalVarint

theorem byte_toNat {value : Nat} (hv : value < 256) : (UInt8.ofNat value).toNat = value :=
  UInt8.toNat_ofNat_of_lt hv

theorem uvarintFrom_bytes {groups value : Nat} (hv : value < 2 ^ (7 * groups - 6))
    (hg : 0 < groups) (size shift pre : Nat) (rest : Bytes) :
    uvarintFrom groups size shift pre (uvarintBytes groups value ++ rest) =
      .value (pre + value * 2 ^ shift) (size + (uvarintBytes groups value).length) := by
  induction groups generalizing value size shift pre with
  | zero => omega
  | succ groups ih =>
    rw [uvarintBytes]
    by_cases hs : value < 128
    · have hb : (UInt8.ofNat value).toNat = value := by
        exact byte_toNat (by omega)
      have hla : ¬(groups = 0 ∧ 1 < value) := by
        rintro ⟨rfl, hl⟩
        norm_num at hv
        omega
      simp only [hs, if_true, cons_append, nil_append, uvarintFrom, hb,
        hla, if_false, length_singleton]
    · have hpos : 0 < groups := by
        rcases Nat.eq_zero_or_pos groups with rfl | hpos
        · norm_num at hv
          omega
        · exact hpos
      have hb : (UInt8.ofNat (value % 128 + 128)).toNat = value % 128 + 128 := by
        exact byte_toNat (by omega)
      have hr : value / 128 < 2 ^ (7 * groups - 6) := by
        rw [Nat.div_lt_iff_lt_mul (by omega)]
        calc value < 2 ^ (7 * (groups + 1) - 6) := hv
          _ = 2 ^ (7 * groups - 6) * 128 := by
              rw [show 7 * (groups + 1) - 6 = (7 * groups - 6) + 7 by omega, pow_add]
              norm_num
      have hl : ¬ value % 128 + 128 < 128 := by omega
      have hlo : (value % 128 + 128) % 128 = value % 128 := by omega
      have hsu : pre + value % 128 * 2 ^ shift + value / 128 * 2 ^ (shift + 7) =
          pre + value * 2 ^ shift := by
        rw [pow_add]
        have := Nat.div_add_mod value 128
        calc pre + value % 128 * 2 ^ shift + value / 128 * (2 ^ shift * 2 ^ 7)
            = pre + (128 * (value / 128) + value % 128) * 2 ^ shift := by ring
          _ = pre + value * 2 ^ shift := by rw [this]
      simp only [hs, if_false, cons_append, uvarintFrom, hb, hl, hlo, ih hr hpos, hsu, length_cons]
      congr 1
      omega

theorem encodeUint_ne_nil (value : UInt64) : encodeUint value ≠ [] := by
  unfold encodeUint maxVarintLen64 uvarintBytes
  split <;> simp

theorem decodeUint_reads (value : UInt64) : Codec.Reads decodeUint encodeUint value := by
  intro rest
  have hd : uvarintFrom maxVarintLen64 0 0 0 (encodeUint value ++ rest) =
      .value value.toNat (encodeUint value).length := by
    have h := @uvarintFrom_bytes maxVarintLen64 _ value.toNat_lt (by decide) 0 0 0 rest
    simpa [encodeUint] using h
  have hne : encodeUint value ++ rest ≠ [] := by simp [encodeUint_ne_nil]
  rw [decodeUint, if_neg hne, hd]
  simp

theorem decodeUint_exact : Codec.Exact decodeUint encodeUint := by
  intro input value rest hr
  unfold decodeUint at hr
  split at hr
  · cases hr
  · split at hr
    · cases hr
    · cases hr
    · rename_i num size _
      split at hr
      · rename_i hc
        obtain ⟨rfl, rfl⟩ := Prod.mk.inj (Except.ok.inj hr)
        rw [← hc, take_append_drop]
      · cases hr

end Varints

section Integers

def zigzag (value : BitVec 64) : BitVec 64 := (value <<< 1) ^^^ value.sshiftRight 63

def unzigzag (value : BitVec 64) : BitVec 64 := (value >>> 1) ^^^ -(value &&& 1#64)

/-- `wireEncoder.Int`. -/
def encodeInt (value : Int64) : Bytes := encodeUint ⟨zigzag value.toBitVec⟩

/-- `wireDecoder.Int`. -/
def decodeInt : Decoder Int64 := do
  let value ← decodeUint
  pure ⟨⟨unzigzag value.toBitVec⟩⟩

theorem getLsbD_neg_and_one (value : BitVec 64) {i : Nat} (hi : i < 64) :
    (-(value &&& 1#64)).getLsbD i = value.getLsbD 0 := by
  rw [BitVec.and_one_eq_setWidth_ofBool_getLsbD]
  cases value.getLsbD 0
  · simp
  · have ho : -(BitVec.setWidth 64 (BitVec.ofBool true)) = BitVec.allOnes 64 := by decide
    rw [ho, BitVec.getLsbD_allOnes]
    exact decide_eq_true hi

theorem getLsbD_zigzag (value : BitVec 64) {i : Nat} (hi : i < 64) :
    (zigzag value).getLsbD i = ((0 < i && value.getLsbD (i - 1)) ^^ value.getLsbD 63) := by
  rw [zigzag, BitVec.getLsbD_xor, BitVec.getLsbD_shiftLeft, BitVec.getLsbD_sshiftRight]
  have hm : value.msb = value.getLsbD 63 := by simp [BitVec.msb_eq_getLsbD_last]
  by_cases hz : i = 0
  · subst hz
    simp
  · have hf : ¬ 63 + i < 64 := by omega
    have hn : ¬ i < 1 := by omega
    have hpos : 0 < i := by omega
    simp [hi, hf, hn, hpos, hm, Nat.not_le.mpr hi]

theorem unzigzag_zigzag (value : BitVec 64) : unzigzag (zigzag value) = value := by
  apply BitVec.eq_of_getLsbD_eq
  intro i hi
  rw [unzigzag, BitVec.getLsbD_xor, getLsbD_neg_and_one _ hi, BitVec.getLsbD_ushiftRight,
    getLsbD_zigzag value (by omega : 0 < 64)]
  by_cases hl : i = 63
  · subst hl
    simp
  · rw [getLsbD_zigzag value (by omega : 1 + i < 64)]
    have hid : 1 + i - 1 = i := by omega
    have hpos : 0 < 1 + i := by omega
    simp [hid, hpos]

theorem zigzag_unzigzag (value : BitVec 64) : zigzag (unzigzag value) = value := by
  apply BitVec.eq_of_getLsbD_eq
  intro i hi
  have hb : ∀ j < 64, (unzigzag value).getLsbD j = (value.getLsbD (1 + j) ^^ value.getLsbD 0) := by
    intro j hj
    rw [unzigzag, BitVec.getLsbD_xor, getLsbD_neg_and_one _ hj, BitVec.getLsbD_ushiftRight]
  rw [getLsbD_zigzag _ hi, hb 63 (by omega), hb (i - 1) (by omega)]
  by_cases hz : i = 0
  · subst hz
    simp
  · have hid : 1 + (i - 1) = i := by omega
    have hpos : 0 < i := by omega
    simp [hid, hpos]

theorem decodeInt_reads (value : Int64) : Codec.Reads decodeInt encodeInt value := by
  intro rest
  rw [decodeInt, encodeInt, (decodeUint_reads _).bind]
  simp only [unzigzag_zigzag]
  rfl

theorem decodeInt_exact : Codec.Exact decodeInt encodeInt := by
  intro input value rest hr
  obtain ⟨num, mid, hn, hr⟩ := bind_eq_ok.mp hr
  obtain ⟨rfl, rfl⟩ := pure_eq_ok.mp hr
  rw [decodeUint_exact hn]
  change _ = encodeUint ⟨zigzag (unzigzag num.toBitVec)⟩ ++ _
  rw [zigzag_unzigzag]

end Integers

section Fixed

def encodeByte (value : UInt8) : Bytes := [value]

/-- `wireDecoder.byte`. -/
def decodeByte : Decoder UInt8
  | [] => .error .truncated
  | value :: rest => .ok (value, rest)

def encodeBool (value : Bool) : Bytes := [if value then 1 else 0]

def decodeBool : Decoder Bool := do
  let value ← decodeByte
  if 1 < value then fail (.invalidBool value) else pure (value == 1)

/-- `wireDecoder.fixed`. -/
def decodeFixed (size : Nat) : Decoder Bytes := fun data =>
  if data.length < size then .error .truncated else .ok (data.take size, data.drop size)

/-- `binary.LittleEndian`. -/
def littleEndian : Nat → Nat → Bytes
  | 0, _ => []
  | count + 1, value => UInt8.ofNat (value % 256) :: littleEndian count (value / 256)

def fromLittleEndian : Bytes → Nat
  | [] => 0
  | byte :: rest => byte.toNat + 256 * fromLittleEndian rest

/-- `wireEncoder.Float64`. -/
def encodeFloat64 (bits : UInt64) : Bytes := littleEndian 8 bits.toNat

def decodeFloat64 : Decoder UInt64 := do
  let bytes ← decodeFixed 8
  pure (.ofNat (fromLittleEndian bytes))

/-- `wireEncoder.Complex128`. -/
def encodeComplex128 (value : UInt64 × UInt64) : Bytes :=
  encodeFloat64 value.1 ++ encodeFloat64 value.2

def decodeComplex128 : Decoder (UInt64 × UInt64) := do
  let realPart ← decodeFloat64
  let imagPart ← decodeFloat64
  pure (realPart, imagPart)

theorem decodeBool_reads (value : Bool) : Codec.Reads decodeBool encodeBool value := by
  intro rest
  cases value <;> rfl

theorem decodeBool_exact : Codec.Exact decodeBool encodeBool := by
  intro input value rest hr
  obtain ⟨byte, mid, hb, hr⟩ := bind_eq_ok.mp hr
  cases input with
  | nil => cases hb
  | cons first others =>
    obtain ⟨rfl, rfl⟩ := Prod.mk.inj (Except.ok.inj hb)
    split at hr
    · cases hr
    · rename_i hs
      obtain ⟨rfl, rfl⟩ := pure_eq_ok.mp hr
      have hc : first = 0 ∨ first = 1 := by
        rw [UInt8.lt_iff_toNat_lt] at hs
        rcases Nat.le_one_iff_eq_zero_or_eq_one.mp (Nat.not_lt.mp hs) with h | h
        · exact .inl (UInt8.toNat_inj.mp h)
        · exact .inr (UInt8.toNat_inj.mp h)
      rcases hc with rfl | rfl <;> rfl

theorem littleEndian_length (count value : Nat) : (littleEndian count value).length = count := by
  induction count generalizing value with
  | zero => rfl
  | succ count ih => rw [littleEndian, length_cons, ih]

theorem fromLittleEndian_littleEndian (count value : Nat) (hv : value < 256 ^ count) :
    fromLittleEndian (littleEndian count value) = value := by
  induction count generalizing value with
  | zero =>
    rw [pow_zero] at hv
    rw [littleEndian, fromLittleEndian]
    omega
  | succ count ih =>
    have hr : value / 256 < 256 ^ count := by
      rw [Nat.div_lt_iff_lt_mul (by omega), ← pow_succ]
      exact hv
    rw [littleEndian, fromLittleEndian, ih _ hr, byte_toNat (Nat.mod_lt _ (by omega))]
    omega

theorem fromLittleEndian_lt (bytes : Bytes) : fromLittleEndian bytes < 256 ^ bytes.length := by
  induction bytes with
  | nil => simp [fromLittleEndian]
  | cons byte rest ih =>
    rw [fromLittleEndian, length_cons, pow_succ]
    have := byte.toNat_lt
    omega

theorem littleEndian_fromLittleEndian (bytes : Bytes) :
    littleEndian bytes.length (fromLittleEndian bytes) = bytes := by
  induction bytes with
  | nil => rfl
  | cons byte rest ih =>
    have hlt := byte.toNat_lt
    rw [length_cons, littleEndian, fromLittleEndian]
    have hl : (byte.toNat + 256 * fromLittleEndian rest) % 256 = byte.toNat := by omega
    have hh : (byte.toNat + 256 * fromLittleEndian rest) / 256 = fromLittleEndian rest := by
      omega
    rw [hl, hh, ih, UInt8.ofNat_toNat]

theorem decodeFloat64_reads (bits : UInt64) : Codec.Reads decodeFloat64 encodeFloat64 bits := by
  intro rest
  have hlen : (encodeFloat64 bits).length = 8 := littleEndian_length 8 _
  have hf : decodeFixed 8 (encodeFloat64 bits ++ rest) = .ok (encodeFloat64 bits, rest) := by
    rw [decodeFixed, if_neg (by rw [length_append, hlen]; omega), ← hlen, take_left, drop_left]
  rw [decodeFloat64, bind_of_eq_ok hf, encodeFloat64,
    fromLittleEndian_littleEndian _ _ bits.toNat_lt, UInt64.ofNat_toNat]
  rfl

theorem decodeFloat64_exact : Codec.Exact decodeFloat64 encodeFloat64 := by
  intro input bits rest hr
  obtain ⟨bytes, mid, hb, hr⟩ := bind_eq_ok.mp hr
  obtain ⟨rfl, rfl⟩ := pure_eq_ok.mp hr
  unfold decodeFixed at hb
  split at hb
  · cases hb
  · rename_i hl
    obtain ⟨rfl, rfl⟩ := Prod.mk.inj (Except.ok.inj hb)
    have hlen : (input.take 8).length = 8 := by
      rw [length_take]
      omega
    have hlt := fromLittleEndian_lt (input.take 8)
    rw [hlen] at hlt
    have hbi : (ofNat (fromLittleEndian (input.take 8))).toNat =
        fromLittleEndian (input.take 8) := toNat_ofNat_of_lt hlt
    have hba := littleEndian_fromLittleEndian (input.take 8)
    rw [hlen] at hba
    rw [encodeFloat64, hbi, hba, take_append_drop]

theorem decodeComplex128_reads (value : UInt64 × UInt64) :
    Codec.Reads decodeComplex128 encodeComplex128 value := by
  intro rest
  rw [decodeComplex128, encodeComplex128, append_assoc, (decodeFloat64_reads _).bind,
    (decodeFloat64_reads _).bind]
  rfl

theorem decodeComplex128_exact : Codec.Exact decodeComplex128 encodeComplex128 := by
  intro input value rest hre
  obtain ⟨realPart, mid, hr, hre⟩ := bind_eq_ok.mp hre
  obtain ⟨imagPart, last, hi, hre⟩ := bind_eq_ok.mp hre
  obtain ⟨rfl, rfl⟩ := pure_eq_ok.mp hre
  rw [decodeFloat64_exact hr, decodeFloat64_exact hi, encodeComplex128, append_assoc]

end Fixed

section Texts

/-- `wireEncoder.Raw`; `wireEncoder.String` is the same. -/
def encodeRaw (value : Bytes) : Bytes := encodeUint (.ofNat value.length) ++ value

/-- `wireDecoder.rawView` of a decoder with the given limit. -/
def decodeRaw (limit : Int64) : Decoder Bytes := do
  let size ← decodeUint
  fun data =>
    if limit.toUInt64 < size ∨ data.length < size.toNat then .error .invalidLength
    else decodeFixed size.toNat data

def encodeString (value : Bytes) : Bytes := encodeRaw value

/-- `wireDecoder.String`. -/
def decodeString (limit : Int64) : Decoder Bytes := do
  let value ← decodeRaw limit
  if validUTF8 value then pure value else fail .invalidUTF8

/-- Lengths that a decoder with the given limit accepts. -/
def Admits (limit : Int64) (length : Nat) : Prop := (length : Int) ≤ limit.toInt

variable {limit : Int64} {value : Bytes} {length : Nat}

theorem Admits.mono {short long : Nat} (hl : Admits limit long)
    (hle : short ≤ long) : Admits limit short := by
  unfold Admits at *
  omega

theorem Admits.toNat_ofNat (ha : Admits limit length) : (ofNat length).toNat = length := by
  have := limit.toInt_lt
  unfold Admits at ha
  exact toNat_ofNat_of_lt (by norm_num [UInt64.size]; omega)

theorem toUInt64_toNat (hl : 0 ≤ limit.toInt) : (limit.toUInt64.toNat : Int) = limit.toInt := by
  change ((limit.toBitVec.toNat : Nat) : Int) = limit.toBitVec.toInt
  change 0 ≤ limit.toBitVec.toInt at hl
  rw [BitVec.toInt_eq_toNat_cond] at hl ⊢
  split at hl
  · rw [if_pos (by assumption)]
  · have := limit.toBitVec.isLt
    omega

theorem Admits.not_lt (ha : Admits limit length) : ¬ limit.toUInt64 < ofNat length := by
  have hlen := ha.toNat_ofNat
  unfold Admits at ha
  have hl := @toUInt64_toNat limit (by omega)
  rw [lt_iff_toNat_lt, hlen]
  omega

theorem decodeRaw_reads
    (ha : Admits limit value.length) : Codec.Reads (decodeRaw limit) encodeRaw value := by
  intro rest
  have hlen := ha.toNat_ofNat
  rw [decodeRaw, encodeRaw, append_assoc, (decodeUint_reads _).bind, hlen,
    if_neg (by rw [not_or, length_append]; exact ⟨ha.not_lt, by omega⟩), decodeFixed,
    if_neg (by rw [length_append]; omega), take_left, drop_left]

theorem decodeRaw_exact (limit : Int64) : Codec.Exact (decodeRaw limit) encodeRaw := by
  intro input value rest hr
  obtain ⟨size, mid, hs, hr⟩ := bind_eq_ok.mp hr
  split at hr
  · cases hr
  · rename_i hf
    rw [not_or] at hf
    rw [decodeFixed, if_neg hf.2] at hr
    obtain ⟨rfl, rfl⟩ := Prod.mk.inj (Except.ok.inj hr)
    have hlen : (mid.take size.toNat).length = size.toNat := by
      rw [length_take]
      omega
    rw [decodeUint_exact hs, encodeRaw, hlen, UInt64.ofNat_toNat, append_assoc, take_append_drop]

theorem decodeString_reads (hv : validUTF8 value = true) (ha : Admits limit value.length) :
    Codec.Reads (decodeString limit) encodeString value := by
  intro rest
  rw [decodeString, encodeString, (decodeRaw_reads ha).bind, if_pos hv]
  rfl

theorem decodeString_exact (limit : Int64) : Codec.Exact (decodeString limit) encodeString := by
  intro input value rest hr
  obtain ⟨text, mid, ht, hr⟩ := bind_eq_ok.mp hr
  split at hr
  · obtain ⟨rfl, rfl⟩ := pure_eq_ok.mp hr
    exact decodeRaw_exact limit ht
  · cases hr

end Texts
end MiniGo.Rpc
