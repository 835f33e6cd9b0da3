/-
What a receiver understands of the frames that its peer encodes.

A frame is encoded under the limits that both endpoints agreed on and decoded under
the receiver's own. Every field except the labels is read back: lengths are bounded
by the length of the message, texts were checked by the sender, and `Bind` bounds the
number of methods. The labels of a request are bounded by nobody before they are sent.
-/
import MiniGo.Rpc.Frame
import MiniGo.Rpc.ValueCanonical

namespace MiniGo.Rpc

open List

open Codec (ReadsOn)

/-- Inputs that a decoder with the given limit can hold. -/
def Fits (limit : Int64) (input : Bytes) : Prop := Admits limit input.length

theorem Fits.tail {limit : Int64} (first rest : Bytes) (hf : Fits limit (first ++ rest)) :
    Fits limit rest :=
  Admits.mono hf (by rw [length_append]; omega)

theorem Fits.head {limit : Int64} {first rest : Bytes} (hf : Fits limit (first ++ rest)) :
    Fits limit first :=
  Admits.mono hf (by rw [length_append]; omega)

variable {limit : Int64} {limits : Limits} {frame : EndpointFrame}

section Parts

theorem encodeRaw_length_le (val : Bytes) : val.length ≤ (encodeRaw val).length := by
  rw [encodeRaw, length_append]
  omega

theorem decodeRaw_readsOn (value : Bytes) :
    ReadsOn (Fits limit) (decodeRaw limit) encodeRaw value := fun rest hf =>
  decodeRaw_reads (Admits.mono hf.head (encodeRaw_length_le value)) rest

theorem decodeString_readsOn {value : Bytes} (hv : validUTF8 value = true) :
    ReadsOn (Fits limit) (decodeString limit) encodeString value := fun rest hf =>
  decodeString_reads hv (Admits.mono hf.head (encodeRaw_length_le value)) rest

theorem decodeResource_readsOn {ref : ResourceRef} (hv : validUTF8 ref.typeHash = true) :
    ReadsOn (Fits limits.maxMessageBytes) (decodeResource limits) encodeResource ref := by
  intro rest hf
  refine decodeResource_reads hv (Admits.mono hf.head ?_) rest
  have hlen := encodeRaw_length_le ref.typeHash
  rw [encodeResource, encodeString, length_append]
  omega

theorem decodeOption_readsOn {α : Type} {decode : Decoder α} {encode : α → Bytes}
    {value : Option α} (hrd : ∀ inner ∈ value, ReadsOn (Fits limit) decode encode inner) :
    ReadsOn (Fits limit) (decodeOption decode) (encodeOption encode) value := by
  intro rest hf
  cases value with
  | none => exact (decodeBool_reads false).bind _ rest
  | some inner =>
    rw [encodeOption, append_assoc] at hf ⊢
    rw [decodeOption, (decodeBool_reads true).bind, if_pos rfl]
    exact Codec.map_eq_ok.mpr ⟨inner, hrd inner rfl rest (hf.tail _ _), rfl⟩

theorem decodeWireMethod_readsOn {method : Method} (hv : validWireMethodText method = true) :
    ReadsOn (Fits limit) (decodeWireMethod limit) encodeWireMethod method := by
  simp only [validWireMethodText, Bool.and_eq_true] at hv
  obtain ⟨⟨⟨⟨hid, hs⟩, hn⟩, hc⟩, hr⟩ := hv
  intro rest hf
  simp only [encodeWireMethod, append_assoc] at hf ⊢
  refine (decodeString_readsOn hid).followed Fits.tail hf fun hf => ?_
  refine (decodeString_readsOn hs).followed Fits.tail hf fun hf => ?_
  refine (decodeString_readsOn hn).followed Fits.tail hf fun hf => ?_
  refine (decodeString_readsOn hc).followed Fits.tail hf fun hf => ?_
  exact (decodeString_readsOn hr).bind hf _

theorem decodeWireCall_readsOn {call : WireCall}
    (hm : validWireMethodText call.method = true) (hr : validRef call.receiver = true) :
    ReadsOn (Fits limits.maxMessageBytes) (decodeWireCall limits) encodeWireCall call := by
  intro rest hf
  simp only [encodeWireCall, append_assoc] at hf ⊢
  refine (decodeWireMethod_readsOn hm).followed Fits.tail hf fun hf => ?_
  refine (decodeOption_readsOn ?_).followed Fits.tail hf fun hf => ?_
  · intro ref hmem
    exact decodeResource_readsOn ((Option.all_eq_true _ _).mp hr ref hmem)
  exact (decodeRaw_readsOn call.arguments).bind hf _

/-- Limits that can be sent. -/
def Limits.Nonnegative (limits : Limits) : Prop := ∀ value ∈ limits.toList, 0 ≤ value.toInt

theorem decodeWireLimit_reads {value : Int64} (hv : 0 ≤ value.toInt) :
    Codec.Reads decodeWireLimit (fun value => encodeUint value.toUInt64) value := by
  intro rest
  have hn := toUInt64_toNat hv
  have hlt := value.toInt_lt
  have hs : ¬ (9223372036854775807 : UInt64) < value.toUInt64 := by
    rw [UInt64.lt_iff_toNat_lt]
    change ¬ 9223372036854775807 < value.toUInt64.toNat
    omega
  rw [decodeWireLimit, (decodeUint_reads _).bind, if_neg hs]
  rfl

theorem decodeWireLimits_reads {sent : Limits} (hs : sent.Nonnegative) :
    Codec.Reads decodeWireLimits encodeWireLimits sent := fun rest =>
  Codec.map_eq_ok.mpr ⟨sent.toList, Codec.readMany_reads
    (fun val hv => decodeWireLimit_reads (hs val hv)) rest, rfl⟩

theorem length_le_flatMap {α : Type} {write : α → Bytes} (hwr : ∀ val, write val ≠ [])
    (vals : List α) : vals.length ≤ (vals.flatMap write).length := by
  induction vals with
  | nil => exact le_rfl
  | cons val vals ih =>
    have := length_pos_of_ne_nil (hwr val)
    rw [flatMap_cons, length_append, length_cons]
    omega

theorem encodeString_ne_nil (val : Bytes) : encodeString val ≠ [] := fun hnil =>
  encodeUint_ne_nil _ (List.append_eq_nil_iff.mp hnil).1

theorem decodeWireContract_readsOn {contract : Contract} (hp : validUTF8 contract.protocol = true)
    (hm : ∀ method ∈ contract.methods, validWireMethodText method = true)
    (hc : Admits limits.maxMethods contract.methods.length) :
    ReadsOn (Fits limits.maxMessageBytes) (decodeWireContract limits) encodeWireContract
      contract := by
  intro rest hf
  simp only [encodeWireContract, append_assoc] at hf ⊢
  refine (decodeString_readsOn hp).followed Fits.tail hf fun hf => ?_
  rw [(decodeUint_reads _).bind, if_neg hc.not_lt, hc.toNat_ofNat]
  exact Codec.bind_of_eq_ok (Codec.readMany_readsOn Fits.tail
    (fun method hmem => decodeWireMethod_readsOn (hm method hmem)) (hf.tail _ _))

end Parts

section Labels

/-- The labels that a receiver with the given limits accepts. -/
def Labels.Understood (labels : Labels) (limits : Limits) : Prop :=
  Admits limits.maxMethods labels.entries.length ∧ ∀ entry ∈ labels.entries, entry.1 ≠ []

variable {lim : Limits}

variable {entry : Bytes × Bytes}

theorem insertLabel_last {entries : List (Bytes × Bytes)}
    (hl : ∀ other ∈ entries, bytesLess other.1 entry.1 = true) :
    insertLabel entry entries = entries ++ [entry] := by
  induction entries with
  | nil => rfl
  | cons head rest ih =>
    rw [forall_mem_cons] at hl
    rw [insertLabel, bytesLess_asymm hl.1, if_neg Bool.false_ne_true, if_pos hl.1,
      ih hl.2, cons_append]

variable {rest : Bytes} {labels : Labels}

/-- One turn of the loop: the entry is read, and then checked. -/
theorem decodeLabels_step (count : Nat) (labels : Labels)
    (hk : validUTF8 entry.1 = true) (hv : validUTF8 entry.2 = true)
    (hf : Fits limit (encodeLabel entry ++ rest)) :
    decodeLabels limit (count + 1) labels (encodeLabel entry ++ rest) =
      (if entry.1 = [] then fail (.malformed "rpc label has empty key")
      else if entry.1 ∈ labels.entries.map Prod.fst then
        fail (.malformed "rpc label is duplicated")
      else decodeLabels limit count (labels.insert entry)) rest := by
  rw [encodeLabel, append_assoc] at hf ⊢
  rw [decodeLabels]
  refine (decodeString_readsOn hk).followed Fits.tail hf fun hf => ?_
  exact (decodeString_readsOn hv).bind hf _

theorem decodeLabels_reads (todo : List (Bytes × Bytes)) {res : Labels}
    (hr : res.entries = labels.entries ++ todo)
    (htx : ∀ entry ∈ todo, validUTF8 entry.1 = true ∧ validUTF8 entry.2 = true)
    (hk : ∀ entry ∈ todo, entry.1 ≠ [])
    (hf : Fits limit (todo.flatMap encodeLabel ++ rest)) :
    decodeLabels limit todo.length labels (todo.flatMap encodeLabel ++ rest) = .ok (res, rest) := by
  induction todo generalizing labels with
  | nil =>
    obtain ⟨entries, hor⟩ := labels
    obtain ⟨others, hot⟩ := res
    rw [append_nil] at hr
    subst hr
    rfl
  | cons entry todo ih =>
    rw [forall_mem_cons] at htx hk
    rw [flatMap_cons, append_assoc] at hf ⊢
    have hor := res.ordered
    rw [hr, pairwise_append] at hor
    have hla : ∀ other ∈ labels.entries, bytesLess other.1 entry.1 = true :=
      fun other ho => hor.2.2 other ho entry mem_cons_self
    -- A key among those read so far would be less than itself.
    have hfr : entry.1 ∉ labels.entries.map Prod.fst := by
      intro hmem
      obtain ⟨other, ho, hs⟩ := mem_map.mp hmem
      have hl := hla other ho
      rw [hs] at hl
      exact Bool.false_ne_true ((bytesLess_asymm hl).symm.trans hl)
    rw [length_cons, decodeLabels_step _ _ htx.1.1 htx.1.2 hf, if_neg hk.1, if_neg hfr]
    refine ih ?_ htx.2 hk.2 (hf.tail _ _)
    rw [hr, Labels.insert_entries, insertLabel_last hla, append_assoc]
    rfl

theorem decodeLabels_fails (todo : List (Bytes × Bytes)) (labels : Labels)
    (htx : ∀ entry ∈ todo, validUTF8 entry.1 = true ∧ validUTF8 entry.2 = true)
    (hk : ∃ entry ∈ todo, entry.1 = [])
    (hf : Fits limit (todo.flatMap encodeLabel ++ rest)) :
    ∃ fault, decodeLabels limit todo.length labels (todo.flatMap encodeLabel ++ rest) =
      .error fault := by
  induction todo generalizing labels with
  | nil => simp at hk
  | cons entry todo ih =>
    rw [forall_mem_cons] at htx
    rw [flatMap_cons, append_assoc] at hf ⊢
    rw [length_cons, decodeLabels_step _ _ htx.1.1 htx.1.2 hf]
    split_ifs with he hs
    · exact ⟨_, rfl⟩
    · exact ⟨_, rfl⟩
    · rw [exists_mem_cons_iff] at hk
      exact ih _ htx.2 (hk.resolve_left he) (hf.tail _ _)

theorem encodeLabel_ne_nil (entry : Bytes × Bytes) : encodeLabel entry ≠ [] := fun hnil =>
  encodeString_ne_nil _ (List.append_eq_nil_iff.mp hnil).1

theorem Labels.texts_valid (htx : labels.validTexts = true) :
    ∀ entry ∈ labels.entries, validUTF8 entry.1 = true ∧ validUTF8 entry.2 = true := by
  simpa [Labels.validTexts] using htx

theorem Labels.toNat_count (hf : Fits limit (encodeWireLabels labels ++ rest)) :
    (UInt64.ofNat labels.entries.length).toNat = labels.entries.length := by
  refine Admits.toNat_ofNat (Admits.mono hf.head ?_)
  have := length_le_flatMap encodeLabel_ne_nil labels.entries
  rw [encodeWireLabels, length_append]
  omega

theorem decodeWireLabels_readsOn (htx : labels.validTexts = true) (hu : labels.Understood lim) :
    ReadsOn (Fits lim.maxMessageBytes) (decodeWireLabels lim) encodeWireLabels labels := by
  intro rest hf
  have hc := labels.toNat_count hf
  rw [encodeWireLabels, append_assoc] at hf ⊢
  rw [decodeWireLabels, (decodeUint_reads _).bind, if_neg hu.1.not_lt, hc]
  exact decodeLabels_reads labels.entries rfl (Labels.texts_valid htx) hu.2 (hf.tail _ _)

theorem decodeWireLabels_fails (hm : 0 ≤ lim.maxMethods.toInt) (htx : labels.validTexts = true)
    (hnot : ¬ labels.Understood lim)
    (hf : Fits lim.maxMessageBytes (encodeWireLabels labels ++ rest)) :
    ∃ fault, decodeWireLabels lim (encodeWireLabels labels ++ rest) = .error fault := by
  have hc := labels.toNat_count hf
  rw [encodeWireLabels, append_assoc] at hf ⊢
  rw [decodeWireLabels, (decodeUint_reads _).bind]
  split_ifs with hma
  · exact ⟨_, rfl⟩
  · rw [hc]
    refine decodeLabels_fails labels.entries {} (Labels.texts_valid htx) ?_ (hf.tail _ _)
    by_contra hnone
    push Not at hnone
    refine hnot ⟨?_, hnone⟩
    rw [UInt64.lt_iff_toNat_lt, hc] at hma
    have := toUInt64_toNat hm
    unfold Admits
    omega

end Labels

section Frames

/-- What `validateEndpointFrame` ensures of the parts of a frame. -/
structure EndpointFrame.Sound (frame : EndpointFrame) : Prop where
  origin : validUTF8 frame.origin = true
  texts : frame.validTexts = true
  labels : frame.labels.validTexts = true
  protocol : ∀ contract ∈ frame.contract, validUTF8 contract.protocol = true
  methods : ∀ contract ∈ frame.contract, ∀ method ∈ contract.methods,
    validWireMethodText method = true
  call : ∀ call ∈ frame.call, validWireMethodText call.method = true ∧ validRef call.receiver = true
  ref : ∀ ref ∈ frame.ref, validUTF8 ref.typeHash = true
  kind : validateKind frame = .ok ()

theorem validateEndpointFrame_sound (hv : validateEndpointFrame frame = .ok ()) :
    frame.Sound := by
  unfold validateEndpointFrame at hv
  split_ifs at hv with ho hl htx hlb hp hm hc hr
  simp only [not_or, Bool.not_eq_true', Bool.not_eq_false] at ho htx hlb
  simp only [Bool.not_eq_true', Bool.not_eq_false] at hp hm hc hr
  refine ⟨ho.2, htx, hlb, (Option.all_eq_true _ _).mp hp, ?_, ?_,
    (Option.all_eq_true _ _).mp hr, hv⟩
  · intro contract hct
    exact all_eq_true.mp ((Option.all_eq_true _ _).mp hm contract hct)
  · intro call hmem
    exact Bool.and_eq_true_iff.mp ((Option.all_eq_true _ _).mp hc call hmem)

/-- The fields of a frame that precede its labels. -/
def EndpointFrame.opening (frame : EndpointFrame) : EndpointFrame :=
  { frame with
    labels := {}, hops := 0, call := none, ref := none, values := [], accept := false,
    code := [], message := [], timeout := 0 }

theorem decodeOpening_reads (hs : frame.Sound) (hl : ∀ sent ∈ frame.limits, sent.Nonnegative)
    (hc : ∀ contract ∈ frame.contract, Admits limits.maxMethods contract.methods.length)
    {rest : Bytes} (hf : Fits limits.maxMessageBytes (encodeOpening frame ++ rest)) :
    decodeOpening limits frame.kind (encodeOpening frame ++ rest) = .ok (frame.opening, rest) := by
  have htx := hs.texts
  simp only [EndpointFrame.validTexts, Bool.and_eq_true] at htx
  simp only [encodeOpening, append_assoc] at hf ⊢
  refine (decodeString_readsOn htx.1.1.1).followed Fits.tail hf fun hf => ?_
  refine (decodeOption_readsOn fun sent hse =>
    (decodeWireLimits_reads (hl sent hse)).on).followed Fits.tail hf fun hf => ?_
  refine (decodeInt_reads _).on.followed Fits.tail hf fun hf => ?_
  refine (decodeInt_reads _).on.followed Fits.tail hf fun hf => ?_
  refine (decodeInt_reads _).on.followed Fits.tail hf fun hf => ?_
  refine (decodeString_readsOn hs.origin).followed Fits.tail hf fun hf => ?_
  refine (decodeUint_reads _).on.followed Fits.tail hf fun hf => ?_
  refine (decodeUint_reads _).on.followed Fits.tail hf fun hf => ?_
  refine (decodeUint_reads _).on.followed Fits.tail hf fun hf => ?_
  refine (decodeBool_reads _).on.followed Fits.tail hf fun hf => ?_
  refine (decodeUint_reads _).on.followed Fits.tail hf fun hf => ?_
  refine (decodeOption_readsOn fun contract hmem => decodeWireContract_readsOn
    (hs.protocol contract hmem) (hs.methods contract hmem)
    (hc contract hmem)).followed Fits.tail hf fun hf => ?_
  exact (decodeString_readsOn htx.2).bind hf _

theorem decodeClosing_reads (hs : frame.Sound) (hl : frame.labels.Understood limits)
    (hf : Fits limits.maxMessageBytes (encodeClosing frame)) :
    decodeClosing limits frame.opening (encodeClosing frame) = .ok (frame, []) := by
  have htx := hs.texts
  simp only [EndpointFrame.validTexts, Bool.and_eq_true] at htx
  rw [encodeClosing, ← append_nil (encodeInt frame.timeout)] at hf ⊢
  refine (decodeWireLabels_readsOn hs.labels hl).followed Fits.tail hf fun hf => ?_
  refine (decodeInt_reads _).on.followed Fits.tail hf fun hf => ?_
  refine (decodeOption_readsOn fun call hmem => decodeWireCall_readsOn
    (hs.call call hmem).1 (hs.call call hmem).2).followed Fits.tail hf
    fun hf => ?_
  refine (decodeOption_readsOn fun ref hmem =>
    decodeResource_readsOn (hs.ref ref hmem)).followed Fits.tail hf fun hf => ?_
  refine (decodeRaw_readsOn _).followed Fits.tail hf fun hf => ?_
  refine (decodeBool_reads _).on.followed Fits.tail hf fun hf => ?_
  refine (decodeString_readsOn htx.1.1.2).followed Fits.tail hf fun hf => ?_
  refine (decodeString_readsOn htx.1.2).followed Fits.tail hf fun hf => ?_
  exact (decodeInt_reads _).bind _ []

theorem FrameKind.ofCode_code (kind : FrameKind) : FrameKind.ofCode kind.code = some kind := by
  cases kind <;> rfl

theorem decodeHead_encodeFrame (frame : EndpointFrame) : decodeHead (encodeFrame frame) =
      .ok (frame.kind, encodeOpening frame ++ encodeClosing frame) := by
  have hm : decodeFixed 4 (encodeFrame frame) = .ok (endpointFrameMagic,
      encodeByte endpointFrameVersion ++ (encodeUint frame.kind.code ++
        (encodeOpening frame ++ encodeClosing frame))) := rfl
  have hv : ∀ rest, decodeByte (encodeByte endpointFrameVersion ++ rest) =
      .ok (endpointFrameVersion, rest) := fun _ => rfl
  simp only [decodeHead, hm, hv, ne_eq, not_true, if_false, decodeUint_reads _ _,
    FrameKind.ofCode_code]

/-- A message of an acceptable size is read as far as its labels, and then stands or
falls with them. -/
theorem decodeEndpointFrame_iff (hv : validateEndpointFrame frame = .ok ())
    (hn : normalizeLimits limits = limits) (hm : 0 ≤ limits.maxMethods.toInt)
    (hli : ∀ sent ∈ frame.limits, sent.Nonnegative)
    (hc : ∀ contract ∈ frame.contract, Admits limits.maxMethods contract.methods.length)
    (hf : Fits limits.maxMessageBytes (encodeFrame frame)) :
    decodeEndpointFrame (encodeFrame frame) limits = .ok frame ↔
      frame.labels.Understood limits := by
  have hs := validateEndpointFrame_sound hv
  have hr : Fits limits.maxMessageBytes (encodeOpening frame ++ encodeClosing frame) :=
    ((hf.tail _ _).tail _ _).tail _ _
  have hsi : ¬ (encodeFrame frame = [] ∨
      limits.maxMessageBytes.toInt < (encodeFrame frame).length) := by
    rw [not_or]
    exact ⟨nofun, not_lt.mpr hf⟩
  have hfl : decodeFields limits frame.kind (encodeOpening frame ++ encodeClosing frame) =
      decodeClosing limits frame.opening (encodeClosing frame) :=
    Codec.bind_of_eq_ok (decodeOpening_reads hs hli hc hr)
  simp only [decodeEndpointFrame, hn, if_neg hsi, decodeHead_encodeFrame, hfl]
  by_cases hl : frame.labels.Understood limits
  · rw [decodeClosing_reads hs hl (hr.tail _ _)]
    simp [hv, hl]
  · obtain ⟨fault, hfa⟩ :=
      decodeWireLabels_fails hm hs.labels hl (hr.tail _ _)
    rw [show decodeClosing _ frame.opening (encodeClosing frame) = _ from
      Codec.bind_of_eq_error hfa]
    simp [hl]

end Frames

section Peers

variable {sorter : SliceSort} {limits negotiated : Limits}

theorem validateWireLimits_positive (hv : validateWireLimits limits = true) :
    ∀ val ∈ limits.toList, 0 < val.toInt := by
  simp only [validateWireLimits, Bool.and_eq_true, decide_eq_true_eq, Int64.lt_iff_toInt_lt,
    Int64.le_iff_toInt_le] at hv
  change (((((((((( (256 : Int) ≤ _ ∧ (0 : Int) < _) ∧ _) ∧ (0 : Int) < _) ∧ (0 : Int) < _) ∧
    (0 : Int) < _) ∧ (0 : Int) < _) ∧ (0 : Int) < _) ∧ (0 : Int) < _) ∧ (0 : Int) < _) ∧
    (0 : Int) < _) at hv
  simp only [Limits.toList, forall_mem_cons, not_mem_nil, false_imp_iff, implies_true, and_true]
  omega

theorem openLimits_eq_some {opened : Limits} (hopen : openLimits limits = some opened) :
    validateWireLimits opened = true ∧ opened = normalizeLimits limits := by
  unfold openLimits at hopen
  split_ifs at hopen with hv
  obtain rfl := Option.some.inj hopen
  exact ⟨hv, rfl⟩

theorem orDefault_idem (val : Int64) {default : Int64} :
    orDefault (orDefault val default) default = orDefault val default := by
  unfold orDefault
  split_ifs <;> rfl

theorem normalizeLimits_idem (limits : Limits) :
    normalizeLimits (normalizeLimits limits) = normalizeLimits limits := by
  simp only [normalizeLimits, orDefault_idem]

theorem min_toInt_le_right (first second : Int64) : (min first second).toInt ≤ second.toInt := by
  change (if first ≤ second then first else second).toInt ≤ second.toInt
  split_ifs with hle
  · exact Int64.le_iff_toInt_le.mp hle
  · exact le_rfl

theorem normalizeContract_length {requested contract : Contract}
    (hc : normalizeContract sorter requested limit = .ok contract) :
    Admits limit contract.methods.length := by
  unfold normalizeContract at hc
  split_ifs at hc with hp he hl
  split at hc
  · cases hc
  · obtain rfl := Except.ok.inj hc
    rw [(sorter.perm _ _).length_eq]
    exact not_lt.mp hl

theorem validateKind_limits (hv : validateKind frame = .ok ()) (hk : frame.kind = .hello)
    (hli : frame.limits = some limits) : validateWireLimits limits = true := by
  unfold validateKind at hv
  rw [hk] at hv
  dsimp only at hv
  unfold validateHello at hv
  rw [hli] at hv
  dsimp only at hv
  split_ifs at hv with hf hl hw
  exact hw

/-- Limits are sent with a hello only, and were checked there. -/
theorem PublicFrame.limits_nonnegative (hp : PublicFrame sorter negotiated frame)
    (hs : frame.Sound) :
    ∀ sent ∈ frame.limits, sent.Nonnegative := by
  cases hp with
  | hello protocol origin limits leaseTTL admissionTimeout maxCallDuration =>
    rintro sent ⟨⟩ val hv
    exact (validateWireLimits_positive (validateKind_limits hs.kind rfl rfl) val hv).le
  | bind => nofun
  | other hl =>
    rw [hl]
    nofun

theorem PublicFrame.methods_length (hp : PublicFrame sorter negotiated frame) :
    ∀ contract ∈ frame.contract, Admits negotiated.maxMethods contract.methods.length := by
  cases hp with
  | hello => nofun
  | bind affinityKey origin labels hops timeout id hc =>
    rintro contract ⟨⟩
    exact normalizeContract_length hc
  | other hl hc =>
    rw [hc]
    nofun

/-- A frame that an endpoint builds and encodes under the limits negotiated with its
peer is understood by the peer exactly when its labels are: the peer refuses an empty
key and more labels than its limit of methods, and the sender asks for neither. A hello goes
out before the negotiation, under the sender's own limit alone; for it the statement is about
the case that this limit is the negotiated one. -/
theorem endpointFrame_understood_iff (sorter : SliceSort) {ownLimits peer peerLimits : Limits}
    {frame : EndpointFrame} {payload : Bytes} (hpeer : openLimits peer = some peerLimits)
    (hpublic : PublicFrame sorter (minLimits ownLimits peerLimits) frame)
    (hencode : encodeEndpointFrame frame (minLimits ownLimits peerLimits).maxMessageBytes =
      .ok payload) :
    decodeEndpointFrame payload peerLimits = .ok frame ↔ frame.labels.Understood peerLimits := by
  obtain ⟨hpeerValid, hpeerEq⟩ := openLimits_eq_some hpeer
  have hmethods : 0 ≤ peerLimits.maxMethods.toInt :=
    (validateWireLimits_positive hpeerValid _ (by simp [Limits.toList])).le
  have hnormal : normalizeLimits peerLimits = peerLimits := by
    rw [hpeerEq, normalizeLimits_idem]
  unfold encodeEndpointFrame at hencode
  split at hencode
  · cases hencode
  rename_i hvalid
  split_ifs at hencode with hsize
  obtain rfl := Except.ok.inj hencode
  rw [not_or, not_lt] at hsize
  refine decodeEndpointFrame_iff hvalid hnormal hmethods
    (hpublic.limits_nonnegative (validateEndpointFrame_sound hvalid)) ?_
    (hsize.2.trans (min_toInt_le_right _ _))
  intro contract hcontract
  exact (hpublic.methods_length contract hcontract).trans (min_toInt_le_right _ _)

def probe : Method where
  id := text "echo.Send"
  service := text "echo"
  name := text "Send"
  contractHash := List.replicate 64 48
  resourceTypeHash := []

/-- A request for `probe` with one label. -/
def labelled (key : Bytes) : EndpointFrame :=
  { kind := .bind, contract := some ⟨contractProtocol, [probe]⟩, origin := text "client",
    labels := ⟨[(key, text "blue")], List.pairwise_singleton _ _⟩, id := 1 }

theorem labelled_public (key : Bytes) :
    PublicFrame insertionSorter (minLimits (normalizeLimits {}) (normalizeLimits {}))
      (labelled key) :=
  @PublicFrame.bind _ _ ⟨contractProtocol, [probe]⟩ _ _ _ _ _ _ _ rfl

/-- A label with a key reaches the peer. -/
theorem labelled_understood :
    decodeEndpointFrame (encodeFrame (labelled (text "pool"))) (normalizeLimits {}) =
      .ok (labelled (text "pool")) := by
  refine (@endpointFrame_understood_iff insertionSorter (normalizeLimits {}) {} _ _ _ rfl
    (labelled_public _) (by decide +kernel)).mpr ⟨?_, ?_⟩
  · unfold Admits
    decide
  · simp [labelled, text]

/-- A label without a key is encoded and refused by the peer, which then closes the
connection. -/
theorem labelled_refused : openLimits {} = some (normalizeLimits {}) ∧
      PublicFrame insertionSorter (minLimits (normalizeLimits {}) (normalizeLimits {}))
        (labelled []) ∧
      encodeEndpointFrame (labelled [])
        (minLimits (normalizeLimits {}) (normalizeLimits {})).maxMessageBytes =
          .ok (encodeFrame (labelled [])) ∧
      decodeEndpointFrame (encodeFrame (labelled [])) (normalizeLimits {}) =
        .error (.decode (.malformed "rpc label has empty key")) :=
  ⟨rfl, labelled_public [], by decide +kernel, by decide +kernel⟩

end Peers

end MiniGo.Rpc
