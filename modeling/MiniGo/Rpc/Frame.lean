/-
Endpoint frames and their encoding (`rpc/endpoint_frame.go`,
`rpc/endpoint_codec.go` and the rest of `rpc/wire_codec.go`).

The kind of a frame is an enumeration: a frame of any other kind is never encoded.
`queuedAt` and `writeDone` belong to the sender's queue and are not part of a frame
here. `wireLimits` has the fields of `Limits`. A Go map is represented by its
entries in the order of their keys, and a nil slice or map is an empty one.
-/
import MiniGo.Rpc.Value

namespace MiniGo.Rpc

open List

inductive FrameKind where
  | hello | ready | bind | call | decision | drop | close | cancel
  | renew | renewAck | accepted | offer | done
deriving Repr, DecidableEq

/-- `endpointKinds`. -/
def FrameKind.code : FrameKind → UInt64
  | .hello => 1
  | .ready => 2
  | .bind => 3
  | .call => 4
  | .decision => 5
  | .drop => 6
  | .close => 7
  | .cancel => 8
  | .renew => 10
  | .renewAck => 11
  | .accepted => 12
  | .offer => 13
  | .done => 14

def FrameKind.all : List FrameKind :=
  [.hello, .ready, .bind, .call, .decision, .drop, .close, .cancel, .renew, .renewAck,
    .accepted, .offer, .done]

/-- `endpointKindName`. -/
def FrameKind.ofCode (code : UInt64) : Option FrameKind :=
  FrameKind.all.find? fun kind => kind.code == code

theorem nil_ordered :
    ([] : List (Bytes × Bytes)).Pairwise fun first second => bytesLess first.1 second.1 = true :=
  .nil

/-- A Go map from strings to strings. -/
structure Labels where
  entries : List (Bytes × Bytes) := []
  ordered : entries.Pairwise fun first second => bytesLess first.1 second.1 = true := by
    exact nil_ordered
deriving Repr, DecidableEq

/-- `rpc.Method`. -/
structure Method where
  id : Bytes
  service : Bytes
  name : Bytes
  contractHash : Bytes
  resourceTypeHash : Bytes
deriving Repr, DecidableEq

/-- `rpc.Contract`. -/
structure Contract where
  protocol : Bytes
  methods : List Method
deriving Repr, DecidableEq

def contractProtocol : Bytes := text "minigo.rpc.contract.v2"

/-- `wireCall`. -/
structure WireCall where
  method : Method
  receiver : Option ResourceRef
  arguments : Bytes
deriving Repr, DecidableEq

/-- `endpointFrame`. -/
structure EndpointFrame where
  kind : FrameKind
  protocol : Bytes := []
  limits : Option Limits := none
  leaseTTL : Int64 := 0
  admissionTimeout : Int64 := 0
  maxCallDuration : Int64 := 0
  origin : Bytes := []
  id : UInt64 := 0
  targetID : UInt64 := 0
  binding : UInt64 := 0
  reply : Bool := false
  epoch : UInt64 := 0
  contract : Option Contract := none
  affinityKey : Bytes := []
  labels : Labels := {}
  hops : Int64 := 0
  call : Option WireCall := none
  ref : Option ResourceRef := none
  values : Bytes := []
  accept : Bool := false
  code : Bytes := []
  message : Bytes := []
  timeout : Int64 := 0
deriving Repr, DecidableEq

section Validation

/-- `validWireMethodText`. -/
def validWireMethodText (method : Method) : Bool :=
  validUTF8 method.id && validUTF8 method.service && validUTF8 method.name &&
    validUTF8 method.contractHash && validUTF8 method.resourceTypeHash

/-- The texts of a frame, which must all be UTF-8. -/
def EndpointFrame.validTexts (frame : EndpointFrame) : Bool :=
  validUTF8 frame.protocol && validUTF8 frame.code && validUTF8 frame.message &&
    validUTF8 frame.affinityKey

def Labels.validTexts (labels : Labels) : Bool :=
  labels.entries.all fun entry => validUTF8 entry.1 && validUTF8 entry.2

def validRef (ref : Option ResourceRef) : Bool := ref.all fun ref => validUTF8 ref.typeHash

/-- `time.Millisecond`. -/
def millisecond : Int64 := 1000000

/-- `validateWireLimits`. -/
def validateWireLimits (limits : Limits) : Bool :=
  256 ≤ limits.maxFrameBytes && 0 < limits.maxMessageBytes &&
    limits.maxMessageBytes ≤ limits.maxInFlightBytes && 0 < limits.maxBindings &&
    0 < limits.maxPendingCalls && 0 < limits.maxPendingResults &&
    0 < limits.maxPendingControls && 0 < limits.maxResources && 0 < limits.maxMethods &&
    0 < limits.maxValueDepth && 0 < limits.maxValueElements

/-- The last part of `validateEndpointFrame`: a request that is not a handshake. -/
def validateRequest (frame : EndpointFrame) : Except String Unit :=
  if frame.timeout < 0 then .error "invalid rpc timeout budget"
  else if frame.kind = .cancel then
    if frame.id ≠ 0 ∨ frame.targetID = 0 then .error "invalid rpc cancel frame" else .ok ()
  else if frame.id = 0 ∨ frame.targetID ≠ 0 ∧ frame.kind ≠ .decision then
    .error "invalid rpc request frame"
  else match frame.kind with
    | .bind =>
      if frame.contract.all fun contract =>
          contract.protocol ≠ contractProtocol || contract.methods.isEmpty then
        .error "invalid rpc bind contract"
      else .ok ()
    | .call =>
      if frame.binding = 0 ∨ frame.call.isNone then .error "invalid rpc call frame" else .ok ()
    | .decision =>
      if frame.binding = 0 ∨ frame.targetID = 0 then .error "invalid rpc decision frame"
      else .ok ()
    | .drop =>
      if frame.binding = 0 ∨ frame.ref.isNone then .error "invalid rpc drop frame" else .ok ()
    | .close => if frame.binding = 0 then .error "invalid rpc close frame" else .ok ()
    | .renewAck | .accepted | .offer | .done => .error "invalid rpc terminal frame direction"
    | _ => .ok ()

def validateReply (frame : EndpointFrame) : Except String Unit :=
  if frame.targetID = 0 ∨ frame.id ≠ 0 ∨ frame.kind = .cancel then
    .error "invalid rpc response frame"
  else if frame.code = [] ∧ frame.kind = .bind ∧ (frame.binding = 0 ∨ frame.epoch = 0) then
    .error "invalid rpc bind response"
  else if frame.code = [] ∧ frame.kind = .call ∧ frame.targetID = 0 then
    .error "invalid rpc call response"
  else if frame.code = [] ∧ frame.kind = .offer ∧ frame.targetID = 0 then
    .error "invalid rpc offer response"
  else .ok ()

def validateHello (frame : EndpointFrame) : Except String Unit :=
  match frame.limits with
  | none => .error "invalid rpc hello frame"
  | some limits =>
    if frame.reply ∨ frame.protocol = [] ∨ frame.id ≠ 0 ∨ frame.targetID ≠ 0 then
      .error "invalid rpc hello frame"
    else if frame.leaseTTL < millisecond ∨ frame.admissionTimeout < millisecond then
      .error "invalid rpc lease policy"
    else if validateWireLimits limits then .ok ()
    else .error "invalid rpc endpoint limits"

/-- The part of `validateEndpointFrame` that depends on the kind. -/
def validateKind (frame : EndpointFrame) : Except String Unit :=
  match frame.kind with
  | .hello => validateHello frame
  | .ready =>
    if frame.reply ∨ frame.id ≠ 0 ∨ frame.targetID ≠ 0 then .error "invalid rpc ready frame"
    else .ok ()
  | _ => if frame.reply then validateReply frame else validateRequest frame

/-- `validateEndpointFrame`. -/
def validateEndpointFrame (frame : EndpointFrame) : Except String Unit :=
  if frame.origin = [] ∨ !validUTF8 frame.origin then .error "rpc frame has no origin"
  else if frame.leaseTTL < 0 ∨ frame.admissionTimeout < 0 ∨ frame.maxCallDuration < 0 then
    .error "rpc frame has invalid lease duration"
  else if !frame.validTexts then .error "rpc frame contains invalid UTF-8"
  else if !frame.labels.validTexts then .error "rpc frame label contains invalid UTF-8"
  else if !(frame.contract.all fun contract => validUTF8 contract.protocol) then
    .error "rpc contract protocol contains invalid UTF-8"
  else if !(frame.contract.all fun contract => contract.methods.all validWireMethodText) then
    .error "rpc contract method contains invalid UTF-8"
  else if !(frame.call.all fun call =>
      validWireMethodText call.method && validRef call.receiver) then
    .error "rpc call contains invalid UTF-8"
  else if !validRef frame.ref then .error "rpc resource contains invalid UTF-8"
  else validateKind frame

end Validation

section Encoding

def encodeOption {α : Type} (encode : α → Bytes) : Option α → Bytes
  | none => encodeBool false
  | some value => encodeBool true ++ encode value

def decodeOption {α : Type} (decode : Decoder α) : Decoder (Option α) := do
  let present ← decodeBool
  if present then some <$> decode else pure none

/-- The limits in the order in which they are sent. -/
def Limits.toList (limits : Limits) : List Int64 :=
  [limits.maxFrameBytes, limits.maxMessageBytes, limits.maxInFlightBytes, limits.maxBindings,
    limits.maxPendingCalls, limits.maxPendingResults, limits.maxPendingControls,
    limits.maxResources, limits.maxMethods, limits.maxValueDepth, limits.maxValueElements]

def Limits.ofList : List Int64 → Limits
  | [frameBytes, messageBytes, inFlightBytes, bindings, pendingCalls, pendingResults,
      pendingControls, resources, methods, valueDepth, valueElements] =>
    { maxFrameBytes := frameBytes, maxMessageBytes := messageBytes,
      maxInFlightBytes := inFlightBytes, maxBindings := bindings,
      maxPendingCalls := pendingCalls, maxPendingResults := pendingResults,
      maxPendingControls := pendingControls, maxResources := resources,
      maxMethods := methods, maxValueDepth := valueDepth, maxValueElements := valueElements }
  | _ => {}

/-- `encodeWireLimits`, after the flag. -/
def encodeWireLimits (limits : Limits) : Bytes :=
  limits.toList.flatMap fun value => encodeUint value.toUInt64

def decodeWireLimit : Decoder Int64 := do
  let value ← decodeUint
  if 9223372036854775807 < value then fail (.malformed "rpc endpoint limit overflows int")
  else pure value.toInt64

/-- `decodeWireLimits`, after the flag. -/
def decodeWireLimits : Decoder Limits := Limits.ofList <$> Codec.readMany decodeWireLimit 11

/-- `encodeWireMethod`. -/
def encodeWireMethod (method : Method) : Bytes :=
  encodeString method.id ++ (encodeString method.service ++ (encodeString method.name ++
    (encodeString method.contractHash ++ encodeString method.resourceTypeHash)))

/-- `decodeWireMethod`. -/
def decodeWireMethod (limit : Int64) : Decoder Method := do
  let id ← decodeString limit
  let service ← decodeString limit
  let name ← decodeString limit
  let contractHash ← decodeString limit
  let resourceTypeHash ← decodeString limit
  pure ⟨id, service, name, contractHash, resourceTypeHash⟩

/-- `encodeWireContract`, after the flag. -/
def encodeWireContract (contract : Contract) : Bytes :=
  encodeString contract.protocol ++ (encodeUint (.ofNat contract.methods.length) ++
    contract.methods.flatMap encodeWireMethod)

/-- `decodeWireContract`, after the flag. -/
def decodeWireContract (limits : Limits) : Decoder Contract := do
  let protocol ← decodeString limits.maxMessageBytes
  let count ← decodeUint
  if limits.maxMethods.toUInt64 < count then
    fail (.malformed "rpc contract method limit exceeded")
  else
    let methods ← Codec.readMany (decodeWireMethod limits.maxMessageBytes) count.toNat
    pure ⟨protocol, methods⟩

def encodeLabel (entry : Bytes × Bytes) : Bytes := encodeString entry.1 ++ encodeString entry.2

/-- `encodeWireLabels`. -/
def encodeWireLabels (labels : Labels) : Bytes :=
  encodeUint (.ofNat labels.entries.length) ++ labels.entries.flatMap encodeLabel

/-- The entries of a map after an assignment to a new key. -/
def insertLabel (entry : Bytes × Bytes) : List (Bytes × Bytes) → List (Bytes × Bytes)
  | [] => [entry]
  | head :: rest =>
    if bytesLess entry.1 head.1 then entry :: head :: rest
    else if bytesLess head.1 entry.1 then head :: insertLabel entry rest
    else head :: rest

variable {entries : List (Bytes × Bytes)}

theorem mem_insertLabel {entry other : Bytes × Bytes}
    (ho : other ∈ insertLabel entry entries) : other = entry ∨ other ∈ entries := by
  induction entries with
  | nil =>
    rw [insertLabel, mem_singleton] at ho
    exact .inl ho
  | cons head rest ih =>
    rw [insertLabel] at ho
    split_ifs at ho
    · exact mem_cons.mp ho
    · rcases mem_cons.mp ho with rfl | ho
      · exact .inr mem_cons_self
      · exact (ih ho).imp_right (mem_cons_of_mem head)
    · exact .inr ho

theorem insertLabel_ordered (entry : Bytes × Bytes)
    (hor : entries.Pairwise fun first second => bytesLess first.1 second.1 = true) :
    (insertLabel entry entries).Pairwise fun first second =>
      bytesLess first.1 second.1 = true := by
  induction entries with
  | nil => exact pairwise_singleton _ _
  | cons head rest ih =>
    have hr := pairwise_cons.mp hor
    rw [insertLabel]
    split_ifs with hl hm
    · refine pairwise_cons.mpr ⟨?_, hor⟩
      intro other ho
      rcases mem_cons.mp ho with rfl | ho
      · exact hl
      · exact bytesLess_trans hl (hr.1 other ho)
    · refine pairwise_cons.mpr ⟨?_, ih hr.2⟩
      intro other ho
      rcases mem_insertLabel ho with rfl | ho
      · exact hm
      · exact hr.1 other ho
    · exact hor

def Labels.insert (labels : Labels) (entry : Bytes × Bytes) : Labels :=
  ⟨insertLabel entry labels.entries, insertLabel_ordered entry labels.ordered⟩

theorem Labels.insert_entries (labels : Labels) (entry : Bytes × Bytes) :
    (labels.insert entry).entries = insertLabel entry labels.entries := rfl

def decodeLabels (limit : Int64) : Nat → Labels → Decoder Labels
  | 0, labels => pure labels
  | count + 1, labels => do
      let key ← decodeString limit
      let value ← decodeString limit
      if key = [] then fail (.malformed "rpc label has empty key")
      else if key ∈ labels.entries.map Prod.fst then fail (.malformed "rpc label is duplicated")
      else decodeLabels limit count (labels.insert (key, value))

/-- `decodeWireLabels`. -/
def decodeWireLabels (limits : Limits) : Decoder Labels := do
  let count ← decodeUint
  if limits.maxMethods.toUInt64 < count then fail (.malformed "rpc label limit exceeded")
  else decodeLabels limits.maxMessageBytes count.toNat {}

/-- `encodeWireCall`, after the flag. -/
def encodeWireCall (call : WireCall) : Bytes :=
  encodeWireMethod call.method ++
    (encodeOption encodeResource call.receiver ++ encodeRaw call.arguments)

/-- `decodeWireCall`, after the flag. -/
def decodeWireCall (limits : Limits) : Decoder WireCall := do
  let method ← decodeWireMethod limits.maxMessageBytes
  let receiver ← decodeOption (decodeResource limits)
  let arguments ← decodeRaw limits.maxMessageBytes
  pure ⟨method, receiver, arguments⟩

def endpointFrameMagic : Bytes := text "MGRP"

def endpointFrameVersion : UInt8 := 1

/-- The fields of a frame up to the affinity key, in the order of the wire. -/
def encodeOpening (frame : EndpointFrame) : Bytes :=
  encodeString frame.protocol ++ (encodeOption encodeWireLimits frame.limits ++
  (encodeInt frame.leaseTTL ++ (encodeInt frame.admissionTimeout ++
  (encodeInt frame.maxCallDuration ++ (encodeString frame.origin ++ (encodeUint frame.id ++
  (encodeUint frame.targetID ++ (encodeUint frame.binding ++ (encodeBool frame.reply ++
  (encodeUint frame.epoch ++ (encodeOption encodeWireContract frame.contract ++
  encodeString frame.affinityKey)))))))))))

/-- The fields of a frame from the labels on. -/
def encodeClosing (frame : EndpointFrame) : Bytes :=
  encodeWireLabels frame.labels ++ (encodeInt frame.hops ++
  (encodeOption encodeWireCall frame.call ++ (encodeOption encodeResource frame.ref ++
  (encodeRaw frame.values ++ (encodeBool frame.accept ++ (encodeString frame.code ++
  (encodeString frame.message ++ encodeInt frame.timeout)))))))

def encodeFrame (frame : EndpointFrame) : Bytes :=
  endpointFrameMagic ++ (encodeByte endpointFrameVersion ++ (encodeUint frame.kind.code ++
    (encodeOpening frame ++ encodeClosing frame)))

/-- The `StatusError`s of the frame codec. -/
inductive FrameError where
  /-- `CodeProtocol` with a message. -/
  | protocol (message : String)
  /-- `CodeResourceExhausted`: `rpc message size limit exceeded`. -/
  | exhausted
  /-- `protocolDecodeError`. -/
  | decode (fault : WireError)
deriving Repr, DecidableEq

/-- `encodeEndpointFrame`. -/
def encodeEndpointFrame (frame : EndpointFrame) (maxBytes : Int64) : Except FrameError Bytes :=
  match validateEndpointFrame frame with
  | .error message => .error (.protocol message)
  | .ok _ =>
    if encodeFrame frame = [] ∨ maxBytes.toInt < (encodeFrame frame).length then
      .error .exhausted
    else .ok (encodeFrame frame)

/-- The frame as far as the affinity key. -/
def decodeOpening (limits : Limits) (kind : FrameKind) : Decoder EndpointFrame := do
  let protocol ← decodeString limits.maxMessageBytes
  let wireLimits ← decodeOption decodeWireLimits
  let leaseTTL ← decodeInt
  let admissionTimeout ← decodeInt
  let maxCallDuration ← decodeInt
  let origin ← decodeString limits.maxMessageBytes
  let id ← decodeUint
  let targetID ← decodeUint
  let binding ← decodeUint
  let reply ← decodeBool
  let epoch ← decodeUint
  let contract ← decodeOption (decodeWireContract limits)
  let affinityKey ← decodeString limits.maxMessageBytes
  pure
    { kind, protocol, limits := wireLimits, leaseTTL, admissionTimeout, maxCallDuration,
      origin, id, targetID, binding, reply, epoch, contract, affinityKey }

/-- The rest of a frame. -/
def decodeClosing (limits : Limits) (frame : EndpointFrame) : Decoder EndpointFrame := do
  let labels ← decodeWireLabels limits
  let hops ← decodeInt
  let call ← decodeOption (decodeWireCall limits)
  let ref ← decodeOption (decodeResource limits)
  let values ← decodeRaw limits.maxMessageBytes
  let accept ← decodeBool
  let code ← decodeString limits.maxMessageBytes
  let message ← decodeString limits.maxMessageBytes
  let timeout ← decodeInt
  pure { frame with labels, hops, call, ref, values, accept, code, message, timeout }

def decodeFields (limits : Limits) (kind : FrameKind) : Decoder EndpointFrame := do
  let frame ← decodeOpening limits kind
  decodeClosing limits frame

/-- The magic, version and kind of a frame, each with an error of its own. -/
def decodeHead (payload : Bytes) : Except FrameError (FrameKind × Bytes) :=
  match decodeFixed 4 payload with
  | .error _ => .error (.protocol "invalid rpc frame magic")
  | .ok (magic, rest) =>
    if magic ≠ endpointFrameMagic then .error (.protocol "invalid rpc frame magic")
    else match decodeByte rest with
      | .error _ => .error (.protocol "invalid rpc frame version")
      | .ok (version, rest) =>
        if version ≠ endpointFrameVersion then
          .error (.protocol "invalid rpc frame version")
        else match decodeUint rest with
          | .error fault => .error (.decode fault)
          | .ok (code, rest) =>
            match FrameKind.ofCode code with
            | none => .error (.protocol "unknown rpc frame kind")
            | some kind => .ok (kind, rest)

/-- `decodeEndpointFrame`. -/
def decodeEndpointFrame (payload : Bytes) (limits : Limits) : Except FrameError EndpointFrame :=
  let limits := normalizeLimits limits
  if payload = [] ∨ limits.maxMessageBytes.toInt < payload.length then
    .error (.protocol "invalid rpc message size")
  else match decodeHead payload with
    | .error fault => .error fault
    | .ok (kind, rest) =>
      match decodeFields limits kind rest with
      | .error fault => .error (.decode fault)
      | .ok (frame, rest) =>
        if rest ≠ [] then .error (.decode (.trailing rest.length))
        else match validateEndpointFrame frame with
          | .error message => .error (.protocol message)
          | .ok _ => .ok frame

/-- The limits of an endpoint that `OpenEndpoint` opens. -/
def openLimits (limits : Limits) : Option Limits :=
  if validateWireLimits (normalizeLimits limits) then some (normalizeLimits limits) else none

/-- `minLimits`. -/
def minLimits (localLimits peer : Limits) : Limits where
  maxFrameBytes := min localLimits.maxFrameBytes peer.maxFrameBytes
  maxMessageBytes := min localLimits.maxMessageBytes peer.maxMessageBytes
  maxInFlightBytes := min localLimits.maxInFlightBytes peer.maxInFlightBytes
  maxBindings := min localLimits.maxBindings peer.maxBindings
  maxPendingCalls := min localLimits.maxPendingCalls peer.maxPendingCalls
  maxPendingResults := min localLimits.maxPendingResults peer.maxPendingResults
  maxPendingControls := min localLimits.maxPendingControls peer.maxPendingControls
  maxResources := min localLimits.maxResources peer.maxResources
  maxMethods := min localLimits.maxMethods peer.maxMethods
  maxValueDepth := min localLimits.maxValueDepth peer.maxValueDepth
  maxValueElements := min localLimits.maxValueElements peer.maxValueElements

end Encoding

section Requests

/-- The errors of `normalizeContract` and `validateMethod`. -/
inductive ContractError where
  /-- `unsupported RPC contract protocol`. -/
  | unsupported
  /-- `RPC contract is empty`. -/
  | empty
  /-- `RPC contract limit exceeded`. -/
  | limit
  /-- `invalid rpc method`. -/
  | invalidMethod (id : Bytes)
  /-- `invalid rpc resource method`. -/
  | invalidResource (id : Bytes)
  /-- `duplicate RPC method`. -/
  | duplicate (id : Bytes)
deriving Repr, DecidableEq

/-- `validateMethod`. -/
def validateMethod (method : Method) : Except ContractError Unit :=
  if method.id = [] ∨ method.service = [] ∨ method.name = [] ∨ method.contractHash.length ≠ 64 ∨
      method.id ≠ method.service ++ text "." ++ method.name then
    .error (.invalidMethod method.id)
  else if method.resourceTypeHash ≠ [] ∧ method.resourceTypeHash.length ≠ 64 then
    .error (.invalidResource method.id)
  else .ok ()

/-- The loop of `normalizeContract`, with the methods that it has seen. -/
def checkMethods (seen : List Method) : List Method → Except ContractError Unit
  | [] => .ok ()
  | method :: rest =>
    match validateMethod method with
    | .error fault => .error fault
    | .ok _ =>
      if method ∈ seen then .error (.duplicate method.id)
      else checkMethods (method :: seen) rest

def methodLess (first second : Method) : Bool :=
  if first.id ≠ second.id then bytesLess first.id second.id
  else bytesLess first.contractHash second.contractHash

/-- `normalizeContract`. -/
def normalizeContract (sorter : SliceSort) (contract : Contract) (limit : Int64) :
    Except ContractError Contract :=
  if contract.protocol ≠ contractProtocol then .error .unsupported
  else if contract.methods = [] then .error .empty
  else if limit.toInt < contract.methods.length then .error .limit
  else match checkMethods [] contract.methods with
    | .error fault => .error fault
    | .ok _ => .ok ⟨contractProtocol, sorter.sort methodLess contract.methods⟩

/-- The frames that an endpoint with the given negotiated limits builds: the hello of
`OpenEndpoint`, the request of `Bind` with whatever options its caller chose, and all
others, which hold neither limits nor a contract nor labels. -/
inductive PublicFrame (sorter : SliceSort) (negotiated : Limits) : EndpointFrame → Prop
  | hello (protocol origin : Bytes) (limits : Limits)
      (leaseTTL admissionTimeout maxCallDuration : Int64) :
      PublicFrame sorter negotiated
        { kind := .hello, protocol, limits := some limits, origin, leaseTTL, admissionTimeout,
          maxCallDuration }
  | bind {requested contract : Contract} (affinityKey origin : Bytes) (labels : Labels)
      (hops timeout : Int64) (id : UInt64)
      (hcontract : normalizeContract sorter requested negotiated.maxMethods = .ok contract) :
      PublicFrame sorter negotiated
        { kind := .bind, contract := some contract, affinityKey, origin, labels, hops, timeout,
          id }
  | other {frame : EndpointFrame} (hlimits : frame.limits = none)
      (hcontract : frame.contract = none) (hlabels : frame.labels = {}) :
      PublicFrame sorter negotiated frame

end Requests

end MiniGo.Rpc
