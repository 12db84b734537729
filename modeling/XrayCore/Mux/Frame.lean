import XrayCore.Xudp.Packet

/-!
# Mux frame metadata

`xray-mux`'s frame header: a length, the session's id, its status, option bits and, depending on the
status, the target, the source and local address of a reverse session, or a GlobalID. A reader tells
these apart by the mode it is called in, by option bits and by how many bytes are left.
-/

namespace XrayCore.Mux

open Lib Net Buf
open XrayCore.Xudp (GlobalId)

def MAX_METADATA_LEN : Nat := 512

def OPTION_DATA : UInt8 := 1

def OPTION_ERROR : UInt8 := 2

/-- `ended` is the source's `End`. -/
inductive SessionStatus
  | new
  | keep
  | ended
  | keepAlive
  deriving DecidableEq, Repr

namespace SessionStatus

def fromByte (byte : UInt8) : Option SessionStatus :=
  if byte = 1 then some .new
  else if byte = 2 then some .keep
  else if byte = 3 then some .ended
  else if byte = 4 then some .keepAlive
  else none

def toByte : SessionStatus → UInt8
  | .new => 1
  | .keep => 2
  | .ended => 3
  | .keepAlive => 4

@[simp] theorem fromByte_toByte (status : SessionStatus) :
    fromByte status.toByte = some status := by
  cases status <;> rfl

end SessionStatus

inductive TargetNetwork
  | tcp
  | udp
  deriving DecidableEq, Repr

namespace TargetNetwork

def fromByte (byte : UInt8) : Option TargetNetwork :=
  if byte = 1 then some .tcp
  else if byte = 2 then some .udp
  else none

def toByte : TargetNetwork → UInt8
  | .tcp => 1
  | .udp => 2

def fromNetwork : Network → Option TargetNetwork
  | .tcp => some .tcp
  | .udp => some .udp
  | .unix => none

def toNetwork : TargetNetwork → Network
  | .tcp => .tcp
  | .udp => .udp

@[simp] theorem fromByte_toByte (net : TargetNetwork) : fromByte net.toByte = some net := by
  cases net <;> rfl

theorem toNetwork_of_fromNetwork
    (h : fromNetwork network = some net) : net.toNetwork = network := by
  cases network <;> cases h <;> rfl

end TargetNetwork

inductive MuxError
  | metadataTooLong (len : Nat)
  | invalidSessionStatus (byte : UInt8)
  | invalidTargetNetwork (byte : UInt8)
  | addressParseFailed
  | io (reason : String)
  | insufficientData (expected actual : Nat)
  deriving DecidableEq, Repr

def hexByte (byte : UInt8) : String :=
  let digit (n : Nat) : Char := (['0', '1', '2', '3', '4', '5', '6', '7', '8', '9', 'A', 'B', 'C',
    'D', 'E', 'F'] : List Char).getD n '0'
  String.ofList [digit (byte.toNat / 16), digit (byte.toNat % 16)]

def MuxError.toString : MuxError → String
  | .metadataTooLong len => s!"metadata length {len} exceeds maximum {MAX_METADATA_LEN}"
  | .invalidSessionStatus byte => "invalid session status byte: 0x" ++ hexByte byte
  | .invalidTargetNetwork byte => "invalid target network byte: 0x" ++ hexByte byte
  | .addressParseFailed => "failed to parse address from frame data"
  | .io reason => s!"I/O error: {reason}"
  | .insufficientData expected actual =>
    s!"insufficient data: expected {expected} bytes, got {actual}"

def networkName : Network → String
  | .tcp => "TCP"
  | .udp => "UDP"
  | .unix => "Unix"

def addrWireLen : Address → Except MuxError Nat
  | .ipv4 _ => .ok 4
  | .ipv6 _ => .ok 16
  | .domain d =>
    let len := (asBytes d).length
    if len > 255 then .error (.metadataTooLong (4 + 3 + len)) else .ok (1 + len)

def writeTargetToVec (target : Destination) : Except MuxError Bytes :=
  match TargetNetwork.fromNetwork target.network with
  | none =>
    let network := networkName target.network
    .error (.io s!"unsupported mux target network: {network}")
  | some net => do
    let addrLen ← addrWireLen target.address
    let addrBuf := AddressSerializer.writePortAddress (Buffer.withCapacity (2 + 1 + addrLen))
      target.port target.address
    return net.toByte :: addrBuf.bytes

def readTarget (data : Bytes) : Except MuxError (Destination × Nat) :=
  match data with
  | [] => .error (.insufficientData 1 0)
  | byte :: rest =>
    match TargetNetwork.fromByte byte with
    | none => .error (.invalidTargetNetwork byte)
    | some net =>
      match AddressParser.parsePortAddress rest with
      | none => .error .addressParseFailed
      | some (port, addr, consumed) => .ok (⟨addr, port, net.toNetwork⟩, 1 + consumed)

/-- The bytes `write_inbound_to_vec` appends: nothing for a source without a byte for
its network, and no local address without a source. -/
def writeInboundToVec (source : Destination) (localDest : Option Destination) :
    Except MuxError Bytes :=
  match TargetNetwork.fromNetwork source.network with
  | none => .ok []
  | some _ => do
    let sourceBytes ← writeTargetToVec source
    match localDest with
    | none => return sourceBytes
    | some localDest =>
      match TargetNetwork.fromNetwork localDest.network with
      | none => return sourceBytes
      | some _ =>
        let localBytes ← writeTargetToVec localDest
        return sourceBytes ++ localBytes

/-- `localDest` is the source's `local`. -/
@[ext] structure FrameMetadata where
  sessionId : UInt16
  sessionStatus : SessionStatus
  option : UInt8
  target : Option Destination
  source : Option Destination
  localDest : Option Destination
  globalId : Option GlobalId
  deriving DecidableEq

namespace FrameMetadata

def new (sessionId : UInt16) (sessionStatus : SessionStatus) (option : UInt8) : FrameMetadata :=
  ⟨sessionId, sessionStatus, option, none, none, none, none⟩

def has (option bit : UInt8) : Bool := option &&& bit ≠ 0

def hasData (m : FrameMetadata) : Bool := has m.option OPTION_DATA

def hasError (m : FrameMetadata) : Bool := has m.option OPTION_ERROR

def isUdpTarget (m : FrameMetadata) : Bool :=
  match m.target with
  | none => false
  | some target => target.network = .udp

def setOption (m : FrameMetadata) (bit : UInt8) : FrameMetadata :=
  { m with option := m.option ||| bit }

def targetBytes (m : FrameMetadata) : Except MuxError Bytes :=
  match m.target with
  | some target => writeTargetToVec target
  | none => .ok []

def newExtras (m : FrameMetadata) : Except MuxError Bytes :=
  match m.source with
  | some source => writeInboundToVec source m.localDest
  | none =>
    if m.isUdpTarget then
      match m.globalId with
      | some gid => .ok gid.bytes
      | none => .ok []
    else .ok []

def fieldBytes (m : FrameMetadata) : Except MuxError Bytes :=
  match m.sessionStatus with
  | .new => do
    let targetBytes ← m.targetBytes
    let extras ← m.newExtras
    return targetBytes ++ extras
  | .keep =>
    match m.target with
    | some target => if target.network = .udp then writeTargetToVec target else .ok []
    | none => .ok []
  | .ended | .keepAlive => .ok []

def toBytes (m : FrameMetadata) : Except MuxError Bytes := do
  let fields ← m.fieldBytes
  let content := be16 m.sessionId ++ m.sessionStatus.toByte :: m.option :: fields
  if content.length > MAX_METADATA_LEN then .error (.metadataTooLong content.length)
  else .ok (be16 (UInt16.ofNat content.length) ++ content)

def parseSourceAndLocal (m : FrameMetadata) (data : Bytes) : Except MuxError FrameMetadata :=
  if data.length = 0 ∨ byteAt data 0 = 0 then .ok m
  else do
    let (source, consumed) ← readTarget data
    let m := { m with source := some source }
    let data := data.drop consumed
    if data.length = 0 ∨ byteAt data 0 = 0 then .ok m
    else
      let (localDest, _) ← readTarget data
      .ok { m with localDest := some localDest }

def globalIdFront (data : Bytes) : Option GlobalId :=
  if h : 8 ≤ data.length then
    some ⟨data.take 8, by rw [List.length_take, Nat.min_eq_left h, Xudp.GLOBAL_ID_LEN]⟩
  else none

def parseTarget (m : FrameMetadata) (data : Bytes) : Except MuxError (FrameMetadata × Bytes) :=
  if data = [] then .ok (m, data)
  else do
    let (target, consumed) ← readTarget data
    return ({ m with target := some target }, data.drop consumed)

def parseFields (m : FrameMetadata) (data : Bytes) (readSourceAndLocal : Bool) :
    Except MuxError FrameMetadata :=
  match m.sessionStatus with
  | .new => do
    let (m, data) ← m.parseTarget data
    if readSourceAndLocal then m.parseSourceAndLocal data
    else if m.hasData ∧ m.isUdpTarget then .ok { m with globalId := globalIdFront data }
    else .ok m
  | .keep =>
    if data ≠ [] ∧ TargetNetwork.fromByte (byteAt data 0) = some .udp then do
      let (target, _) ← readTarget data
      return { m with target := some target }
    else .ok m
  | .ended | .keepAlive => .ok m

def parseBody (body : Bytes) (readSourceAndLocal : Bool) : Except MuxError FrameMetadata :=
  if body.length < 4 then .error (.insufficientData 4 body.length)
  else
    match SessionStatus.fromByte (byteAt body 2) with
    | none => .error (.invalidSessionStatus (byteAt body 2))
    | some status =>
      (new (u16At body 0) status (byteAt body 3)).parseFields (body.drop 4) readSourceAndLocal

def readFromBytesImpl (data : Bytes) (readSourceAndLocal : Bool) :
    Except MuxError (FrameMetadata × Nat) :=
  if data.length < 2 then .error (.insufficientData 2 data.length)
  else
    let metaLen := (u16At data 0).toNat
    if metaLen > MAX_METADATA_LEN then .error (.metadataTooLong metaLen)
    else if data.length < 2 + metaLen then .error (.insufficientData (2 + metaLen) data.length)
    else do
      let m ← parseBody ((data.drop 2).take metaLen) readSourceAndLocal
      return (m, 2 + metaLen)

def readFromBytes (data : Bytes) : Except MuxError (FrameMetadata × Nat) :=
  readFromBytesImpl data false

def readFromBytesWithSource (data : Bytes) : Except MuxError (FrameMetadata × Nat) :=
  readFromBytesImpl data true

end FrameMetadata

end XrayCore.Mux
