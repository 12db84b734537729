import XrayCore.Lib.Runs
import XrayCore.Net.AddressParser

/-!
# XUDP frames

A frame is a length, a session id (always 0), a status, an option byte, the target of the packet
and, on the first frame, the GlobalID; data follows with a length of its own. `PacketWriter` has a
writer that takes every byte (a `Vec<u8>`), `PacketReader` a reader that ends after the bytes given
(a `&[u8]`).
-/

namespace XrayCore.Xudp

open Lib Net
open Buf (Buffer)

def STATUS_NEW : UInt8 := 1

def STATUS_KEEP : UInt8 := 2

def STATUS_KEEP_ALIVE : UInt8 := 4

def OPT_DATA : UInt8 := 1

def NETWORK_UDP : UInt8 := 2

def MIN_META_LEN : Nat := 4

def GLOBAL_ID_LEN : Nat := 8

def MAX_DATA_LEN : Nat := 8192 - 666

inductive PacketError
  | metadataTooShort (len : Nat)
  | invalidStatus (status : UInt8)
  | addressParseFailed (frame : String)
  | io
  deriving DecidableEq, Repr

inductive FrameStatus
  | new
  | keep
  | keepAlive
  deriving DecidableEq, Repr

def FrameStatus.toByte : FrameStatus → UInt8
  | .new => STATUS_NEW
  | .keep => STATUS_KEEP
  | .keepAlive => STATUS_KEEP_ALIVE

def FrameStatus.fromByte (b : UInt8) : Option FrameStatus :=
  if b = STATUS_NEW then some .new
  else if b = STATUS_KEEP then some .keep
  else if b = STATUS_KEEP_ALIVE then some .keepAlive
  else none

structure GlobalId where
  bytes : Bytes
  length_bytes : bytes.length = GLOBAL_ID_LEN
  deriving DecidableEq

structure FrameMetadata where
  status : FrameStatus
  hasData : Bool
  target : Option Destination
  globalId : Option GlobalId
  deriving DecidableEq

namespace FrameMetadata

def newUdp (address : Address) (port : Port) (globalId : GlobalId) : FrameMetadata :=
  ⟨.new, true, some (.udp address port), some globalId⟩

def keepUdp (address : Address) (port : Port) : FrameMetadata :=
  ⟨.keep, true, some (.udp address port), none⟩

def keepAlive : FrameMetadata := ⟨.keepAlive, false, none, none⟩

def targetBytes (m : FrameMetadata) : Bytes :=
  match m.target with
  | some t =>
    if t.network = .udp then
      NETWORK_UDP ::
        (AddressSerializer.writePortAddress (Buffer.withCapacity 32) t.port t.address).bytes
    else []
  | none => []

def globalIdBytes (m : FrameMetadata) : Bytes :=
  if m.status = .new then
    match m.globalId with
    | some gid => gid.bytes
    | none => []
  else []

def bodyBytes (m : FrameMetadata) : Bytes :=
  [0, 0, m.status.toByte, if m.hasData then OPT_DATA else 0] ++ m.targetBytes ++ m.globalIdBytes

def toBytes (m : FrameMetadata) : Bytes :=
  be16 (UInt16.ofNat m.bodyBytes.length) ++ m.bodyBytes

end FrameMetadata

def globalIdAt (body : Bytes) (off : Nat) : Option GlobalId :=
  if h : off + GLOBAL_ID_LEN ≤ body.length then
    some ⟨(body.drop off).take GLOBAL_ID_LEN, by
      simp only [List.length_take, List.length_drop]; omega⟩
  else none

def parseBodyTarget (body : Bytes) (status : FrameStatus) :
    Except PacketError (Option Destination × Option GlobalId) :=
  match status with
  | .new =>
    if 4 < body.length ∧ byteAt body 4 = NETWORK_UDP then
      match AddressParser.parsePortAddress (body.drop 5) with
      | none => .error (.addressParseFailed "New frame")
      | some (port, addr, consumed) =>
        .ok (some (.udp addr port), globalIdAt body (5 + consumed))
    else .ok (none, none)
  | .keep =>
    if 4 < body.length ∧ byteAt body 4 = NETWORK_UDP then
      match AddressParser.parsePortAddress (body.drop 5) with
      | none => .error (.addressParseFailed "Keep frame")
      | some (port, addr, _) => .ok (some (.udp addr port), none)
    else .ok (none, none)
  | .keepAlive => .ok (none, none)

def FrameMetadata.fromBytes (data : Bytes) : Except PacketError (FrameMetadata × Nat) :=
  if data.length < 2 then .error (.metadataTooShort data.length)
  else
    let bodyLen := (u16At data 0).toNat
    if bodyLen < MIN_META_LEN then .error (.metadataTooShort bodyLen)
    else if data.length < 2 + bodyLen then .error (.metadataTooShort data.length)
    else
      let body := (data.drop 2).take bodyLen
      match FrameStatus.fromByte (byteAt body 2) with
      | none => .error (.invalidStatus (byteAt body 2))
      | some status =>
        match parseBodyTarget body status with
        | .error e => .error e
        | .ok (target, globalId) =>
          .ok (⟨status, byteAt body 3 &&& OPT_DATA ≠ 0, target, globalId⟩, 2 + bodyLen)

structure PacketWriter where
  out : Bytes
  dest : Destination
  globalId : GlobalId
  newSent : Bool
  deriving DecidableEq

namespace PacketWriter

def new (dest : Destination) (globalId : GlobalId) : PacketWriter := ⟨[], dest, globalId, false⟩

def emit (w : PacketWriter) (m : FrameMetadata) (data : Bytes) : PacketWriter :=
  { w with out := w.out ++ (m.toBytes ++ (be16 (UInt16.ofNat data.length) ++ data)) }

/-- What both write functions do: the first frame goes to `dest`, all others to
`udp`. Data that is empty or too long is skipped. -/
def write (w : PacketWriter) (data : Bytes) (udp : Destination) : PacketWriter :=
  if data = [] ∨ MAX_DATA_LEN < data.length then w
  else if w.newSent = false ∧ w.dest.network = .udp then
    { w with newSent := true }.emit (.newUdp w.dest.address w.dest.port w.globalId) data
  else w.emit (.keepUdp udp.address udp.port) data

def writePacket (w : PacketWriter) (data : Bytes) : PacketWriter := w.write data w.dest

def writePacketWithUdpTarget (w : PacketWriter) (data : Bytes) (udp : Destination) :
    PacketWriter := w.write data udp

end PacketWriter

structure PacketData where
  data : Bytes
  udpTarget : Option Destination
  deriving DecidableEq

def readExact (n : Nat) (b : Bytes) : Option (Bytes × Bytes) :=
  if b.length < n then none else some (b.take n, b.drop n)

/-- How one pass of `read_packet`'s loop ends: with a result, or with another
pass; and the input left. -/
inductive Pass
  | done (result : Except PacketError (Option PacketData)) (rest : Bytes)
  | again (rest : Bytes)

namespace PacketReader

def withoutData (m : FrameMetadata) (b : Bytes) : Pass :=
  if m.status = .keepAlive then .again b else .done (.ok none) b

def readData (m : FrameMetadata) (b : Bytes) : Pass :=
  if m.hasData then
    match readExact 2 b with
    | none => .done (.error .io) []
    | some (dl, b) =>
      let len := (u16At dl 0).toNat
      if 0 < len then
        match readExact len b with
        | none => .done (.error .io) []
        | some (data, b) => .done (.ok (some ⟨data, m.target⟩)) b
      else withoutData m b
  else withoutData m b

def readFrame (b : Bytes) : Pass :=
  match readExact 2 b with
  -- the end of the input before a whole length field is the end of the stream
  | none => .done (.ok none) []
  | some (lenBuf, b) =>
    let bodyLen := (u16At lenBuf 0).toNat
    if bodyLen < MIN_META_LEN then .done (.error (.metadataTooShort bodyLen)) b
    else
      match readExact bodyLen b with
      | none => .done (.error .io) []
      | some (body, b) =>
        match FrameMetadata.fromBytes (lenBuf ++ body) with
        | .error e => .done (.error e) b
        | .ok (m, _) => readData m b

def readPacketLoop : Nat → Bytes → Except PacketError (Option PacketData) × Bytes
  | 0, b => (.ok none, b)
  | fuel + 1, b =>
    match readFrame b with
    | .done result rest => (result, rest)
    | .again rest => readPacketLoop fuel rest

/-- Every pass takes bytes off the input, so its length bounds them. -/
def readPacket (b : Bytes) : Except PacketError (Option PacketData) × Bytes :=
  readPacketLoop (b.length + 1) b

theorem length_of_readExact (h : readExact n b = some (front, rest)) :
    rest.length + n = b.length := by
  unfold readExact at h
  split at h
  · cases h
  · next hl =>
    cases h
    rw [List.length_drop, Nat.sub_add_cancel (not_lt.mp hl)]

theorem eq_of_withoutData (h : withoutData m b = .again rest) : rest = b := by
  unfold withoutData at h
  split at h
  · cases h
    rfl
  · cases h

theorem length_of_readData (h : readData m b = .again rest) : rest.length ≤ b.length := by
  unfold readData at h
  split at h
  · split at h
    · cases h
    · next dl b' hdl =>
      have hl := length_of_readExact hdl
      dsimp only at h
      split at h
      · split at h <;> cases h
      · cases eq_of_withoutData h
        omega
  · cases eq_of_withoutData h
    exact le_refl _

theorem length_of_readFrame (h : readFrame b = .again rest) : rest.length < b.length := by
  unfold readFrame at h
  split at h
  · cases h
  · next lb b1 hl =>
    have h1 := length_of_readExact hl
    dsimp only at h
    split at h
    · cases h
    split at h
    · cases h
    · next body b2 hb =>
      have h2 := length_of_readExact hb
      split at h
      · cases h
      · have h3 := length_of_readData h
        omega

theorem readPacketLoop_eq_readPacket (h : b.length < fuel) :
    readPacketLoop fuel b = readPacket b := by
  -- both bounds are induced on together: a pass that goes again takes one off each
  have hmore (m n : Nat) (b : Bytes) (hm : b.length < m) (hn : b.length < n) :
      readPacketLoop m b = readPacketLoop n b := by
    induction m generalizing n b with
    | zero => cases hm
    | succ m ih =>
      obtain _ | n := n
      · cases hn
      unfold readPacketLoop
      cases hp : readFrame b with
      | done r rest => rfl
      | again rest =>
        have hlt := length_of_readFrame hp
        exact ih n rest (by omega) (by omega)
  exact hmore fuel (b.length + 1) b h (Nat.lt_succ_self _)

theorem readPacket_eq (b : Bytes) : readPacket b = match readFrame b with
      | .done res rest => (res, rest)
      | .again rest => readPacket rest := by
  rw [readPacket, readPacketLoop]
  cases hp : readFrame b with
  | done res rest => rfl
  | again rest => exact readPacketLoop_eq_readPacket (length_of_readFrame hp)

end PacketReader

end XrayCore.Xudp
