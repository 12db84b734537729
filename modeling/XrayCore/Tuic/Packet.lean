import XrayCore.Lib.Fallible
import XrayCore.Net.Address

/-!
# TUIC packets on the wire

A `Packet` frame carries a UDP payload or one fragment of it, with the address in front of the
data. The writer announces at most `u16::MAX` bytes of data and cuts off the rest; the reader
refuses a frame that announces more than `MAX_PACKET_PAYLOAD`.
-/

namespace XrayCore.Tuic

open Lib List
open Net (Ipv4Addr Ipv6Addr asBytes fromUtf8 fromUtf8_asBytes)

inductive TuicError
  | invalidVersion (version : UInt8)
  | unknownCommandType (typeByte : UInt8)
  | invalidAddress (what : String)
  | unexpectedEof (what : String)
  | unsupportedFragment (fragTotal fragId : UInt8)
  | packetTooLarge (size : Nat)
  deriving DecidableEq

def hexByte (b : UInt8) : String :=
  String.ofList ['0', 'x', Nat.digitChar (b.toNat / 16), Nat.digitChar (b.toNat % 16)]

def TuicError.message : TuicError → String
  | .invalidVersion version => "invalid protocol version: expected 0x05, got " ++ hexByte version
  | .unknownCommandType typeByte => "unknown command type: " ++ hexByte typeByte
  | .invalidAddress what => "invalid address: " ++ what
  | .unexpectedEof what => "unexpected end of stream: " ++ what
  | .unsupportedFragment fragTotal fragId =>
    "packet fragmentation unsupported: frag_total=" ++ toString fragTotal ++ ", frag_id=" ++
      toString fragId
  | .packetTooLarge size => "packet payload too large: " ++ toString size ++ " bytes"

def ATYP_NONE : UInt8 := 0xff

def ATYP_DOMAIN : UInt8 := 0x00

def ATYP_IPV4 : UInt8 := 0x01

def ATYP_IPV6 : UInt8 := 0x02

inductive Address
  | none
  | domain (name : String) (port : UInt16)
  | ipv4 (addr : Ipv4Addr) (port : UInt16)
  | ipv6 (addr : Ipv6Addr) (port : UInt16)
  deriving DecidableEq

theorem length_take_of_not_lt {b : Bytes} {n k : Nat} (h : ¬b.length < n + k) :
    (b.take n).length = n := by
  rw [length_take]
  omega

namespace Address

def writeTo : Address → Bytes
  | .none => ATYP_NONE :: be16 0
  -- The length is cast to a byte; a debug build panics above 255.
  | .domain name port =>
    ATYP_DOMAIN :: UInt8.ofNat (asBytes name).length :: asBytes name ++ be16 port
  | .ipv4 addr port => ATYP_IPV4 :: addr.octets ++ be16 port
  | .ipv6 addr port => ATYP_IPV6 :: addr.octets ++ be16 port

def readFrom (b : Bytes) : Except TuicError (Address × Bytes) :=
  if b.length < 3 then .error (.unexpectedEof "address atyp+port")
  else
    let atyp := byteAt b 0
    let b := b.drop 1
    if atyp = ATYP_NONE then .ok (.none, b.drop 2)
    else if atyp = ATYP_DOMAIN then
      if b.length < 1 then .error (.unexpectedEof "domain length")
      else
        let len := (byteAt b 0).toNat
        let b := b.drop 1
        if b.length < len + 2 then .error (.unexpectedEof "domain body+port")
        else
          match fromUtf8 (b.take len) with
          | Option.none => .error (.invalidAddress "domain not utf-8")
          | some name => .ok (.domain name (u16At b len), b.drop (len + 2))
    else if atyp = ATYP_IPV4 then
      if h : b.length < 4 + 2 then .error (.unexpectedEof "ipv4 body+port")
      else .ok (.ipv4 ⟨b.take 4, length_take_of_not_lt h⟩ (u16At b 4), b.drop 6)
    else if atyp = ATYP_IPV6 then
      if h : b.length < 16 + 2 then .error (.unexpectedEof "ipv6 body+port")
      else .ok (.ipv6 ⟨b.take 16, length_take_of_not_lt h⟩ (u16At b 16), b.drop 18)
    else .error (.invalidAddress "unknown atyp")

def Fits : Address → Prop
  | .domain name _ => (asBytes name).length ≤ 255
  | _ => True

variable {front rest : Bytes} {n : Nat}

section

variable (h : front.length = n) (port : UInt16)

include h port

theorem u16At_behind : u16At (front ++ (be16 port ++ rest)) n = port := by
  rw [u16At_append h.le, h, Nat.sub_self, u16At_be16]

theorem drop_behind : (front ++ (be16 port ++ rest)).drop (n + 2) = rest := by
  rw [← append_assoc]
  exact drop_left' (by rw [length_append, h, length_be16])

theorem not_length_lt : ¬(front ++ (be16 port ++ rest)).length < n + 2 := by
  simp
  omega

end

theorem readFrom_writeTo (h : a.Fits) (rest : Bytes) :
    readFrom (a.writeTo ++ rest) = .ok (a, rest) := by
  cases a with
  | none => rfl
  | domain name port =>
    have hl : (UInt8.ofNat (asBytes name).length).toNat = (asBytes name).length := by
      exact Nat.mod_eq_of_lt (Nat.lt_succ_of_le h)
    have ht : ¬(ATYP_DOMAIN :: UInt8.ofNat (asBytes name).length ::
        (asBytes name ++ (be16 port ++ rest))).length < 3 := by
      simp
      omega
    simp only [writeTo, cons_append, append_assoc]
    rw [readFrom, if_neg ht]
    simp only [byteAt, getD_cons_zero, drop_succ_cons, drop_zero, hl]
    rw [if_neg (by decide), if_pos trivial, if_neg (by simp), if_neg (not_length_lt rfl port),
      take_left, fromUtf8_asBytes, u16At_behind rfl, drop_behind rfl]
  | ipv4 addr port =>
    have hl := addr.length_octets
    have ht : ¬(ATYP_IPV4 :: (addr.octets ++ (be16 port ++ rest))).length < 3 := by
      simp
      omega
    simp only [writeTo, cons_append, append_assoc]
    rw [readFrom, if_neg ht]
    simp only [byteAt, getD_cons_zero, drop_succ_cons, drop_zero]
    rw [if_neg (by decide), if_neg (by decide), if_pos trivial, dif_neg (not_length_lt hl port),
      u16At_behind hl, drop_behind hl]
    simp [take_left' hl]
  | ipv6 addr port =>
    have hl := addr.length_octets
    have ht : ¬(ATYP_IPV6 :: (addr.octets ++ (be16 port ++ rest))).length < 3 := by
      simp
      omega
    simp only [writeTo, cons_append, append_assoc]
    rw [readFrom, if_neg ht]
    simp only [byteAt, getD_cons_zero, drop_succ_cons, drop_zero]
    rw [if_neg (by decide), if_neg (by decide), if_neg (by decide), if_pos trivial,
      dif_neg (not_length_lt hl port), u16At_behind hl, drop_behind hl]
    simp [take_left' hl]

end Address

def MAX_PACKET_PAYLOAD : Nat := 16 * 1024

structure Packet where
  assocId : UInt16
  pktId : UInt16
  fragTotal : UInt8
  fragId : UInt8
  addr : Address
  data : Bytes
  deriving DecidableEq

namespace Packet

def new (assocId pktId : UInt16) (addr : Address) (data : Bytes) : Packet :=
  ⟨assocId, pktId, 1, 0, addr, data⟩

def size (p : Packet) : UInt16 :=
  if p.data.length ≤ 65535 then UInt16.ofNat p.data.length else 65535

def writePayload (p : Packet) : Bytes :=
  be16 p.assocId ++ (be16 p.pktId ++ (p.fragTotal :: p.fragId ::
    (be16 p.size ++ (p.addr.writeTo ++ p.data.take p.size.toNat))))

def readBody (assocId pktId : UInt16) (fragTotal fragId : UInt8) (size : Nat) (b : Bytes) :
    Except TuicError (Packet × Bytes) := do
  let (addr, b) ← Address.readFrom b
  if b.length < size then .error (.unexpectedEof "packet data")
  else .ok (⟨assocId, pktId, fragTotal, fragId, addr, b.take size⟩, b.drop size)

def readPayload (b : Bytes) : Except TuicError (Packet × Bytes) :=
  if b.length < 8 then .error (.unexpectedEof "packet header (>=8 bytes)")
  else
    let size := (u16At b 6).toNat
    if MAX_PACKET_PAYLOAD < size then .error (.packetTooLarge size)
    else readBody (u16At b 0) (u16At b 2) (byteAt b 4) (byteAt b 5) size (b.drop 8)

variable {p : Packet}

theorem toNat_size (p : Packet) : p.size.toNat = min p.data.length 65535 := by
  rw [size]
  split
  · rw [UInt16.toNat_ofNat']
    omega
  · rw [min_eq_right (by omega)]
    rfl

theorem readPayload_eq (p : Packet) (rest : Bytes) : readPayload (p.writePayload ++ rest) =
    if MAX_PACKET_PAYLOAD < p.size.toNat then .error (.packetTooLarge p.size.toNat)
    else readBody p.assocId p.pktId p.fragTotal p.fragId p.size.toNat
      (p.addr.writeTo ++ (p.data.take p.size.toNat ++ rest)) := by
  have height : ¬(p.writePayload ++ rest).length < 8 := by
    simp [writePayload]
    omega
  have ha : u16At (p.writePayload ++ rest) 0 = p.assocId := ofBe16_be16 _
  have hp : u16At (p.writePayload ++ rest) 2 = p.pktId := ofBe16_be16 _
  have hsize : u16At (p.writePayload ++ rest) 6 = p.size := ofBe16_be16 _
  have hd : (p.writePayload ++ rest).drop 8 =
      p.addr.writeTo ++ (p.data.take p.size.toNat ++ rest) := by
    rw [← append_assoc]
    rfl
  rw [readPayload, if_neg height]
  simp only [ha, hp, hsize, hd]
  rfl

theorem readPayload_writePayload (ha : p.addr.Fits) (hdata : p.data.length ≤ MAX_PACKET_PAYLOAD)
    (rest : Bytes) : readPayload (p.writePayload ++ rest) = .ok (p, rest) := by
  have hm : MAX_PACKET_PAYLOAD = 16384 := rfl
  have hsize : p.size.toNat = p.data.length := by
    rw [toNat_size]
    omega
  rw [readPayload_eq, hsize, if_neg (not_lt.mpr hdata), take_length, readBody,
    Address.readFrom_writeTo ha, ok_bind]
  simp

theorem readPayload_oversized (hdata : MAX_PACKET_PAYLOAD < p.data.length) (rest : Bytes) :
    readPayload (p.writePayload ++ rest) = .error (.packetTooLarge (min p.data.length 65535)) := by
  have hm : MAX_PACKET_PAYLOAD = 16384 := rfl
  rw [readPayload_eq, toNat_size, if_pos (by omega)]

end Packet

end XrayCore.Tuic
