import XrayCore.Lib.Fallible
import XrayCore.Net.Address

/-!
# UDP messages of Hysteria

A message carries a session, a packet and a fragment of it, the address and the data. The
address is preceded by its length as a QUIC variable-length integer, whose two high bits say
how many bytes it takes.
-/

namespace XrayCore.Hysteria

open Lib Net List

def MAX_ADDRESS_LENGTH : Nat := 271

def readVarint : Bytes → Option (Nat × Bytes)
  | [] => none
  | first :: rest =>
    let len := 2 ^ (first.toNat / 64)
    if first.toNat / 64 = 0 then some (first.toNat, rest)
    else if rest.length < len - 1 then none
    else
      some ((rest.take (len - 1)).foldl (fun val b => val * 256 + b.toNat) (first.toNat % 64),
        rest.drop (len - 1))

def writeVarint (v : Nat) : Bytes :=
  if v < 2 ^ 6 then [UInt8.ofNat v]
  else if v < 2 ^ 14 then [UInt8.ofNat (v / 2 ^ 8) ||| 0x40, UInt8.ofNat v]
  else if v < 2 ^ 30 then
    [UInt8.ofNat (v / 2 ^ 24) ||| 0x80, UInt8.ofNat (v / 2 ^ 16), UInt8.ofNat (v / 2 ^ 8),
      UInt8.ofNat v]
  else
    [UInt8.ofNat (v / 2 ^ 56) ||| 0xC0, UInt8.ofNat (v / 2 ^ 48), UInt8.ofNat (v / 2 ^ 40),
      UInt8.ofNat (v / 2 ^ 32), UInt8.ofNat (v / 2 ^ 24), UInt8.ofNat (v / 2 ^ 16),
      UInt8.ofNat (v / 2 ^ 8), UInt8.ofNat v]

def varintLen (v : Nat) : Nat :=
  if v < 2 ^ 6 then 1 else if v < 2 ^ 14 then 2 else if v < 2 ^ 30 then 4 else 8

@[simp] theorem length_writeVarint (v : Nat) : (writeVarint v).length = varintLen v := by
  unfold writeVarint varintLen
  repeat' split
  all_goals rfl

theorem toNat_tag (k : Fin 4) (n : Fin 64) :
    (UInt8.ofNat n ||| UInt8.ofNat (64 * k)).toNat = 64 * k + n := by
  revert k n
  decide

theorem readVarint_tagged (hk : 0 < k) (hn : n < 64)
    (hf : first.toNat = 64 * k + n) (ht : tl.length = 2 ^ k - 1) (rest : Bytes) :
    readVarint (first :: tl ++ rest) =
      some (tl.foldl (fun val b => val * 256 + b.toNat) n, rest) := by
  have hd : first.toNat / 64 = k := by omega
  have hm : first.toNat % 64 = n := by omega
  have hl : ¬(tl ++ rest).length < 2 ^ k - 1 := by
    rw [length_append]
    omega
  rw [cons_append, readVarint]
  simp only [hd, hm]
  rw [if_neg (by omega), if_neg hl, ← ht, take_left, drop_left]

theorem readVarint_writeVarint (h : v < 2 ^ 62) (rest : Bytes) :
    readVarint (writeVarint v ++ rest) = some (v, rest) := by
  unfold writeVarint
  split
  · have hv : (UInt8.ofNat v).toNat = v := by
      rw [UInt8.toNat_ofNat']
      omega
    rw [singleton_append, readVarint]
    simp only [hv]
    rw [if_pos (by omega)]
  · split
    · have ht : (UInt8.ofNat (v / 2 ^ 8) ||| 0x40).toNat = 64 * 1 + v / 2 ^ 8 :=
        toNat_tag 1 ⟨v / 2 ^ 8, by omega⟩
      rw [readVarint_tagged one_pos (by omega) ht rfl]
      simp
      omega
    · split
      · have ht : (UInt8.ofNat (v / 2 ^ 24) ||| 0x80).toNat = 64 * 2 + v / 2 ^ 24 :=
          toNat_tag 2 ⟨v / 2 ^ 24, by omega⟩
        rw [readVarint_tagged two_pos (by omega) ht rfl]
        simp
        omega
      · have ht : (UInt8.ofNat (v / 2 ^ 56) ||| 0xC0).toNat = 64 * 3 + v / 2 ^ 56 :=
          toNat_tag 3 ⟨v / 2 ^ 56, by omega⟩
        rw [readVarint_tagged (Nat.succ_pos 2) (by omega) ht rfl]
        simp
        omega

structure UdpMessage where
  sessionId : UInt32
  packetId : UInt16
  fragId : UInt8
  fragCount : UInt8
  addr : String
  data : Bytes
  deriving DecidableEq

/-- `HysteriaProxyError::ProtocolParse`, by its text; the two that end in the text of an error
of the standard library without it. -/
inductive ParseError
  | tooShort
  | addrLen
  | addressLength
  | messageLength
  | addrUtf8
  deriving DecidableEq

def ParseError.message : ParseError → String
  | tooShort => "udp message too short"
  | addrLen => "udp msg addr len: "
  | addressLength => "invalid address length"
  | messageLength => "invalid message length"
  | addrUtf8 => "udp msg addr utf8: "

namespace UdpMessage

def headerSize (m : UdpMessage) : Nat :=
  4 + 2 + 1 + 1 + varintLen (asBytes m.addr).length + (asBytes m.addr).length

def size (m : UdpMessage) : Nat := m.headerSize + m.data.length

def serialize (m : UdpMessage) (room : Nat) : Bytes :=
  if room < m.size then []
  else
    be32 m.sessionId ++ be16 m.packetId ++ [m.fragId, m.fragCount] ++
      writeVarint (asBytes m.addr).length ++ asBytes m.addr ++ m.data

def parse (msg : Bytes) : Except ParseError UdpMessage :=
  if msg.length < 8 then .error .tooShort
  else
    match readVarint (msg.drop 8) with
    | none => .error .addrLen
    | some (addrLen, rest) =>
      if addrLen = 0 ∨ addrLen > MAX_ADDRESS_LENGTH then .error .addressLength
      else if rest.length ≤ addrLen then .error .messageLength
      else
        match fromUtf8 (rest.take addrLen) with
        | none => .error .addrUtf8
        | some addr =>
          .ok ⟨u32At msg 0, u16At msg 4, byteAt msg 6, byteAt msg 7, addr, rest.drop addrLen⟩

variable {room : Nat}

theorem length_serialize (m : UdpMessage) (h : m.size ≤ room) :
    (m.serialize room).length = m.size := by
  rw [serialize, if_neg (by omega)]
  simp [size, headerSize]
  omega

section

variable (m : UdpMessage) (hroom : m.size ≤ room) (ha : asBytes m.addr ≠ [])
  (hm : (asBytes m.addr).length ≤ MAX_ADDRESS_LENGTH)

include m hroom ha hm

theorem parse_wire :
    parse (m.serialize room) = if m.data = [] then .error .messageLength else .ok m := by
  have hpo := length_pos_of_ne_nil ha
  have hl := m.length_serialize hroom
  have hw : m.serialize room = be32 m.sessionId ++ (be16 m.packetId ++
      (m.fragId :: m.fragCount :: (writeVarint (asBytes m.addr).length ++
        (asBytes m.addr ++ m.data)))) := by
    rw [serialize, if_neg (by omega)]
    simp
  have hs : ¬(m.serialize room).length < 8 := by
    rw [hl, size, headerSize]
    omega
  have hr : readVarint ((m.serialize room).drop 8) =
      some ((asBytes m.addr).length, asBytes m.addr ++ m.data) := by
    rw [hw]
    refine readVarint_writeVarint ?_ _
    unfold MAX_ADDRESS_LENGTH at hm
    omega
  rw [parse, if_neg hs, hr]
  simp only
  rw [if_neg (by omega)]
  by_cases hdata : m.data = []
  · rw [if_pos hdata, hdata, append_nil, if_pos le_rfl]
  rw [if_neg hdata]
  have hp (rest : Bytes) : u16At (be32 m.sessionId ++ (be16 m.packetId ++ rest)) 4 = m.packetId :=
    u16At_be16 m.packetId rest
  rw [if_neg (by simp; omega), take_left, fromUtf8_asBytes, drop_left, hw]
  simp only [u32At_be32, hp]
  rfl

theorem parse_serialize (hdata : m.data ≠ []) : parse (m.serialize room) = .ok m := by
  rw [parse_wire m hroom ha hm, if_neg hdata]

end

end UdpMessage

end XrayCore.Hysteria
