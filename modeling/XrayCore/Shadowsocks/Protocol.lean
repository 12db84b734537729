import XrayCore.Net.Address

/-!
# Shadowsocks errors and addresses

The errors of the Shadowsocks code and its address format: a type byte of which only
the low four bits count, the octets of an IP address or a length byte and the UTF-8
bytes of a domain, and the port, big endian.
-/

namespace XrayCore.Shadowsocks

open Lib Net List

inductive SsError
  | unsupportedCipher
  | initDecode (msg : String)
  | insufficientData (len : Nat)
  | invalidRemoteAddress
  | aesGcmInit (msg : String)
  | aeadSeal (msg : String)
  | aeadOpen (msg : String)
  | io (msg : String)
  | ss2022InvalidHeaderType (ty : UInt8)
  | ss2022TimestampCheck (msg : String)
  | ss2022NoUserMatched
  | ss2022PacketIdNotUnique
  | ss2022SaltNotUnique
  | ss2022BadClientSessionId
  | ss2022TooManyServerSessions
  | ss2022BadRequestSalt
  deriving DecidableEq, Repr

def SsError.toString : SsError → String
  | .unsupportedCipher => "unsupported cipher"
  | .initDecode msg => s!"failed to initialize decoding stream: {msg}"
  | .insufficientData len => s!"insufficient data: {len}"
  | .invalidRemoteAddress => "invalid remote address"
  | .aesGcmInit msg => s!"aes-gcm init: {msg}"
  | .aeadSeal msg => s!"aead seal failed: {msg}"
  | .aeadOpen msg => s!"aead open failed: {msg}"
  | .io msg => s!"io: {msg}"
  | .ss2022InvalidHeaderType ty => s!"ss-2022 header type invalid: {ty}"
  | .ss2022TimestampCheck msg => s!"ss-2022 timestamp check failed: {msg}"
  | .ss2022NoUserMatched => "ss-2022 no user matched"
  | .ss2022PacketIdNotUnique => "ss-2022 packet id not unique (replay?)"
  | .ss2022SaltNotUnique => "ss-2022 request salt not unique (replay?)"
  | .ss2022BadClientSessionId => "ss-2022 server packet clientSessionId mismatch"
  | .ss2022TooManyServerSessions =>
    "ss-2022 server session changed more than once during the last minute"
  | .ss2022BadRequestSalt => "ss-2022 request salt mismatch"

/-- `AsyncReadExt::read_exact` on a connection of which `input` is still to come: the bytes
and what is behind them. -/
def readExact (input : Bytes) (n : Nat) : Except SsError (Bytes × Bytes) :=
  if input.length < n then .error (.io "early eof") else .ok (input.take n, input.drop n)

theorem readExact_append (h : wire.length = n) : readExact (wire ++ rest) n = .ok (wire, rest) := by
  subst h
  simp [readExact]

theorem readExact_ok
    (h : readExact input n = .ok (wire, rest)) : wire = input.take n ∧ rest = input.drop n := by
  unfold readExact at h
  split at h
  · cases h
  · cases h
    exact ⟨rfl, rfl⟩

namespace AddrType

def IPV4 : UInt8 := 0x01

def DOMAIN : UInt8 := 0x03

def IPV6 : UInt8 := 0x04

end AddrType

def parseAddrType (b : UInt8) : UInt8 := b &&& 0x0F

def readAddressSs (buf : Bytes) : Except SsError (Address × Nat) :=
  if buf = [] then .error (.insufficientData 0)
  else
    let addrType := parseAddrType (byteAt buf 0)
    if addrType = AddrType.IPV4 then
      if buf.length < 1 + 4 then .error (.insufficientData buf.length)
      else .ok (.ipv4 (.new (byteAt buf 1) (byteAt buf 2) (byteAt buf 3) (byteAt buf 4)), 5)
    else if addrType = AddrType.DOMAIN then
      if buf.length < 1 + 1 then .error (.insufficientData buf.length)
      else
        let len := (byteAt buf 1).toNat
        if buf.length < 2 + len then .error (.insufficientData buf.length)
        else
          match fromUtf8 ((buf.drop 2).take len) with
          | none => .error .invalidRemoteAddress
          | some domain => .ok (.domain domain, 2 + len)
    else if addrType = AddrType.IPV6 then
      if buf.length < 1 + 16 then .error (.insufficientData buf.length)
      else .ok (.ipv6 (.ofOctets fun i => byteAt buf (1 + i)), 17)
    else .error .invalidRemoteAddress

def readAddressPortSs (buf : Bytes) : Except SsError (Address × Port × Nat) := do
  let (addr, pos) ← readAddressSs buf
  if buf.length < pos + 2 then .error (.insufficientData buf.length)
  else .ok (addr, u16At buf pos, pos + 2)

/-- The inbound's own copy of `read_address_port_ss`: the same tests in the same order. -/
def parseVariableHeader (buf : Bytes) : Except SsError (Address × Port × Nat) :=
  readAddressPortSs buf

def encodeDomainPort (domain : String) (port : Port) : Bytes :=
  AddrType.DOMAIN :: UInt8.ofNat (asBytes domain).length :: asBytes domain ++ be16 port

theorem length_encodeDomainPort (dom : String) (port : Port) :
    (encodeDomainPort dom port).length = (asBytes dom).length + 4 := by
  simp [encodeDomainPort]

theorem readAddressPortSs_encodeDomainPort (port : Port) (rest : Bytes)
    (hl : (asBytes domain).length ≤ 255) :
    readAddressPortSs (encodeDomainPort domain port ++ rest) =
      .ok (.domain domain, port, (asBytes domain).length + 4) := by
  have htype : parseAddrType AddrType.DOMAIN = AddrType.DOMAIN := by decide
  have hne4 : AddrType.DOMAIN ≠ AddrType.IPV4 := by decide
  have hb : (UInt8.ofNat (asBytes domain).length).toNat = (asBytes domain).length := by
    rw [UInt8.toNat_ofNat']
    omega
  have hbu : encodeDomainPort domain port ++ rest =
      AddrType.DOMAIN :: UInt8.ofNat (asBytes domain).length ::
        (asBytes domain ++ (be16 port ++ rest)) := by
    simp [encodeDomainPort]
  have ha : readAddressSs (encodeDomainPort domain port ++ rest) =
      .ok (.domain domain, 2 + (asBytes domain).length) := by
    have h2 : ¬(encodeDomainPort domain port ++ rest).length < 2 + (asBytes domain).length := by
      rw [length_append, length_encodeDomainPort]
      omega
    have h1 : ¬(encodeDomainPort domain port ++ rest).length < 1 + 1 := by omega
    rw [hbu] at h1 h2 ⊢
    simp only [readAddressSs, byteAt, getD_cons_zero, getD_cons_succ, htype, hne4, hb,
      h1, h2, if_false, drop_succ_cons, drop_zero, take_left, fromUtf8_asBytes,
      reduceCtorEq, if_true]
  have hp : u16At (encodeDomainPort domain port ++ rest) (2 + (asBytes domain).length) = port := by
    have hpr : (AddrType.DOMAIN :: UInt8.ofNat (asBytes domain).length :: asBytes domain).length =
        2 + (asBytes domain).length := by
      simp
      omega
    rw [hbu, ← cons_append, ← cons_append, u16At_append hpr.le, hpr, Nat.sub_self, u16At_be16]
  rw [readAddressPortSs, ha]
  simp only [bind, Except.bind]
  rw [if_neg (by simp [length_encodeDomainPort]; omega), hp,
    show 2 + (asBytes domain).length + 2 = (asBytes domain).length + 4 by omega]

end XrayCore.Shadowsocks
