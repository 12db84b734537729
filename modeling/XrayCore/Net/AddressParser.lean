import XrayCore.Buf.Buffer

/-!
# Addresses on the wire

`xray-common`'s address codec: a type byte, then the octets of an IP address or a length byte and
the UTF-8 bytes of a domain; the port is big endian. What the serializer would write with enough
room in its buffer is `encodeAddress`.
-/

namespace XrayCore.Net

open Lib Buf List Buffer

def ADDR_TYPE_IPV4 : UInt8 := 1

def ADDR_TYPE_DOMAIN : UInt8 := 2

def ADDR_TYPE_IPV6 : UInt8 := 3

namespace AddressSerializer

def writeAddress (buf : Buffer) (addr : Address) : Buffer :=
  match addr with
  | .ipv4 v4 => ((buf.writeByte ADDR_TYPE_IPV4).1.writeFrom v4.octets).1
  | .domain domain =>
    let domainBytes := asBytes domain
    let buf := (buf.writeByte ADDR_TYPE_DOMAIN).1
    let buf := (buf.writeByte (UInt8.ofNat domainBytes.length)).1
    (buf.writeFrom domainBytes).1
  | .ipv6 v6 => ((buf.writeByte ADDR_TYPE_IPV6).1.writeFrom v6.octets).1

def writePortAddress (buf : Buffer) (port : Port) (addr : Address) : Buffer :=
  writeAddress (buf.writeFrom (be16 port)).1 addr

end AddressSerializer

namespace AddressParser

def readAddress (data : Bytes) : Option (Address × Nat) :=
  if data = [] then none
  else if byteAt data 0 = ADDR_TYPE_IPV4 then
    if h : data.length < 1 + 4 then none
    else some (.ipv4 ⟨(data.drop 1).take 4, by
      simp only [length_take, length_drop]; omega⟩, 5)
  else if byteAt data 0 = ADDR_TYPE_DOMAIN then
    if data.length < 2 then none
    else
      let domainLen := (byteAt data 1).toNat
      if data.length < 2 + domainLen then none
      else (fromUtf8 ((data.drop 2).take domainLen)).map fun s => (.domain s, 2 + domainLen)
  else if byteAt data 0 = ADDR_TYPE_IPV6 then
    if h : data.length < 1 + 16 then none
    else some (.ipv6 ⟨(data.drop 1).take 16, by
      simp only [length_take, length_drop]; omega⟩, 17)
  else none

def readPort (data : Bytes) : Option Port := if data.length < 2 then none else some (u16At data 0)

def parsePortAddress (data : Bytes) : Option (Port × Address × Nat) := do
  let port ← readPort data
  let (addr, addrLen) ← readAddress (data.drop 2)
  return (port, addr, 2 + addrLen)

end AddressParser

def encodeAddress : Address → Bytes
  | .ipv4 v4 => ADDR_TYPE_IPV4 :: v4.octets
  | .domain domain => ADDR_TYPE_DOMAIN :: UInt8.ofNat (asBytes domain).length :: asBytes domain
  | .ipv6 v6 => ADDR_TYPE_IPV6 :: v6.octets

def encodePortAddress (port : Port) (addr : Address) : Bytes := be16 port ++ encodeAddress addr

def Address.Short : Address → Prop
  | .ipv4 _ | .ipv6 _ => True
  | .domain name => (asBytes name).length ≤ 255

instance : DecidablePred Address.Short
  | .ipv4 _ | .ipv6 _ => inferInstanceAs (Decidable True)
  | .domain name => inferInstanceAs (Decidable ((asBytes name).length ≤ 255))

theorem take_singleton_append (x : UInt8) (xs : Bytes) (n : Nat) :
    [x].take n ++ xs.take (n - 1) = (x :: xs).take n := (take_append).symm

open AddressSerializer

theorem bytes_writeAddress (buf : Buffer) (addr : Address) : (writeAddress buf addr).bytes =
      buf.bytes ++ (encodeAddress addr).take buf.free := by
  cases addr with
  | ipv4 v4 | ipv6 v6 =>
    simp [writeAddress, encodeAddress, take_singleton_append]
  | domain name =>
    simp only [writeAddress, encodeAddress, bytes_writeFrom,
      bytes_writeByte, free_writeByte, append_assoc]
    rw [take_singleton_append, take_singleton_append]

theorem bytes_writePortAddress (buf : Buffer) (port : Port) (addr : Address) :
    (writePortAddress buf port addr).bytes =
      buf.bytes ++ (encodePortAddress port addr).take buf.free := by
  rw [writePortAddress, bytes_writeAddress, bytes_writeFrom,
    free_writeFrom, encodePortAddress, append_assoc, take_append]

open AddressParser

theorem readAddress_domain (len : UInt8) (data : Bytes) :
    readAddress (ADDR_TYPE_DOMAIN :: len :: data) = if data.length < len.toNat then none
      else (fromUtf8 (data.take len.toNat)).map fun s => (.domain s, 2 + len.toNat) := by
  have hl : (ADDR_TYPE_DOMAIN :: len :: data).length < 2 + len.toNat ↔ data.length < len.toNat := by
    rw [length_cons, length_cons]
    omega
  simp only [readAddress, byteAt, getD_cons_zero, getD_cons_succ, hl, drop_succ_cons, drop_zero]
  rfl

theorem readAddress_encode (addr : Address) (h : addr.Short) (rest : Bytes) :
    readAddress (encodeAddress addr ++ rest) = some (addr, (encodeAddress addr).length) := by
  cases addr with
  | ipv4 v4 =>
    obtain ⟨octets, hl⟩ := v4
    have ht : (octets ++ rest).take 4 = octets := take_left' hl
    simp [readAddress, encodeAddress, byteAt, ht, hl]
  | ipv6 v6 =>
    obtain ⟨octets, hl⟩ := v6
    have ht : (octets ++ rest).take 16 = octets := take_left' hl
    have hi4 : ADDR_TYPE_IPV6 ≠ ADDR_TYPE_IPV4 := by decide
    have hd : ADDR_TYPE_IPV6 ≠ ADDR_TYPE_DOMAIN := by decide
    simp [readAddress, encodeAddress, byteAt, ht, hl, hi4, hd]
  | domain name =>
    have hl : (UInt8.ofNat (asBytes name).length).toNat = (asBytes name).length :=
      UInt8.toNat_ofNat_of_lt' (Nat.lt_succ_of_le h)
    rw [encodeAddress, cons_append, cons_append, readAddress_domain, hl,
      if_neg (by rw [length_append]; omega), take_left, fromUtf8_asBytes,
      Option.map_some, length_cons, length_cons, add_comm 2]

theorem parsePortAddress_be16 (port : Port) (data : Bytes) : parsePortAddress (be16 port ++ data) =
      (readAddress data).map fun r => (port, r.1, 2 + r.2) := by
  have hl : ¬(be16 port ++ data).length < 2 := not_lt.mpr (Nat.le_add_left 2 data.length)
  have hp : readPort (be16 port ++ data) = some port := by
    rw [readPort, if_neg hl, u16At_be16]
  have hrest : (be16 port ++ data).drop 2 = data := rfl
  rw [parsePortAddress, hp, hrest]
  cases readAddress data <;> rfl

/-- With only `room` bytes of a domain written and `tail` behind them, the bytes
that a reader takes for the domain are its own. -/
def Address.Fits (room : Nat) (tail : Bytes) : Address → Prop
  | .ipv4 _ | .ipv6 _ => True
  | .domain name => (asBytes name).drop room <+: tail

instance (room : Nat) (tail : Bytes) : DecidablePred (Address.Fits room tail)
  | .ipv4 _ | .ipv6 _ => inferInstanceAs (Decidable True)
  | .domain name => inferInstanceAs (Decidable ((asBytes name).drop room <+: tail))

theorem take_encodeAddress_of_fits (hcap : 17 ≤ cap) (h : addr.Fits (cap - 2) tl) :
    ∃ rest, (encodeAddress addr).take cap ++ tl = encodeAddress addr ++ rest := by
  cases addr with
  | ipv4 v4 =>
    refine ⟨tl, congrArg (· ++ tl) (take_of_length_le ?_)⟩
    rw [encodeAddress, length_cons, v4.length_octets]
    omega
  | ipv6 v6 =>
    refine ⟨tl, congrArg (· ++ tl) (take_of_length_le ?_)⟩
    rw [encodeAddress, length_cons, v6.length_octets]
    omega
  | domain name =>
    obtain ⟨rest, rfl⟩ := h
    obtain ⟨room, rfl⟩ := Nat.exists_eq_add_of_le' (show 2 ≤ cap by omega)
    refine ⟨rest, ?_⟩
    rw [encodeAddress, take_succ_cons, take_succ_cons, Nat.add_sub_cancel]
    simp [← append_assoc]

theorem readAddress_take_iff (hcap : 17 ≤ cap) (hsh : addr.Short) :
    (∃ n, readAddress ((encodeAddress addr).take cap ++ tl) = some (addr, n)) ↔
      addr.Fits (cap - 2) tl := by
  constructor
  · rintro ⟨n, h⟩
    cases addr with
    | ipv4 v4 | ipv6 v6 => trivial
    | domain name =>
      obtain ⟨room, rfl⟩ := Nat.exists_eq_add_of_le' (show 2 ≤ cap by omega)
      have hl : (UInt8.ofNat (asBytes name).length).toNat = (asBytes name).length :=
        UInt8.toNat_ofNat_of_lt' (Nat.lt_succ_of_le hsh)
      rw [encodeAddress, take_succ_cons, take_succ_cons, cons_append,
        cons_append, readAddress_domain, hl] at h
      split at h
      · cases h
      obtain ⟨s, hs, hn⟩ := Option.map_eq_some_iff.mp h
      cases hn
      have hb := asBytes_of_fromUtf8 hs
      rw [take_append, take_of_length_le (length_take_le' _ _)] at hb
      have hd : (asBytes name).drop room = tl.take _ :=
        append_cancel_left ((take_append_drop room _).trans hb)
      exact ⟨_, (congrArg (· ++ _) hd).trans (take_append_drop _ tl)⟩
  · intro h
    obtain ⟨rest, hrest⟩ := take_encodeAddress_of_fits hcap h
    exact ⟨_, by rw [hrest, readAddress_encode addr hsh]⟩

theorem parsePortAddress_take_iff (port : Port) (tail : Bytes) (hcap : 19 ≤ cap) (hs : addr.Short) :
    (∃ n, parsePortAddress ((encodePortAddress port addr).take cap ++ tail) =
      some (port, addr, n)) ↔ addr.Fits (cap - 4) tail := by
  have ht : (encodePortAddress port addr).take cap ++ tail =
      be16 port ++ ((encodeAddress addr).take (cap - 2) ++ tail) := by
    rw [encodePortAddress, take_append, length_be16, append_assoc,
      take_of_length_le (by rw [length_be16]; omega)]
  rw [ht, parsePortAddress_be16, ← Nat.sub_sub cap 2 2,
    ← readAddress_take_iff (Nat.le_sub_of_add_le hcap) hs]
  constructor
  · rintro ⟨n, h⟩
    obtain ⟨⟨addr', n'⟩, hr, heq⟩ := Option.map_eq_some_iff.mp h
    cases heq
    exact ⟨n', hr⟩
  · rintro ⟨n, h⟩
    exact ⟨2 + n, by rw [h, Option.map_some]⟩

end XrayCore.Net
