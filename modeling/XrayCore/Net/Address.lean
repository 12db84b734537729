import XrayCore.Lib.BigEndian

/-!
# Addresses and destinations

The address types of `xray-common`. An IP address is its octets, with their
number as a field, so that an address of the wrong width cannot be built. A
domain is a string; what the wire formats see of it is its UTF-8 encoding.
-/

namespace XrayCore.Net

open Lib (Bytes)

structure Ipv4Addr where
  octets : Bytes
  length_octets : octets.length = 4
  deriving DecidableEq

def Ipv4Addr.new (a b c d : UInt8) : Ipv4Addr := ⟨[a, b, c, d], rfl⟩

structure Ipv6Addr where
  octets : Bytes
  length_octets : octets.length = 16
  deriving DecidableEq

def Ipv6Addr.ofOctets (octet : Fin 16 → UInt8) : Ipv6Addr := ⟨List.ofFn octet, List.length_ofFn⟩

inductive IpAddr
  | v4 (addr : Ipv4Addr)
  | v6 (addr : Ipv6Addr)
  deriving DecidableEq

inductive Address
  | ipv4 (addr : Ipv4Addr)
  | ipv6 (addr : Ipv6Addr)
  | domain (name : String)
  deriving DecidableEq

inductive Network
  | tcp
  | udp
  | unix
  deriving DecidableEq, Repr

abbrev Port := UInt16

structure Destination where
  address : Address
  port : Port
  network : Network
  deriving DecidableEq

def Destination.udp (address : Address) (port : Port) : Destination := ⟨address, port, .udp⟩

inductive SocketAddr
  | v4 (addr : Ipv4Addr) (port : Port)
  | v6 (addr : Ipv6Addr) (port : Port)
  deriving DecidableEq

def asBytes (s : String) : Bytes := s.toByteArray.data.toList

def fromUtf8 (b : Bytes) : Option String := String.fromUTF8? ⟨b.toArray⟩

theorem fromUtf8_asBytes (s : String) : fromUtf8 (asBytes s) = some s := by
  have h : (⟨(asBytes s).toArray⟩ : ByteArray) = s.toByteArray := by simp [asBytes]
  rw [fromUtf8, h, String.fromUTF8?, dif_pos s.isValidUTF8]
  rfl

theorem asBytes_of_fromUtf8 (h : fromUtf8 b = some s) : asBytes s = b := by
  rw [fromUtf8, String.fromUTF8?] at h
  split at h
  · cases h
    simp [asBytes, String.fromUTF8]
  · cases h

end XrayCore.Net
