import XrayCore.Crypto.Aead
import XrayCore.Lib.LeCounter

/-!
# The AEAD of VLESS encryption

A cipher under a derived key with a nonce that counts. `seal_in_place` and `open_in_place` take the
next nonce first, and a nonce of `MAX_NONCE` is followed by zero. What the key derivation and the
ciphers compute is not part of the repository.
-/

namespace XrayCore.Vless.Encryption

open Lib Crypto

def NONCE_LEN : Nat := 12

def TAG_LEN : Nat := 16

def MAX_NONCE : Bytes := List.replicate NONCE_LEN 0xFF

/-- `blake3::derive_key` and the cipher under the derived key: from a context, a key and the choice
of AES. -/
abbrev Derive := Bytes → Bytes → Bool → AeadCipher

structure Aead where
  cipher : AeadCipher
  nonce : Bytes
  length_nonce : nonce.length = NONCE_LEN

theorem length_zero_nonce : (List.replicate NONCE_LEN (0 : UInt8)).length = NONCE_LEN :=
  List.length_replicate

theorem length_next_nonce {nonce : Bytes} (h : nonce.length = NONCE_LEN) :
    (increment nonce.reverse).reverse.length = NONCE_LEN := by
  rw [List.length_reverse, length_increment, List.length_reverse, h]

namespace Aead

def new (derive : Derive) (context key : Bytes) (useAes : Bool) : Aead :=
  ⟨derive context key useAes, List.replicate NONCE_LEN 0, length_zero_nonce⟩

def isMax (aead : Aead) : Bool := aead.nonce = MAX_NONCE

def increaseNonce (aead : Aead) : Aead :=
  ⟨aead.cipher, (increment aead.nonce.reverse).reverse, length_next_nonce aead.length_nonce⟩

def sealInPlace (aead : Aead) (buf aad : Bytes) : Bytes × Aead :=
  let aead := aead.increaseNonce
  (aead.cipher.encrypt aead.nonce aad buf, aead)

/-- `open_in_place` without a nonce. The nonce is used up even if the tag is wrong. -/
def openInPlace (aead : Aead) (buf aad : Bytes) : Option Bytes × Aead :=
  let aead := aead.increaseNonce
  (aead.cipher.decrypt aead.nonce aad buf, aead)

def rank (nonce : Bytes) : Nat := if beNat nonce = 0 then 256 ^ NONCE_LEN else beNat nonce

end Aead

def TLS_RECORD_TYPE_APP_DATA : UInt8 := 23

def TLS_LEGACY_VERSION_HIGH : UInt8 := 3

def TLS_LEGACY_VERSION_LOW : UInt8 := 3

def TLS_RECORD_HEADER_LEN : Nat := 5

def TLS_PAYLOAD_MIN : Nat := 17

def TLS_PAYLOAD_MAX : Nat := 16640

def tlsRecordHeader (payloadLen : UInt16) : Bytes :=
  [TLS_RECORD_TYPE_APP_DATA, TLS_LEGACY_VERSION_HIGH, TLS_LEGACY_VERSION_LOW] ++ be16 payloadLen

def decodeTlsRecordHeader (header : Bytes) : Option Nat :=
  let len := (u16At header 3).toNat
  let prefixOk := byteAt header 0 = TLS_RECORD_TYPE_APP_DATA ∧
    byteAt header 1 = TLS_LEGACY_VERSION_HIGH ∧ byteAt header 2 = TLS_LEGACY_VERSION_LOW
  let rangeOk := TLS_PAYLOAD_MIN ≤ len ∧ len ≤ TLS_PAYLOAD_MAX
  if prefixOk ∧ rangeOk then some len else none

theorem decode_some (h : decodeTlsRecordHeader header = some n) : TLS_PAYLOAD_MIN ≤ n := by
  unfold decodeTlsRecordHeader at h
  obtain ⟨⟨-, hm, -⟩, hl⟩ := Option.ite_none_right_eq_some.mp h
  cases hl
  exact hm

end XrayCore.Vless.Encryption
