import XrayCore.Lib.BigEndian

/-!
# Authenticated encryption

The `AeadCipher` trait of `xray-crypto`. What a cipher computes under its key comes from
a cryptographic library: `encrypt` appends a tag, `decrypt` gives nothing back when the
tag is wrong. The code adds the check of the nonce's length. `Lawful` is all that is
assumed of the library.
-/

namespace XrayCore.Crypto

open Lib (Bytes)

inductive CryptoError
  | invalidKeyLength (actual : Nat)
  | invalidNonceLength (expected actual : Nat)
  | authenticationFailed
  | encryptionError (msg : String)
  deriving DecidableEq, Repr

def CryptoError.toString : CryptoError → String
  | .invalidKeyLength actual => s!"invalid key length: expected 16 or 32 bytes, got {actual}"
  | .invalidNonceLength expected actual =>
    s!"invalid nonce length: expected {expected} bytes, got {actual}"
  | .authenticationFailed => "authentication failed: ciphertext may be corrupted or tampered"
  | .encryptionError msg => s!"encryption error: {msg}"

structure AeadCipher where
  nonceSize : Nat
  tagSize : Nat
  /-- Nonce, associated data and plaintext to ciphertext and tag. -/
  encrypt : Bytes → Bytes → Bytes → Bytes
  decrypt : Bytes → Bytes → Bytes → Option Bytes

namespace AeadCipher

variable {c : AeadCipher} {nonce aad plaintext : Bytes}

def sealBytes (c : AeadCipher) (nonce aad plaintext : Bytes) : Except CryptoError Bytes :=
  if nonce.length ≠ c.nonceSize then .error (.invalidNonceLength c.nonceSize nonce.length)
  else .ok (c.encrypt nonce aad plaintext)

def openBytes (c : AeadCipher) (nonce aad ciphertext : Bytes) : Except CryptoError Bytes :=
  if nonce.length ≠ c.nonceSize then .error (.invalidNonceLength c.nonceSize nonce.length)
  else
    match c.decrypt nonce aad ciphertext with
    | none => .error .authenticationFailed
    | some plaintext => .ok plaintext

structure Lawful (c : AeadCipher) : Prop where
  decrypt_encrypt : ∀ nonce aad plaintext,
    c.decrypt nonce aad (c.encrypt nonce aad plaintext) = some plaintext
  length_encrypt : ∀ nonce aad plaintext,
    (c.encrypt nonce aad plaintext).length = plaintext.length + c.tagSize

theorem sealBytes_ok (h : nonce.length = c.nonceSize) :
    c.sealBytes nonce aad plaintext = .ok (c.encrypt nonce aad plaintext) := by
  simp [sealBytes, h]

theorem Lawful.openBytes_encrypt (hc : c.Lawful) (h : nonce.length = c.nonceSize) :
    c.openBytes nonce aad (c.encrypt nonce aad plaintext) = .ok plaintext := by
  simp [openBytes, h, hc.decrypt_encrypt]

theorem openBytes_eq_ok_iff : c.openBytes nonce aad ciphertext = .ok plaintext ↔
      nonce.length = c.nonceSize ∧ c.decrypt nonce aad ciphertext = some plaintext := by
  unfold openBytes
  split
  · next h => simp [h]
  · next h =>
    split <;> simp_all

end AeadCipher

structure Backend where
  encrypt : Bytes → Bytes → Bytes → Bytes → Bytes
  decrypt : Bytes → Bytes → Bytes → Bytes → Option Bytes

/-- The cipher under a key. Every tag has 16 bytes. -/
def Backend.cipher (b : Backend) (nonceSize : Nat) (key : Bytes) : AeadCipher :=
  ⟨nonceSize, 16, b.encrypt key, b.decrypt key⟩

def Backend.Lawful (b : Backend) : Prop := ∀ nonceSize key, (b.cipher nonceSize key).Lawful

def Backend.new (b : Backend) (keySize nonceSize : Nat) (key : Bytes) :
    Except CryptoError AeadCipher :=
  if key.length ≠ keySize then .error (.invalidKeyLength key.length)
  else .ok (b.cipher nonceSize key)

structure Backends where
  aes128Gcm : Backend
  aes256Gcm : Backend
  chaCha20Poly1305 : Backend
  xChaCha20Poly1305 : Backend

namespace Backends

variable (b : Backends)

def newAes128Gcm : Bytes → Except CryptoError AeadCipher := b.aes128Gcm.new 16 12

def newAes256Gcm : Bytes → Except CryptoError AeadCipher := b.aes256Gcm.new 32 12

def newChaCha20Poly1305 : Bytes → Except CryptoError AeadCipher := b.chaCha20Poly1305.new 32 12

def newXChaCha20Poly1305 : Bytes → Except CryptoError AeadCipher := b.xChaCha20Poly1305.new 32 24

end Backends

def zeroTag : Bytes := List.replicate 16 0

def Backend.clear : Backend where
  encrypt _ _ _ plaintext := plaintext ++ zeroTag
  decrypt _ _ _ ciphertext :=
    if ciphertext.drop (ciphertext.length - 16) = zeroTag then
      some (ciphertext.take (ciphertext.length - 16))
    else none

theorem Backend.clear_lawful : Backend.clear.Lawful := fun _ _ =>
  ⟨fun _ _ plaintext => by simp [cipher, clear, zeroTag],
    fun _ _ plaintext => by simp [cipher, clear, zeroTag]⟩

end XrayCore.Crypto
