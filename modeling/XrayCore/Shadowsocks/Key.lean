import XrayCore.Crypto.Aead
import XrayCore.Shadowsocks.Protocol
import Mathlib.Data.List.TakeDrop

/-!
# Keys of Shadowsocks 2022

The three ciphers, their key and salt sizes, and how the key of a session is derived
from a pre-shared key and a salt. The hash, the block cipher and the authenticated
ciphers themselves come from libraries.
-/

namespace XrayCore.Shadowsocks

open Lib Crypto

inductive CipherKind2022
  | aes128Gcm
  | aes256Gcm
  | chaCha20Poly1305
  deriving DecidableEq, Repr

namespace CipherKind2022

def keySize : CipherKind2022 → Nat
  | .aes128Gcm => 16
  | .aes256Gcm | .chaCha20Poly1305 => 32

def saltSize (kind : CipherKind2022) : Nat := kind.keySize

theorem keySize_le (kind : CipherKind2022) : kind.keySize ≤ 32 := by
  cases kind <;> decide

end CipherKind2022

structure BlockCipher where
  encrypt : Bytes → Bytes → Bytes
  decrypt : Bytes → Bytes → Bytes
  length_decrypt : ∀ key block, (decrypt key block).length = 16

structure Library extends Backends where
  deriveKey : String → Bytes → Bytes
  length_deriveKey : ∀ ctx material, (deriveKey ctx material).length = 32
  hash : Bytes → Bytes
  aes128 : BlockCipher
  aes256 : BlockCipher

namespace Library

variable (L : Library)

structure Lawful : Prop where
  aes128Gcm : L.aes128Gcm.Lawful
  aes256Gcm : L.aes256Gcm.Lawful
  chaCha20Poly1305 : L.chaCha20Poly1305.Lawful

def deriveSessionSubkey (psk salt : Bytes) (kind : CipherKind2022) : Bytes :=
  (L.deriveKey "shadowsocks 2022 session subkey" (psk ++ salt)).take kind.keySize

def deriveIdentitySubkey (ipsk salt : Bytes) (kind : CipherKind2022) : Bytes :=
  (L.deriveKey "shadowsocks 2022 identity subkey" (ipsk ++ salt)).take kind.keySize

def identityHeaderLen : Nat := 16

def pskIdentity (psk : Bytes) : Bytes := (L.hash psk).take identityHeaderLen

def ecbBlock (kind : CipherKind2022) (key block : Bytes) (encrypt : Bool) : Bytes :=
  match kind, encrypt with
  | .aes128Gcm, true => L.aes128.encrypt (key.take 16) block
  | .aes128Gcm, false => L.aes128.decrypt (key.take 16) block
  | _, true => L.aes256.encrypt (key.take 32) block
  | _, false => L.aes256.decrypt (key.take 32) block

theorem length_ecbBlock_decrypt (kind : CipherKind2022) (key block : Bytes) :
    (L.ecbBlock kind key block false).length = 16 := by
  cases kind with
  | aes128Gcm => exact L.aes128.length_decrypt _ _
  | aes256Gcm | chaCha20Poly1305 => exact L.aes256.length_decrypt _ _

def encryptIdentityHeader (ipsk nextPsk salt : Bytes) (kind : CipherKind2022) : Bytes :=
  L.ecbBlock kind (L.deriveIdentitySubkey ipsk salt kind) (L.pskIdentity nextPsk) true

def decryptIdentityHeader (ipsk header salt : Bytes) (kind : CipherKind2022) :
    Except SsError Bytes :=
  if header.length ≠ identityHeaderLen then .error (.insufficientData header.length)
  else .ok (L.ecbBlock kind (L.deriveIdentitySubkey ipsk salt kind) header false)

/-- An error of the ciphers becomes `AesGcmInit`, whichever cipher it is. -/
def buildAead (kind : CipherKind2022) (subkey : Bytes) : Except SsError AeadCipher :=
  (match kind with
    | .aes128Gcm => L.newAes128Gcm subkey
    | .aes256Gcm => L.newAes256Gcm subkey
    | .chaCha20Poly1305 => L.newChaCha20Poly1305 subkey).mapError
      fun e : CryptoError => .aesGcmInit e.toString

def sessionAead (kind : CipherKind2022) (psk salt : Bytes) : AeadCipher :=
  let subkey := L.deriveSessionSubkey psk salt kind
  match kind with
  | .aes128Gcm => L.aes128Gcm.cipher 12 subkey
  | .aes256Gcm => L.aes256Gcm.cipher 12 subkey
  | .chaCha20Poly1305 => L.chaCha20Poly1305.cipher 12 subkey

theorem length_deriveSessionSubkey (psk salt : Bytes) (kind : CipherKind2022) :
    (L.deriveSessionSubkey psk salt kind).length = kind.keySize := by
  rw [deriveSessionSubkey, List.length_take, L.length_deriveKey]
  exact min_eq_left kind.keySize_le

variable {L} {kind : CipherKind2022} {psk salt : Bytes}

theorem buildAead_deriveSessionSubkey :
    L.buildAead kind (L.deriveSessionSubkey psk salt kind) = .ok (L.sessionAead kind psk salt) := by
  have hl := L.length_deriveSessionSubkey psk salt kind
  cases kind <;>
    simp_all [buildAead, sessionAead, Backends.newAes128Gcm, Backends.newAes256Gcm,
      Backends.newChaCha20Poly1305, Backend.new, CipherKind2022.keySize, Except.mapError]

@[simp] theorem nonceSize_sessionAead : (L.sessionAead kind psk salt).nonceSize = 12 := by
  cases kind <;> rfl

@[simp] theorem tagSize_sessionAead : (L.sessionAead kind psk salt).tagSize = 16 := by
  cases kind <;> rfl

theorem Lawful.sessionAead (hL : L.Lawful) : (L.sessionAead kind psk salt).Lawful := by
  cases kind with
  | aes128Gcm => exact hL.aes128Gcm 12 _
  | aes256Gcm => exact hL.aes256Gcm 12 _
  | chaCha20Poly1305 => exact hL.chaCha20Poly1305 12 _

def clearBlock : BlockCipher where
  encrypt _ block := block
  decrypt _ block := block.takeD 16 0
  length_decrypt _ _ := List.takeD_length ..

def clear : Library where
  aes128Gcm := Backend.clear
  aes256Gcm := Backend.clear
  chaCha20Poly1305 := Backend.clear
  xChaCha20Poly1305 := Backend.clear
  deriveKey _ _ := List.replicate 32 0
  length_deriveKey _ _ := List.length_replicate
  hash psk := psk
  aes128 := clearBlock
  aes256 := clearBlock

theorem clear_lawful : clear.Lawful :=
  ⟨Backend.clear_lawful, Backend.clear_lawful, Backend.clear_lawful⟩

end Library

end XrayCore.Shadowsocks
