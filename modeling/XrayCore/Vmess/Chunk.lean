import XrayCore.Crypto.Aead
import XrayCore.Lib.Chunks
import XrayCore.Lib.Fallible

/-!
# VMess body chunks

A body is a sequence of chunks: a size field, sealed bytes and padding. The size is plain, masked
with a stream that both ends derive, or sealed itself. Encoder and decoder draw nonces, padding
lengths and masks from generators that must stay in step. The mask stream, the random padding and
the ciphers are parameters.
-/

namespace XrayCore.Vmess

open Lib Crypto List

inductive ErrorKind
  | invalidData
  | invalidInput
  | unexpectedEof
  deriving DecidableEq, Repr

structure IoError where
  kind : ErrorKind
  msg : String
  deriving DecidableEq, Repr

def stamp (count : UInt16) (buffer : Bytes) : Bytes :=
  if 2 ≤ buffer.length then be16 count ++ buffer.drop 2 else buffer

theorem length_stamp (count : UInt16) (buffer : Bytes) :
    (stamp count buffer).length = buffer.length := by
  unfold stamp
  split
  · rw [length_append, length_be16, length_drop]
    omega
  · rfl

theorem le_length_stamp (h : n ≤ buffer.length) (count : UInt16) :
    n ≤ (stamp count buffer).length :=
  h.trans (length_stamp ..).ge

structure ChunkNonceGenerator where
  buffer : Bytes
  nonceSize : Nat
  count : UInt16
  /-- The slice of a nonce is inside the buffer. -/
  nonceSize_le : nonceSize ≤ buffer.length

namespace ChunkNonceGenerator

def next (g : ChunkNonceGenerator) : Bytes × ChunkNonceGenerator :=
  ((stamp g.count g.buffer).take g.nonceSize,
    ⟨stamp g.count g.buffer, g.nonceSize, g.count + 1, le_length_stamp g.nonceSize_le g.count⟩)

@[simp] theorem length_next (g : ChunkNonceGenerator) : g.next.1.length = g.nonceSize := by
  rw [next, length_take, length_stamp]
  exact min_eq_left g.nonceSize_le

end ChunkNonceGenerator

structure ShakeSizeParser where
  reader : Nat → UInt8
  pos : Nat

namespace ShakeSizeParser

def nextMask (p : ShakeSizeParser) : UInt16 × ShakeSizeParser :=
  (ofBe16 (p.reader p.pos) (p.reader (p.pos + 1)), ⟨p.reader, p.pos + 2⟩)

def decode (p : ShakeSizeParser) (input : Bytes) : UInt16 × ShakeSizeParser :=
  (u16At input 0 ^^^ p.nextMask.1, p.nextMask.2)

def encode (p : ShakeSizeParser) (size : UInt16) : Bytes × ShakeSizeParser :=
  (be16 (p.nextMask.1 ^^^ size), p.nextMask.2)

def nextPaddingLen (p : ShakeSizeParser) : UInt16 × ShakeSizeParser :=
  (p.nextMask.1 % 64, p.nextMask.2)

end ShakeSizeParser

/-- `DynamicAEADAuthenticator` with chunk nonces and without additional data. -/
structure Authenticator where
  cipher : AeadCipher
  nonceGenerator : ChunkNonceGenerator

namespace Authenticator

def overhead (a : Authenticator) : Nat := a.cipher.tagSize

/-- The test of the nonce's length is the one that the cipher makes. -/
def openBytes (a : Authenticator) (ciphertext : Bytes) : Except CryptoError Bytes × Authenticator :=
  (a.cipher.openBytes a.nonceGenerator.next.1 [] ciphertext, ⟨a.cipher, a.nonceGenerator.next.2⟩)

def sealBytes (a : Authenticator) (plaintext : Bytes) : Except CryptoError Bytes × Authenticator :=
  (a.cipher.sealBytes a.nonceGenerator.next.1 [] plaintext, ⟨a.cipher, a.nonceGenerator.next.2⟩)

end Authenticator

structure AEADChunkSizeParser where
  auth : Authenticator

namespace AEADChunkSizeParser

def sizeBytes (p : AEADChunkSizeParser) : Nat := 2 + p.auth.overhead

def decode (p : AEADChunkSizeParser) (b : Bytes) :
    Except CryptoError UInt16 × AEADChunkSizeParser :=
  let (opened, auth) := p.auth.openBytes b
  (do
    let decrypted ← opened
    if decrypted.length < 2 then .error (.encryptionError "decrypted chunk size too short")
    else .ok (u16At decrypted 0 + UInt16.ofNat p.auth.overhead), ⟨auth⟩)

def encode (p : AEADChunkSizeParser) (size : UInt16) : Bytes × AEADChunkSizeParser :=
  let (sealedSize, auth) := p.auth.sealBytes (be16 (size - UInt16.ofNat p.auth.overhead))
  (match sealedSize with
    | .error _ => List.replicate p.sizeBytes 0
    | .ok wire => wire.take p.sizeBytes ++ List.replicate (p.sizeBytes - wire.length) 0, ⟨auth⟩)

end AEADChunkSizeParser

inductive SizeParser
  | plain
  | shake (inner : ShakeSizeParser)
  | aead (inner : AEADChunkSizeParser)

namespace SizeParser

def sizeBytes : SizeParser → Nat
  | .plain => 2
  | .shake _ => 2
  | .aead inner => inner.sizeBytes

def encode (size : UInt16) : SizeParser → Bytes × SizeParser
  | .plain => (be16 size, .plain)
  | .shake inner => ((inner.encode size).1, .shake (inner.encode size).2)
  | .aead inner => ((inner.encode size).1, .aead (inner.encode size).2)

def decode (input : Bytes) : SizeParser → UInt16 × SizeParser
  | .plain => (if 2 ≤ input.length then u16At input 0 else 0, .plain)
  | .shake inner =>
    if 2 ≤ input.length then ((inner.decode input).1, .shake (inner.decode input).2)
    else (0, .shake inner)
  | .aead inner => ((inner.decode input).1.toOption.getD 0, .aead (inner.decode input).2)

def nextPaddingLen : SizeParser → UInt16 × SizeParser
  | .plain => (0, .plain)
  | .shake inner => (inner.nextPaddingLen.1, .shake inner.nextPaddingLen.2)
  | .aead inner => (0, .aead inner)

def drawPadding (globalPadding : Bool) (p : SizeParser) : UInt16 × SizeParser :=
  if globalPadding then p.nextPaddingLen else (0, p)

def maxPaddingHint (_ : SizeParser) : Nat := 64

end SizeParser

def DEFAULT_PAYLOAD_SIZE : Nat := 8192

structure ChunkState where
  nonceGen : ChunkNonceGenerator
  sizeParser : SizeParser

def writeOneChunk (cipher : AeadCipher) (globalPadding : Bool) (fill : Nat → UInt8)
    (st : ChunkState) (data : Bytes) : Except IoError (Bytes × ChunkState) :=
  let (nonce, nonceGen) := st.nonceGen.next
  match cipher.sealBytes nonce [] data with
  | .error e => .error ⟨.invalidData, e.toString⟩
  | .ok sealedData =>
    let (paddingSize, parser) := st.sizeParser.drawPadding globalPadding
    let size := sealedData.length + paddingSize.toNat
    if 65535 < size then .error ⟨.invalidInput, "vmess chunk size exceeds u16"⟩
    else
      let (sizeField, parser) := parser.encode (UInt16.ofNat size)
      .ok (sizeField ++ (sealedData ++ (List.range paddingSize.toNat).map fill), ⟨nonceGen, parser⟩)

def singleChunkCapacity (cipher : AeadCipher) (parser : SizeParser) : Nat :=
  DEFAULT_PAYLOAD_SIZE - cipher.tagSize - parser.sizeBytes - parser.maxPaddingHint

def writeChunks (cipher : AeadCipher) (globalPadding : Bool) :
    (Nat → Nat → UInt8) → ChunkState → List Bytes → Except IoError (List Bytes)
  | _, _, [] => .ok []
  | fills, st, piece :: pieces => do
    let (chunk, st) ← writeOneChunk cipher globalPadding (fills 0) st piece
    let chunks ← writeChunks cipher globalPadding (fun i => fills (i + 1)) st pieces
    return chunk :: chunks

def closing (noTermination : Bool) : List Bytes := if noTermination then [] else [[]]

def pieces (capacity : Nat) (data : Bytes) (noTermination : Bool) : List Bytes :=
  chunks capacity data ++ closing noTermination

def encodeChunks (cipher : AeadCipher) (globalPadding noTermination : Bool)
    (fills : Nat → Nat → UInt8) (st : ChunkState) (data : Bytes) : Except IoError (List Bytes) :=
  let capacity := singleChunkCapacity cipher st.sizeParser
  if capacity = 0 then .error ⟨.invalidInput, "payload_chunk_size underflow"⟩
  else writeChunks cipher globalPadding fills st (pieces capacity data noTermination)

def encodeChunkStream (cipher : AeadCipher) (globalPadding noTermination : Bool)
    (fills : Nat → Nat → UInt8) (st : ChunkState) (data : Bytes) : Except IoError Bytes := do
  let chunks ← encodeChunks cipher globalPadding noTermination fills st data
  return chunks.flatten

def readSizeFieldOrEof (input : Bytes) (sizeBytes : Nat) :
    Except IoError (Option (Bytes × Bytes)) :=
  if input.length < sizeBytes then
    if input = [] then .ok none else .error ⟨.unexpectedEof, "early eof in chunk size field"⟩
  else .ok (some (input.take sizeBytes, input.drop sizeBytes))

/-- One round of `decode_chunk_stream`, and all of `decode_single_chunk_async`: the plaintext of a
chunk, the state and the input behind it, or the end of the stream. The two differ in the text of
the error when a chunk is cut short. -/
def decodeOneChunk (earlyEof : String) (cipher : AeadCipher) (globalPadding : Bool)
    (st : ChunkState) (input : Bytes) : Except IoError (Option (Bytes × ChunkState × Bytes)) :=
  let (paddingSize, parser) := st.sizeParser.drawPadding globalPadding
  match readSizeFieldOrEof input parser.sizeBytes with
  | .error e => .error e
  | .ok none => .ok none
  | .ok (some (sizeField, rest)) =>
    let (totalSize, parser) := parser.decode sizeField
    if totalSize = 0 then .ok none
    else if rest.length < totalSize.toNat then .error ⟨.unexpectedEof, earlyEof⟩
    else
      let ciphertext := (rest.take totalSize.toNat).take (totalSize.toNat - paddingSize.toNat)
      let (nonce, nonceGen) := st.nonceGen.next
      match cipher.openBytes nonce [] ciphertext with
      | .error e => .error ⟨.invalidData, e.toString⟩
      | .ok plaintext =>
        if plaintext = [] then .ok none
        else .ok (some (plaintext, ⟨nonceGen, parser⟩, rest.drop totalSize.toNat))

theorem readSizeFieldOrEof_eq_some
    (h : readSizeFieldOrEof input sizeBytes = .ok (some (sizeField, rest))) :
    sizeField = input.take sizeBytes ∧ rest = input.drop sizeBytes := by
  unfold readSizeFieldOrEof at h
  split_ifs at h
  · cases h
  · cases h
    exact ⟨rfl, rfl⟩

theorem toNat_pos_of_ne_zero {x : UInt16} (h : x ≠ 0) : 0 < x.toNat :=
  pos_of_ne_zero fun hz => h (UInt16.toNat_inj.mp hz)

theorem length_decodeOneChunk {eof : String} {cipher : AeadCipher} {pad : Bool}
    {st st' : ChunkState} {inp pt rest : Bytes} (h : decodeOneChunk eof cipher pad st inp =
      .ok (some (pt, st', rest))) : rest.length < inp.length := by
  unfold decodeOneChunk at h
  dsimp only at h
  split at h
  · cases h
  · cases h
  · next sf b hr =>
    obtain ⟨-, rfl⟩ := readSizeFieldOrEof_eq_some hr
    split at h
    · cases h
    next hz =>
    split at h
    · cases h
    next hs =>
    split at h
    · cases h
    split at h
    · cases h
    cases h
    -- a size that is not zero takes something off
    have hp := toNat_pos_of_ne_zero hz
    simp only [length_drop] at hs ⊢
    omega

def decodeLoop (cipher : AeadCipher) (globalPadding : Bool) (st : ChunkState)
    (input output : Bytes) : Except IoError Bytes :=
  match _h : decodeOneChunk "failed to fill whole buffer" cipher globalPadding st input with
  | .error e => .error e
  | .ok none => .ok output
  | .ok (some (plaintext, st, rest)) =>
    decodeLoop cipher globalPadding st rest (output ++ plaintext)
termination_by input.length
decreasing_by exact length_decodeOneChunk _h

section

variable {cipher : AeadCipher} {globalPadding : Bool} {st st' : ChunkState}
  {input rest plaintext : Bytes}

theorem decodeLoop_of_none
    (h : decodeOneChunk "failed to fill whole buffer" cipher globalPadding st input = .ok none)
    (output : Bytes) : decodeLoop cipher globalPadding st input output = .ok output := by
  rw [decodeLoop]
  split <;> simp_all

theorem decodeLoop_of_some
    (h : decodeOneChunk "failed to fill whole buffer" cipher globalPadding st input =
      .ok (some (plaintext, st', rest))) (out : Bytes) :
    decodeLoop cipher globalPadding st input out =
      decodeLoop cipher globalPadding st' rest (out ++ plaintext) := by
  rw [decodeLoop]
  split <;> simp_all

end

def decodeChunkStream (cipher : AeadCipher) (globalPadding : Bool) (st : ChunkState)
    (input : Bytes) : Except IoError Bytes :=
  decodeLoop cipher globalPadding st input []

def decodeSingleChunk (cipher : AeadCipher) (globalPadding : Bool) (st : ChunkState)
    (input : Bytes) : Except IoError (Option (Bytes × ChunkState × Bytes)) :=
  decodeOneChunk "early eof" cipher globalPadding st input

end XrayCore.Vmess
