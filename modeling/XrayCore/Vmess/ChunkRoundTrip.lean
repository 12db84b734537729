import XrayCore.Vmess.Chunk

/-!
# Chunk streams are read back

The decoder that starts from the state of the encoder reads each chunk back and is then in
the encoder's state again: it draws the padding and the mask in the same order, and the
nonce, which comes first in the encoder and last in the decoder, from a generator of its
own.
-/

namespace XrayCore.Vmess

open Lib Crypto List

/-- What the cipher seals under this nonce has a tag of 16 bytes and opens again. -/
structure Seals (c : AeadCipher) (nonce plain : Bytes) : Prop where
  length_nonce : nonce.length = c.nonceSize
  tagSize : c.tagSize = 16
  length_encrypt : (c.encrypt nonce [] plain).length = plain.length + 16
  decrypt_encrypt : c.decrypt nonce [] (c.encrypt nonce [] plain) = some plain

namespace Seals

variable {c : AeadCipher} {nonce plain : Bytes}

theorem sealBytes_eq (h : Seals c nonce plain) :
    c.sealBytes nonce [] plain = .ok (c.encrypt nonce [] plain) :=
  AeadCipher.sealBytes_ok h.length_nonce

theorem openBytes_eq (h : Seals c nonce plain) :
    c.openBytes nonce [] (c.encrypt nonce [] plain) = .ok plain :=
  AeadCipher.openBytes_eq_ok_iff.mpr ⟨h.length_nonce, h.decrypt_encrypt⟩

end Seals

namespace SizeParser

variable {p : SizeParser} {size : UInt16}

def Fits (size : UInt16) : SizeParser → Prop
  | .plain => True
  | .shake _ => True
  | .aead inner =>
    Seals inner.auth.cipher inner.auth.nonceGenerator.next.1 (be16 (size - 16))

theorem encode_aead (h : (aead par).Fits size) : (par.encode size).1 =
      par.auth.cipher.encrypt par.auth.nonceGenerator.next.1 [] (be16 (size - 16)) := by
  have ht : par.auth.overhead = 16 := h.tagSize
  have hl := h.length_encrypt
  rw [length_be16] at hl
  simp only [AEADChunkSizeParser.encode, AEADChunkSizeParser.sizeBytes, Authenticator.sealBytes, ht]
  rw [show UInt16.ofNat 16 = 16 from rfl, h.sealBytes_eq]
  dsimp only
  rw [take_of_length_le (by omega), show 2 + 16 - _ = 0 by omega, replicate_zero, append_nil]

theorem length_encode (h : p.Fits size) : (p.encode size).1.length = p.sizeBytes := by
  cases p with
  | plain | shake i => rfl
  | aead i =>
    have hl := h.length_encrypt
    have ht : i.auth.overhead = 16 := h.tagSize
    rw [encode, encode_aead h, hl, length_be16, sizeBytes, AEADChunkSizeParser.sizeBytes, ht]

theorem decode_encode (h : p.Fits size) :
    p.decode (p.encode size).1 = (size, (p.encode size).2) := by
  cases p with
  | plain =>
    have hsize : u16At (be16 size) 0 = size := ofBe16_be16 size
    simp [encode, decode, hsize]
  | shake i =>
    have hsize : u16At (be16 (i.nextMask.1 ^^^ size)) 0 = i.nextMask.1 ^^^ size := ofBe16_be16 _
    simp only [encode, decode, ShakeSizeParser.encode, ShakeSizeParser.decode, length_be16, le_refl,
      if_true, hsize]
    rw [UInt16.xor_comm, ← UInt16.xor_assoc, UInt16.xor_self, UInt16.zero_xor]
  | aead i =>
    have ht : i.auth.overhead = 16 := h.tagSize
    have hsize : u16At (be16 (size - 16)) 0 = size - 16 := ofBe16_be16 _
    have hd : (i.decode (i.encode size).1).1 = .ok size := by
      rw [encode_aead h]
      simp only [AEADChunkSizeParser.decode, Authenticator.openBytes, h.openBytes_eq, ok_bind,
        length_be16, lt_irrefl, if_false, hsize, ht]
      rw [show UInt16.ofNat 16 = 16 from rfl, UInt16.sub_add_cancel]
    rw [encode, decode, hd]
    rfl

theorem sizeBytes_encode (p : SizeParser) (size : UInt16) :
    (p.encode size).2.sizeBytes = p.sizeBytes := by
  cases p <;> rfl

theorem sizeBytes_drawPadding (p : SizeParser) (pad : Bool) :
    (p.drawPadding pad).2.sizeBytes = p.sizeBytes := by
  cases pad <;> cases p <;> rfl

theorem sizeBytes_pos (p : SizeParser) : 0 < p.sizeBytes := by
  cases p with
  | plain | shake i => exact two_pos
  | aead i => exact lt_of_lt_of_le two_pos (Nat.le_add_right ..)

theorem drawPadding_lt (p : SizeParser) (pad : Bool) : (p.drawPadding pad).1.toNat < 64 := by
  cases pad with
  | false => exact (by decide : (0 : UInt16).toNat < 64)
  | true =>
    cases p with
    | plain => exact (by decide : (0 : UInt16).toNat < 64)
    | shake i =>
      change (i.nextMask.1 % 64).toNat < 64
      exact Nat.mod_lt _ (by decide)
    | aead i => exact (by decide : (0 : UInt16).toNat < 64)

end SizeParser

namespace ChunkState

section

variable (cipher : AeadCipher) (globalPadding : Bool) (fill : Nat → UInt8) (st : ChunkState)
  (data : Bytes)

def padding : Nat := (st.sizeParser.drawPadding globalPadding).1.toNat

def size : Nat := data.length + 16 + st.padding globalPadding

def body : Bytes :=
  cipher.encrypt st.nonceGen.next.1 [] data ++ (List.range (st.padding globalPadding)).map fill

def sizeField : Bytes :=
  ((st.sizeParser.drawPadding globalPadding).2.encode (UInt16.ofNat (st.size globalPadding data))).1

def chunk : Bytes := st.sizeField globalPadding data ++ st.body cipher globalPadding fill data

def after : ChunkState where
  nonceGen := st.nonceGen.next.2
  sizeParser :=
    ((st.sizeParser.drawPadding globalPadding).2.encode
      (UInt16.ofNat (st.size globalPadding data))).2

structure Ready : Prop where
  seals : Seals cipher st.nonceGen.next.1 data
  fits : (st.sizeParser.drawPadding globalPadding).2.Fits
    (UInt16.ofNat (st.size globalPadding data))
  length_le : data.length + 80 ≤ 65535

end

variable {cipher : AeadCipher} {globalPadding : Bool} {st : ChunkState} {data : Bytes}

theorem size_lt : st.size globalPadding data < data.length + 80 := by
  have := st.sizeParser.drawPadding_lt globalPadding
  unfold size padding
  omega

section

variable (h : st.Ready cipher globalPadding data)

include h

theorem Ready.size_le : st.size globalPadding data ≤ 65535 := by
  have := h.length_le
  have : st.size globalPadding data < data.length + 80 := size_lt
  omega

theorem Ready.length_body (fill : Nat → UInt8) :
    (st.body cipher globalPadding fill data).length = st.size globalPadding data := by
  rw [body, length_append, h.seals.length_encrypt, length_map, length_range, size]

theorem Ready.length_sizeField :
    (st.sizeField globalPadding data).length = st.sizeParser.sizeBytes := by
  rw [sizeField, SizeParser.length_encode h.fits, SizeParser.sizeBytes_drawPadding]

theorem Ready.writeOneChunk (fill : Nat → UInt8) : writeOneChunk cipher globalPadding fill st data =
      .ok (st.chunk cipher globalPadding fill data, st.after globalPadding data) := by
  unfold Vmess.writeOneChunk
  dsimp only
  rw [h.seals.sealBytes_eq]
  dsimp only
  rw [h.seals.length_encrypt]
  exact if_neg (not_lt.mpr h.size_le)

theorem Ready.decodeOneChunk (eof : String)
    (fill : Nat → UInt8) (rest : Bytes) : decodeOneChunk eof cipher globalPadding st
        (st.chunk cipher globalPadding fill data ++ rest) =
      .ok (if data = [] then none else some (data, st.after globalPadding data, rest)) := by
  have hsize : (UInt16.ofNat (st.size globalPadding data)).toNat = st.size globalPadding data := by
    rw [UInt16.toNat_ofNat']
    have := h.size_le
    omega
  have hne : UInt16.ofNat (st.size globalPadding data) ≠ 0 := by
    intro hz
    rw [hz] at hsize
    unfold size at hsize
    exact absurd hsize.symm (by simp)
  have hr : readSizeFieldOrEof (st.chunk cipher globalPadding fill data ++ rest)
      (st.sizeParser.drawPadding globalPadding).2.sizeBytes =
      .ok (some (st.sizeField globalPadding data,
        st.body cipher globalPadding fill data ++ rest)) := by
    rw [readSizeFieldOrEof, chunk, append_assoc, SizeParser.sizeBytes_drawPadding,
      if_neg (by rw [length_append, h.length_sizeField]; omega),
      take_left' h.length_sizeField, drop_left' h.length_sizeField]
  have hc : ((st.body cipher globalPadding fill data ++ rest).take
      (st.size globalPadding data)).take (st.size globalPadding data - st.padding globalPadding) =
      cipher.encrypt st.nonceGen.next.1 [] data := by
    have hl : (cipher.encrypt st.nonceGen.next.1 [] data).length =
        st.size globalPadding data - st.padding globalPadding := by
      rw [h.seals.length_encrypt, size, Nat.add_sub_cancel]
    rw [take_left' (h.length_body fill), body, take_left' hl]
  unfold Vmess.decodeOneChunk
  dsimp only
  rw [hr]
  dsimp only
  rw [sizeField, SizeParser.decode_encode h.fits]
  dsimp only
  rw [if_neg hne, hsize, if_neg (by rw [length_append, h.length_body]; omega)]
  rw [← padding, hc, h.seals.openBytes_eq, drop_left' (h.length_body fill)]
  dsimp only
  split <;> rfl

end

end ChunkState

namespace ChunkState

section

variable (cipher : AeadCipher) (globalPadding : Bool)

def afterAll (st : ChunkState) (ps : List Bytes) : ChunkState :=
  ps.foldl (fun st p => st.after globalPadding p) st

def AllReady : ChunkState → List Bytes → Prop
  | _, [] => True
  | st, p :: ps => st.Ready cipher globalPadding p ∧ AllReady (st.after globalPadding p) ps

def chunkList : (Nat → Nat → UInt8) → ChunkState → List Bytes → List Bytes
  | _, _, [] => []
  | fills, st, p :: ps =>
    st.chunk cipher globalPadding (fills 0) p ::
      chunkList (fun i => fills (i + 1)) (st.after globalPadding p) ps

end

variable {cipher : AeadCipher} {globalPadding : Bool} {st : ChunkState} {ps : List Bytes}

theorem writeChunks_eq (h : AllReady cipher globalPadding st ps) (fills : Nat → Nat → UInt8) :
    writeChunks cipher globalPadding fills st ps =
      .ok (chunkList cipher globalPadding fills st ps) := by
  induction ps generalizing st fills with
  | nil => rfl
  | cons p ps ih =>
    obtain ⟨hp, hps⟩ := h
    rw [writeChunks, hp.writeOneChunk, ok_bind]
    dsimp only
    rw [ih hps, ok_bind]
    rfl

theorem sizeBytes_after (data : Bytes) :
    (st.after globalPadding data).sizeParser.sizeBytes = st.sizeParser.sizeBytes := by
  rw [after, SizeParser.sizeBytes_encode, SizeParser.sizeBytes_drawPadding]

theorem length_of_mem_chunkList (h : AllReady cipher globalPadding st ps)
    (hc : c ∈ chunkList cipher globalPadding fills st ps) :
    ∃ p ∈ ps, ∃ size < p.length + 80, c.length = st.sizeParser.sizeBytes + size := by
  induction ps generalizing st fills with
  | nil => cases hc
  | cons p ps ih =>
    obtain ⟨hp, hps⟩ := h
    obtain rfl | hc := mem_cons.mp hc
    · refine ⟨p, mem_cons_self, st.size globalPadding p, size_lt, ?_⟩
      rw [chunk, length_append, hp.length_sizeField, hp.length_body]
    · obtain ⟨q, hq, size, hsize, hl⟩ := ih hps hc
      rw [sizeBytes_after] at hl
      exact ⟨q, mem_cons_of_mem _ hq, size, hsize, hl⟩

theorem chunkList_append (fills : Nat → Nat → UInt8) (st : ChunkState) (ps qs : List Bytes) :
    ∃ fills', chunkList cipher globalPadding fills st (ps ++ qs) =
      chunkList cipher globalPadding fills st ps ++
        chunkList cipher globalPadding fills' (st.afterAll globalPadding ps) qs := by
  induction ps generalizing st fills with
  | nil => exact ⟨fills, rfl⟩
  | cons p ps ih =>
    obtain ⟨fills', h⟩ := ih (fun i => fills (i + 1)) (st.after globalPadding p)
    refine ⟨fills', ?_⟩
    rw [cons_append, chunkList, h]
    rfl

theorem allReady_append : AllReady cipher globalPadding st (ps ++ qs) ↔
      AllReady cipher globalPadding st ps ∧
        AllReady cipher globalPadding (st.afterAll globalPadding ps) qs := by
  induction ps generalizing st with
  | nil => exact ⟨fun h => ⟨trivial, h⟩, And.right⟩
  | cons p ps ih =>
    rw [cons_append, AllReady, ih, AllReady, and_assoc]
    rfl

theorem decodeLoop_append (h : AllReady cipher globalPadding st ps) (hne : ∀ p ∈ ps, p ≠ [])
    (fills : Nat → Nat → UInt8) (rest out : Bytes) : decodeLoop cipher globalPadding st
        ((chunkList cipher globalPadding fills st ps).flatten ++ rest) out =
      decodeLoop cipher globalPadding (st.afterAll globalPadding ps) rest (out ++ ps.flatten) := by
  induction ps generalizing st fills out with
  | nil => rw [flatten_nil, append_nil]; rfl
  | cons p ps ih =>
    obtain ⟨hp, hps⟩ := h
    have hd := hp.decodeOneChunk "failed to fill whole buffer" (fills 0)
      ((chunkList cipher globalPadding (fun i => fills (i + 1)) (st.after globalPadding p)
        ps).flatten ++ rest)
    rw [if_neg (hne p mem_cons_self)] at hd
    rw [chunkList, flatten_cons, append_assoc, decodeLoop_of_some hd,
      ih hps (forall_mem_cons.mp hne).2, flatten_cons, append_assoc]
    rfl

theorem decodeOneChunk_nil (eof : String) :
    decodeOneChunk eof cipher globalPadding st [] = .ok none := by
  have hp : ([] : Bytes).length < st.sizeParser.sizeBytes := st.sizeParser.sizeBytes_pos
  have hr : readSizeFieldOrEof [] (st.sizeParser.drawPadding globalPadding).2.sizeBytes =
      .ok none := by
    rw [SizeParser.sizeBytes_drawPadding, readSizeFieldOrEof, if_pos hp, if_pos rfl]
  unfold decodeOneChunk
  dsimp only
  rw [hr]

end ChunkState

/-- A cipher with a tag of 16 bytes that opens what it seals, and nonces of its size. -/
structure LawfulWith (c : AeadCipher) (g : ChunkNonceGenerator) : Prop where
  lawful : c.Lawful
  tagSize : c.tagSize = 16
  nonceSize : g.nonceSize = c.nonceSize

namespace LawfulWith

variable {c : AeadCipher} {g : ChunkNonceGenerator}

theorem seals (h : LawfulWith c g) (plain : Bytes) : Seals c g.next.1 plain where
  length_nonce := by rw [ChunkNonceGenerator.length_next, h.nonceSize]
  tagSize := h.tagSize
  length_encrypt := by rw [h.lawful.length_encrypt, h.tagSize]
  decrypt_encrypt := h.lawful.decrypt_encrypt ..

theorem next (h : LawfulWith c g) : LawfulWith c g.next.2 := ⟨h.lawful, h.tagSize, h.nonceSize⟩

end LawfulWith

namespace SizeParser

def Lawful : SizeParser → Prop
  | .plain => True
  | .shake _ => True
  | .aead inner => LawfulWith inner.auth.cipher inner.auth.nonceGenerator

variable {p : SizeParser}

theorem Lawful.fits (h : p.Lawful) (size : UInt16) : p.Fits size := by
  cases p with
  | plain | shake i => trivial
  | aead i => exact h.seals _

theorem Lawful.encode (h : p.Lawful) (size : UInt16) : (p.encode size).2.Lawful := by
  cases p with
  | plain | shake i => trivial
  | aead i => exact h.next

theorem Lawful.drawPadding (h : p.Lawful) (pad : Bool) : (p.drawPadding pad).2.Lawful := by
  cases pad with
  | false => exact h
  | true =>
    cases p with
    | plain | shake i => trivial
    | aead i => exact h

theorem Lawful.sizeBytes_le (h : p.Lawful) : p.sizeBytes ≤ 18 := by
  cases p with
  | plain | shake i => exact (by decide : 2 ≤ 18)
  | aead i => exact (congrArg (2 + ·) h.tagSize).le

end SizeParser

namespace ChunkState

structure Lawful (cipher : AeadCipher) (st : ChunkState) : Prop where
  cipher : LawfulWith cipher st.nonceGen
  sizeParser : st.sizeParser.Lawful

variable {cipher : AeadCipher} {globalPadding : Bool} {st : ChunkState} {ps : List Bytes}

theorem Lawful.after (h : st.Lawful cipher) (data : Bytes) :
    (st.after globalPadding data).Lawful cipher :=
  ⟨h.cipher.next, (h.sizeParser.drawPadding globalPadding).encode _⟩

theorem Lawful.allReady (h : st.Lawful cipher) (hps : ∀ p ∈ ps, p.length ≤ 8192) :
    AllReady cipher globalPadding st ps := by
  induction ps generalizing st with
  | nil => trivial
  | cons p ps ih =>
    have hp := hps p mem_cons_self
    exact ⟨⟨h.cipher.seals p, (h.sizeParser.drawPadding globalPadding).fits _, by omega⟩,
      ih (h.after p) (forall_mem_cons.mp hps).2⟩

theorem decodeOneChunk_closing
    (h : AllReady cipher globalPadding st (closing noTermination)) (eof : String)
    (fills : Nat → Nat → UInt8) : decodeOneChunk eof cipher globalPadding st
      (chunkList cipher globalPadding fills st (closing noTermination)).flatten = .ok none := by
  cases noTermination with
  | true => exact decodeOneChunk_nil eof
  | false =>
    obtain ⟨hr, -⟩ := h
    have hd := hr.decodeOneChunk eof (fills 0) []
    exact hd

theorem decodeLoop_closing
    (h : AllReady cipher globalPadding st (ps ++ closing noTermination)) (hne : ∀ p ∈ ps, p ≠ [])
    (fills : Nat → Nat → UInt8) : decodeLoop cipher globalPadding st
        (chunkList cipher globalPadding fills st (ps ++ closing noTermination)).flatten [] =
      .ok ps.flatten := by
  obtain ⟨hps, hc⟩ := allReady_append.mp h
  obtain ⟨f', ha⟩ := chunkList_append fills st ps (closing noTermination)
  rw [ha, flatten_append, decodeLoop_append hps hne, nil_append]
  exact decodeLoop_of_none (decodeOneChunk_closing hc _ f') _

end ChunkState

theorem length_le_of_mem_pieces
    (h : p ∈ pieces capacity data noTermination) : p.length ≤ capacity := by
  obtain h | h := mem_append.mp h
  · exact (mem_chunks h).2
  cases noTermination with
  | true => cases h
  | false =>
    obtain rfl := mem_singleton.mp h
    exact Nat.zero_le _

/-- A decoder that starts from the encoder's state reads back what was encoded. Each size
fits into 16 bits, and a chunk is at most 8192 bytes behind its size field. -/
theorem decode_encode_stream {cipher : AeadCipher} {st : ChunkState} (h : st.Lawful cipher)
    (globalPadding noTermination : Bool) (fills : Nat → Nat → UInt8) (data : Bytes) :
    ∃ chunks, encodeChunks cipher globalPadding noTermination fills st data = .ok chunks ∧
      encodeChunkStream cipher globalPadding noTermination fills st data = .ok chunks.flatten ∧
      decodeChunkStream cipher globalPadding st chunks.flatten = .ok data ∧
      ∀ c ∈ chunks, ∃ size : Nat, size < 2 ^ 16 ∧ size ≤ 8192 ∧
        c.length = st.sizeParser.sizeBytes + size := by
  have hcapacity : singleChunkCapacity cipher st.sizeParser =
      8192 - 16 - st.sizeParser.sizeBytes - 64 := by
    rw [singleChunkCapacity, h.cipher.tagSize]
    rfl
  have hfield := h.sizeParser.sizeBytes_le
  have hpos : 0 < singleChunkCapacity cipher st.sizeParser := by omega
  have hpieces : ∀ p ∈ pieces (singleChunkCapacity cipher st.sizeParser) data noTermination,
      p.length + 80 ≤ 8192 := by
    intro p hp
    have := length_le_of_mem_pieces hp
    omega
  have hready : ChunkState.AllReady cipher globalPadding st
      (pieces (singleChunkCapacity cipher st.sizeParser) data noTermination) :=
    h.allReady fun p hp => (Nat.le_add_right ..).trans (hpieces p hp)
  have hchunks : encodeChunks cipher globalPadding noTermination fills st data =
      .ok (ChunkState.chunkList cipher globalPadding fills st
        (pieces (singleChunkCapacity cipher st.sizeParser) data noTermination)) := by
    rw [encodeChunks, if_neg hpos.ne', ChunkState.writeChunks_eq hready]
  refine ⟨_, hchunks, ?_, ?_, fun c hc => ?_⟩
  · rw [encodeChunkStream, hchunks]
    rfl
  · rw [decodeChunkStream, pieces,
      ChunkState.decodeLoop_closing hready fun p hp => (mem_chunks hp).1, flatten_chunks hpos]
  · obtain ⟨p, hp, size, hsize, hlen⟩ := ChunkState.length_of_mem_chunkList hready hc
    have := hpieces p hp
    exact ⟨size, by omega, by omega, hlen⟩

def zeroNonces : ChunkNonceGenerator := ⟨List.replicate 16 0, 12, 0, by decide⟩

def clearCipher : AeadCipher := Backend.clear.cipher 12 []

theorem clearCipher_lawfulWith : LawfulWith clearCipher zeroNonces :=
  ⟨Backend.clear_lawful 12 [], rfl, rfl⟩

/-- With sealed sizes, padding asked for and a closing chunk. -/
theorem decode_encode_stream_sealed_sizes : ∃ chunks,
      encodeChunks clearCipher true false (fun _ _ => 0)
        ⟨zeroNonces, .aead ⟨clearCipher, zeroNonces⟩⟩ [1, 2, 3] = .ok chunks ∧
      decodeChunkStream clearCipher true ⟨zeroNonces, .aead ⟨clearCipher, zeroNonces⟩⟩
        chunks.flatten = .ok [1, 2, 3] := by
  have hlawful : ChunkState.Lawful clearCipher ⟨zeroNonces, .aead ⟨clearCipher, zeroNonces⟩⟩ :=
    ⟨clearCipher_lawfulWith, clearCipher_lawfulWith⟩
  obtain ⟨chunks, hencode, -, hdecode, -⟩ :=
    decode_encode_stream hlawful true false (fun _ _ => 0) [1, 2, 3]
  exact ⟨chunks, hencode, hdecode⟩

end XrayCore.Vmess
