import XrayCore.Vmess.ChunkRoundTrip

/-!
# Changed chunk streams

A sealed size that does not open is an error of the size parser, but the decoder's interface for
sizes has no errors: it gets a zero, and takes a zero for the end of the stream. So a stream that is
cut by a changed size field looks like one that has ended. The ciphers here open only what the
sender sealed.
-/

namespace XrayCore.Vmess

open Lib Crypto List ChunkState AEADChunkSizeParser

/-- All chunks up to the end of the stream or the error that stopped it, by calls of
`decode_single_chunk_async` or rounds of `decode_chunk_stream`. -/
def decodeAll (earlyEof : String) (cipher : AeadCipher) (globalPadding : Bool) (st : ChunkState)
    (input : Bytes) : List Bytes × Option IoError :=
  match _h : decodeOneChunk earlyEof cipher globalPadding st input with
  | .error e => ([], some e)
  | .ok none => ([], none)
  | .ok (some (plaintext, st, rest)) =>
    let q := decodeAll earlyEof cipher globalPadding st rest
    (plaintext :: q.1, q.2)
termination_by input.length
decreasing_by exact length_decodeOneChunk _h

section

variable {earlyEof : String} {cipher : AeadCipher} {globalPadding : Bool} {st st' : ChunkState}
  {input rest plaintext : Bytes} {e : IoError}

theorem decodeAll_of_error (h : decodeOneChunk earlyEof cipher globalPadding st input = .error e) :
    decodeAll earlyEof cipher globalPadding st input = ([], some e) := by
  rw [decodeAll]
  split <;> simp_all

theorem decodeAll_of_none (h : decodeOneChunk earlyEof cipher globalPadding st input = .ok none) :
    decodeAll earlyEof cipher globalPadding st input = ([], none) := by
  rw [decodeAll]
  split <;> simp_all

theorem decodeAll_of_some (h : decodeOneChunk earlyEof cipher globalPadding st input =
      .ok (some (pt, st', rest))) : decodeAll earlyEof cipher globalPadding st input =
      (pt :: (decodeAll earlyEof cipher globalPadding st' rest).1,
        (decodeAll earlyEof cipher globalPadding st' rest).2) := by
  rw [decodeAll]
  split <;> simp_all

theorem decodeChunkStream_eq : decodeChunkStream cipher globalPadding st inp =
      match decodeAll "failed to fill whole buffer" cipher globalPadding st inp with
      | (ms, none) => .ok ms.flatten
      | (_, some e) => .error e := by
  suffices h : ∀ o, decodeLoop cipher globalPadding st inp o =
      match decodeAll "failed to fill whole buffer" cipher globalPadding st inp with
      | (ms, none) => .ok (o ++ ms.flatten)
      | (_, some e) => .error e from h []
  intro o
  fun_induction decodeLoop cipher globalPadding st inp o with
  | case1 st inp o e h => rw [decodeAll_of_error h]
  | case2 st inp o h => simp [decodeAll_of_none h]
  | case3 st inp o p st' rest h ih =>
    rw [ih, decodeAll_of_some h]
    split <;> simp_all

end

/-- The cipher opens exactly what was sealed: a nonce and a plaintext of the log. -/
structure OnlySealed (c : AeadCipher) (log : List (Bytes × Bytes)) : Prop where
  tagSize : c.tagSize = 16
  length_encrypt : ∀ nonce plain, (c.encrypt nonce [] plain).length = plain.length + 16
  decrypt_iff : ∀ nonce wire plain, c.decrypt nonce [] wire = some plain ↔
    (nonce, plain) ∈ log ∧ wire = c.encrypt nonce [] plain

structure AuthState where
  nonceGen : ChunkNonceGenerator
  auth : Authenticator

namespace AuthState

def state (s : AuthState) : ChunkState := ⟨s.nonceGen, .aead ⟨s.auth⟩⟩

def next (s : AuthState) : AuthState :=
  ⟨s.nonceGen.next.2, ⟨s.auth.cipher, s.auth.nonceGenerator.next.2⟩⟩

def dataNonce (s : AuthState) : Bytes := s.nonceGen.next.1

def sizeNonce (s : AuthState) : Bytes := s.auth.nonceGenerator.next.1

def sizePlain (p : Bytes) : Bytes := be16 (UInt16.ofNat p.length)

def dataLog : AuthState → List Bytes → List (Bytes × Bytes)
  | _, [] => []
  | s, p :: ps => (s.dataNonce, p) :: dataLog s.next ps

def sizeLog : AuthState → List Bytes → List (Bytes × Bytes)
  | _, [] => []
  | s, p :: ps => (s.sizeNonce, sizePlain p) :: sizeLog s.next ps

variable {s : AuthState} {cipher : AeadCipher} {globalPadding : Bool} {p : Bytes} {ps : List Bytes}
  {dlog slog : List (Bytes × Bytes)}

theorem drawPadding_state (pad : Bool) :
    s.state.sizeParser.drawPadding pad = (0, s.state.sizeParser) := by
  cases pad <;> rfl

theorem after_state : s.state.after globalPadding p = s.next.state := by
  cases globalPadding <;> rfl

theorem afterAll_state (s : AuthState) (ps : List Bytes) :
    s.state.afterAll globalPadding ps = (next^[ps.length] s).state := by
  induction ps generalizing s with
  | nil => rfl
  | cons p ps ih =>
    rw [afterAll, foldl_cons, after_state]
    exact ih s.next

structure Sized (cipher : AeadCipher) (s : AuthState) : Prop where
  data : s.nonceGen.nonceSize = cipher.nonceSize
  size : s.auth.nonceGenerator.nonceSize = s.auth.cipher.nonceSize

theorem Sized.next (h : s.Sized cipher) : s.next.Sized cipher := ⟨h.data, h.size⟩

theorem OnlySealed.seals (h : OnlySealed c log)
    (hl : nonce.length = c.nonceSize) (hm : (nonce, plain) ∈ log) : Seals c nonce plain :=
  ⟨hl, h.tagSize, h.length_encrypt .., (h.decrypt_iff ..).mpr ⟨hm, rfl⟩⟩

theorem OnlySealed.openBytes_eq_ok_iff (h : OnlySealed c log) (hl : nonce.length = c.nonceSize) :
    c.openBytes nonce [] wire = .ok plain ↔
      (nonce, plain) ∈ log ∧ wire = c.encrypt nonce [] plain := by
  rw [AeadCipher.openBytes_eq_ok_iff, h.decrypt_iff]
  exact and_iff_right hl

theorem Sized.length_dataNonce (h : s.Sized cipher) : s.dataNonce.length = cipher.nonceSize := by
  rw [dataNonce, ChunkNonceGenerator.length_next, h.data]

theorem Sized.length_sizeNonce (h : s.Sized cipher) :
    s.sizeNonce.length = s.auth.cipher.nonceSize := by
  rw [sizeNonce, ChunkNonceGenerator.length_next, h.size]

theorem size_state : s.state.size globalPadding p = p.length + 16 := by
  rw [size, padding, drawPadding_state]
  rfl

theorem sizePlain_eq : be16 (UInt16.ofNat (s.state.size globalPadding p) - 16) = sizePlain p := by
  rw [size_state, UInt16.ofNat_add, sizePlain]
  congr 1
  exact UInt16.add_sub_cancel _ _

theorem allReady (hd : OnlySealed cipher dlog) (hs : OnlySealed s.auth.cipher slog)
    (hsized : s.Sized cipher) (hdl : ∀ x ∈ s.dataLog ps, x ∈ dlog)
    (hsl : ∀ x ∈ s.sizeLog ps, x ∈ slog) (hps : ∀ p ∈ ps, p.length ≤ 8192) :
    AllReady cipher globalPadding s.state ps := by
  induction ps generalizing s with
  | nil => trivial
  | cons p ps ih =>
    have hp := hps p mem_cons_self
    have hfits : (s.state.sizeParser.drawPadding globalPadding).2.Fits
        (UInt16.ofNat (s.state.size globalPadding p)) := by
      rw [drawPadding_state]
      change Seals s.auth.cipher s.sizeNonce
        (be16 (UInt16.ofNat (s.state.size globalPadding p) - 16))
      rw [sizePlain_eq]
      exact OnlySealed.seals hs hsized.length_sizeNonce (hsl _ mem_cons_self)
    refine ⟨⟨OnlySealed.seals hd hsized.length_dataNonce (hdl _ mem_cons_self), hfits,
      by omega⟩, ?_⟩
    rw [after_state]
    exact ih hs hsized.next (forall_mem_cons.mp hdl).2
      (forall_mem_cons.mp hsl).2
      (forall_mem_cons.mp hps).2

structure HasSize (s : AuthState) (slog : List (Bytes × Bytes)) (input : Bytes) (n : UInt16) :
    Prop where
  le_length : 18 ≤ input.length
  mem : (s.sizeNonce, be16 n) ∈ slog
  eq : input.take 18 = s.auth.cipher.encrypt s.sizeNonce [] (be16 n)

structure HasData (s : AuthState) (cipher : AeadCipher) (dlog : List (Bytes × Bytes))
    (input : Bytes) (n : UInt16) : Prop where
  le_length : n.toNat + 16 ≤ (input.drop 18).length
  sealed : ∃ p, (s.dataNonce, p) ∈ dlog ∧
    (input.drop 18).take (n.toNat + 16) = cipher.encrypt s.dataNonce [] p

/-- The input ends inside the size, or the size is sealed but not followed by sealed data. -/
def Refused (s : AuthState) (cipher : AeadCipher) (dlog slog : List (Bytes × Bytes))
    (input : Bytes) : Prop :=
  input.length < 18 ∨ ∃ n, s.HasSize slog input n ∧ ¬s.HasData cipher dlog input n

theorem openBytes_data_iff (hd : OnlySealed cipher dlog) (hsized : s.Sized cipher)
    (hle : n.toNat + 16 ≤ (input.drop 18).length) :
    (∃ p, cipher.openBytes s.dataNonce [] ((input.drop 18).take (n.toNat + 16)) = .ok p) ↔
      s.HasData cipher dlog input n := by
  simp only [OnlySealed.openBytes_eq_ok_iff hd hsized.length_dataNonce]
  exact ⟨fun h => ⟨hle, h⟩, fun h => h.sealed⟩

section Refused

variable (hd : OnlySealed cipher dlog) (hs : OnlySealed s.auth.cipher slog)
  (hsized : s.Sized cipher) {input : Bytes} {n : UInt16}

include hs hsized

theorem decode_of_hasSize (h : s.HasSize slog input n) :
    (s.state.sizeParser.decode (input.take 18)).1 = n + 16 := by
  have ho : s.auth.cipher.openBytes s.sizeNonce [] (input.take 18) = .ok (be16 n) :=
    (OnlySealed.openBytes_eq_ok_iff hs hsized.length_sizeNonce).mpr ⟨h.mem, h.eq⟩
  have ht : s.auth.overhead = 16 := hs.tagSize
  have hsize : u16At (be16 n) 0 = n := ofBe16_be16 n
  have hd : (decode ⟨s.auth⟩ (input.take 18)).1 = .ok (n + 16) := by
    simp only [decode, Authenticator.openBytes]
    rw [← sizeNonce, ho, ok_bind, length_be16, if_neg (by decide), hsize, ht]
    rfl
  rw [state, SizeParser.decode, hd]
  rfl

theorem decode_of_not_hasSize (hl : 18 ≤ input.length) (h : ∀ n, ¬s.HasSize slog input n) :
    (s.state.sizeParser.decode (input.take 18)).1 = 0 := by
  have ho : ∀ plain, s.auth.cipher.openBytes s.sizeNonce [] (input.take 18) ≠ .ok plain := by
    intro plain hok
    obtain ⟨hm, heq⟩ := (OnlySealed.openBytes_eq_ok_iff hs hsized.length_sizeNonce).mp hok
    have hp : plain.length = 2 := by
      have := congrArg length heq
      rw [hs.length_encrypt, length_take, min_eq_left hl] at this
      omega
    have hbe : be16 (u16At plain 0) = plain := by
      rw [be16_u16At hp.ge, drop_zero, ← hp, take_length]
    exact h (u16At plain 0) ⟨hl, hbe.symm ▸ hm, hbe.symm ▸ heq⟩
  have hd : ∃ e, (decode ⟨s.auth⟩ (input.take 18)).1 = .error e := by
    simp only [decode, Authenticator.openBytes]
    rw [← sizeNonce]
    cases hr : s.auth.cipher.openBytes s.sizeNonce [] (input.take 18) with
    | error e => exact ⟨e, rfl⟩
    | ok plain => exact absurd hr (ho plain)
  obtain ⟨e, he⟩ := hd
  rw [state, SizeParser.decode, he]
  rfl

theorem HasSize.unique (h : s.HasSize slog input n) (h' : s.HasSize slog input n') : n = n' := by
  have hn := decode_of_hasSize hs hsized h
  rw [decode_of_hasSize hs hsized h'] at hn
  exact (UInt16.add_left_inj 16).mp hn.symm

include hd

theorem decodeOneChunk_error_iff_of_hasSize (hn : s.HasSize slog input n)
    (hsm : n.toNat ≤ 8192) (eof : String) :
    (∃ e, decodeOneChunk eof cipher globalPadding s.state input = .error e) ↔
      ¬s.HasData cipher dlog input n := by
  have hf : s.state.sizeParser.sizeBytes = 18 := congrArg (2 + ·) hs.tagSize
  have ht : (n + 16).toNat = n.toNat + 16 := by
    exact Nat.mod_eq_of_lt (by change n.toNat + 16 < 65536; omega)
  have hp : n + 16 ≠ 0 := by
    intro hz
    rw [hz] at ht
    exact absurd ht.symm (by simp)
  unfold decodeOneChunk readSizeFieldOrEof
  rw [drawPadding_state]
  dsimp only
  rw [hf, if_neg (not_lt.mpr hn.le_length)]
  dsimp only
  rw [decode_of_hasSize hs hsized hn, if_neg hp, ht]
  by_cases hsh : (input.drop 18).length < n.toNat + 16
  · rw [if_pos hsh]
    exact ⟨fun _ hdata => absurd hdata.le_length (not_le.mpr hsh), fun _ => ⟨_, rfl⟩⟩
  rw [if_neg hsh, ← openBytes_data_iff hd hsized (not_lt.mp hsh)]
  have hz : n.toNat + 16 - UInt16.toNat 0 = n.toNat + 16 := rfl
  have hno : s.state.nonceGen.next.1 = s.dataNonce := rfl
  rw [hz, hno, take_take, min_self]
  cases cipher.openBytes s.dataNonce [] ((input.drop 18).take (n.toNat + 16)) with
  | error e => simp
  | ok p =>
    dsimp only
    split <;> simp

omit hd in
theorem decodeOneChunk_of_not_hasSize (hl : 18 ≤ input.length)
    (hsize : ∀ n, ¬s.HasSize slog input n) (eof : String) :
    decodeOneChunk eof cipher globalPadding s.state input = .ok none := by
  have hf : s.state.sizeParser.sizeBytes = 18 := congrArg (2 + ·) hs.tagSize
  unfold decodeOneChunk readSizeFieldOrEof
  rw [drawPadding_state]
  dsimp only
  rw [hf, if_neg (not_lt.mpr hl)]
  dsimp only
  rw [decode_of_not_hasSize hs hsized hl hsize, if_pos rfl]

omit hd hsized in
theorem decodeOneChunk_error_of_short (hne : input ≠ []) (hl : input.length < 18) (eof : String) :
    ∃ e, decodeOneChunk eof cipher globalPadding s.state input = .error e := by
  have hf : s.state.sizeParser.sizeBytes = 18 := congrArg (2 + ·) hs.tagSize
  unfold decodeOneChunk readSizeFieldOrEof
  rw [drawPadding_state]
  dsimp only
  rw [hf, if_pos hl, if_neg hne]
  exact ⟨_, rfl⟩

theorem decodeOneChunk_error_iff (hsm : ∀ nonce n, (nonce, be16 n) ∈ slog → n.toNat ≤ 8192)
    (hne : input ≠ []) (eof : String) :
    (∃ e, decodeOneChunk eof cipher globalPadding s.state input = .error e) ↔
      s.Refused cipher dlog slog input := by
  rw [Refused]
  by_cases hl : input.length < 18
  · exact iff_of_true (decodeOneChunk_error_of_short hs hne hl eof) (.inl hl)
  rw [or_iff_right hl]
  by_cases hsize : ∃ n, s.HasSize slog input n
  · obtain ⟨n, hn⟩ := hsize
    rw [decodeOneChunk_error_iff_of_hasSize hd hs hsized hn (hsm _ _ hn.mem)]
    constructor
    · exact fun hdata => ⟨n, hn, hdata⟩
    · rintro ⟨n', hn', hdata⟩
      rwa [hn.unique hs hsized hn']
  · rw [decodeOneChunk_of_not_hasSize hs hsized (not_lt.mp hl) (not_exists.mp hsize)]
    constructor
    · rintro ⟨e, he⟩
      cases he
    · rintro ⟨n, hn, -⟩
      exact absurd ⟨n, hn⟩ hsize

end Refused

end AuthState

def common : List Bytes → Bytes → Nat
  | [], _ => 0
  | f :: fs, received => if f <+: received then common fs (received.drop f.length) + 1 else 0

def different (fs : List Bytes) (received : Bytes) : Bytes :=
  received.drop (fs.take (common fs received)).flatten.length

theorem flatten_take_common (fs : List Bytes) (received : Bytes) :
    (fs.take (common fs received)).flatten <+: received := by
  induction fs generalizing received with
  | nil => exact nil_prefix
  | cons f fs ih =>
    unfold common
    split
    · next hf =>
      obtain ⟨rest, rfl⟩ := hf
      rw [drop_left, take_succ_cons, flatten_cons]
      exact (prefix_append_right_inj f).mpr (ih rest)
    · exact nil_prefix

theorem common_le_length (fs : List Bytes) (received : Bytes) : common fs received ≤ fs.length := by
  induction fs generalizing received with
  | nil => exact le_refl 0
  | cons f fs ih =>
    unfold common
    split
    · exact Nat.succ_le_succ (ih _)
    · exact Nat.zero_le _

theorem eq_append_different (fs : List Bytes) (received : Bytes) :
    received = (fs.take (common fs received)).flatten ++ different fs received :=
  prefix_iff_eq_append.mp (flatten_take_common fs received) |>.symm

namespace ChunkState

variable {cipher : AeadCipher} {globalPadding : Bool} {st : ChunkState} {ps : List Bytes}

theorem take_chunkList (fills : Nat → Nat → UInt8) (st : ChunkState) (ps : List Bytes) (k : Nat) :
    (chunkList cipher globalPadding fills st ps).take k =
      chunkList cipher globalPadding fills st (ps.take k) := by
  induction ps generalizing st fills k with
  | nil => rw [take_nil, chunkList, take_nil]
  | cons p ps ih =>
    cases k with
    | zero => rfl
    | succ k =>
      rw [chunkList, take_succ_cons, ih, take_succ_cons]
      rfl

theorem length_chunkList (fills : Nat → Nat → UInt8) (st : ChunkState) (ps : List Bytes) :
    (chunkList cipher globalPadding fills st ps).length = ps.length := by
  induction ps generalizing st fills with
  | nil => rfl
  | cons p ps ih => rw [chunkList, length_cons, ih, length_cons]

section

variable (h : AllReady cipher globalPadding st ps)

include h

theorem AllReady.take (k : Nat) : AllReady cipher globalPadding st (ps.take k) := by
  rw [← take_append_drop k ps, allReady_append] at h
  exact h.1

theorem decodeAll_append (hne : [] ∉ ps) (eof : String) (fills : Nat → Nat → UInt8) (rest : Bytes) :
    decodeAll eof cipher globalPadding st
        ((chunkList cipher globalPadding fills st ps).flatten ++ rest) =
      (ps ++ (decodeAll eof cipher globalPadding (st.afterAll globalPadding ps) rest).1,
        (decodeAll eof cipher globalPadding (st.afterAll globalPadding ps) rest).2) := by
  induction ps generalizing st fills with
  | nil => rfl
  | cons p ps ih =>
    obtain ⟨hp, hps⟩ := h
    rw [mem_cons, not_or] at hne
    have hd := hp.decodeOneChunk eof (fills 0)
      ((chunkList cipher globalPadding (fun i => fills (i + 1)) (st.after globalPadding p)
        ps).flatten ++ rest)
    rw [if_neg (Ne.symm hne.1)] at hd
    rw [chunkList, flatten_cons, append_assoc, decodeAll_of_some hd, ih hps hne.2]
    rfl

theorem decodeAll_snd_of_mem (hm : [] ∈ ps)
    (eof : String) (fills : Nat → Nat → UInt8) (rest : Bytes) :
    (decodeAll eof cipher globalPadding st
      ((chunkList cipher globalPadding fills st ps).flatten ++ rest)).2 = none := by
  induction ps generalizing st fills with
  | nil => cases hm
  | cons p ps ih =>
    obtain ⟨hp, hps⟩ := h
    have hd := hp.decodeOneChunk eof (fills 0)
      ((chunkList cipher globalPadding (fun i => fills (i + 1)) (st.after globalPadding p)
        ps).flatten ++ rest)
    rw [chunkList, flatten_cons, append_assoc]
    by_cases hn : p = []
    · rw [if_pos hn] at hd
      rw [decodeAll_of_none hd]
    · rw [if_neg hn] at hd
      rw [decodeAll_of_some hd]
      exact ih hps ((mem_cons.mp hm).resolve_left (Ne.symm hn)) _

end

end ChunkState

theorem decodeAll_eq_error_iff : decodeAll earlyEof cipher globalPadding st input = ([], some e) ↔
      decodeOneChunk earlyEof cipher globalPadding st input = .error e := by
  cases h : decodeOneChunk earlyEof cipher globalPadding st input with
  | error e' => simp [decodeAll_of_error h]
  | ok r =>
    cases r with
    | none => simp [decodeAll_of_none h]
    | some r => simp [decodeAll_of_some h]

namespace AuthState

variable {s : AuthState} {cipher : AeadCipher} {globalPadding noTermination : Bool}
  {ps : List Bytes}

theorem cipher_iterate_next (s : AuthState) (k : Nat) :
    (next^[k] s).auth.cipher = s.auth.cipher := by
  induction k generalizing s with
  | zero => rfl
  | succ k ih => exact ih s.next

theorem sized_iterate_next (h : s.Sized cipher) (k : Nat) : (next^[k] s).Sized cipher := by
  induction k generalizing s with
  | zero => exact h
  | succ k ih => exact ih h.next

theorem exists_of_mem_sizeLog (h : x ∈ s.sizeLog ps) : ∃ p ∈ ps, x.2 = sizePlain p := by
  induction ps generalizing s with
  | nil => cases h
  | cons p ps ih =>
    obtain rfl | h := mem_cons.mp h
    · exact ⟨p, mem_cons_self, rfl⟩
    · obtain ⟨q, hq, hx⟩ := ih h
      exact ⟨q, mem_cons_of_mem _ hq, hx⟩

variable (cipher) (globalPadding) in
/-- The decoder delivers the chunks before the first difference and then reports an error,
whether it reads the stream or single chunks. -/
def Detects (s : AuthState) (genuine : List Bytes) (received : Bytes) : Prop :=
  (∃ e, decodeAll "failed to fill whole buffer" cipher globalPadding s.state received =
      (genuine, some e) ∧ decodeChunkStream cipher globalPadding s.state received = .error e) ∧
    ∃ e, decodeAll "early eof" cipher globalPadding s.state received = (genuine, some e)

theorem reports_iff (hd : OnlySealed cipher (s.dataLog ps))
    (hs : OnlySealed s.auth.cipher (s.sizeLog ps)) (hsized : s.Sized cipher)
    (hps : ∀ p ∈ ps, p.length ≤ 8192) (fills : Nat → Nat → UInt8) (k : Nat)
    (hne : rest ≠ []) (eof : String) : (∃ e, decodeAll eof cipher globalPadding s.state
        ((chunkList cipher globalPadding fills s.state (ps.take k)).flatten ++ rest) =
          (ps.take k, some e)) ↔ [] ∉ ps.take k ∧
        (next^[(ps.take k).length] s).Refused cipher (s.dataLog ps) (s.sizeLog ps) rest := by
  have hr : AllReady cipher globalPadding s.state (ps.take k) :=
    (allReady hd hs hsized (fun _ => id) (fun _ => id) hps).take k
  have hsm : ∀ no n, (no, be16 n) ∈ s.sizeLog ps → n.toNat ≤ 8192 := by
    intro no n hm
    obtain ⟨p, hp, heq⟩ := exists_of_mem_sizeLog hm
    have hb : ∀ x : UInt16, u16At (be16 x) 0 = x := ofBe16_be16
    have hn : n = UInt16.ofNat p.length := by
      have hn := congrArg (u16At · 0) heq
      rwa [sizePlain, hb, hb] at hn
    have hp := hps p hp
    rw [hn, UInt16.toNat_ofNat']
    omega
  by_cases hm : [] ∈ ps.take k
  · refine ⟨?_, fun h => absurd hm h.1⟩
    rintro ⟨e, he⟩
    have hno := decodeAll_snd_of_mem hr hm eof fills rest
    rw [he] at hno
    cases hno
  · have hs' : OnlySealed (next^[(ps.take k).length] s).auth.cipher (s.sizeLog ps) := by
      rwa [cipher_iterate_next]
    have hre : (∃ e, decodeOneChunk eof cipher globalPadding
        (next^[(ps.take k).length] s).state rest = .error e) ↔ _ :=
      decodeOneChunk_error_iff hd hs' (sized_iterate_next hsized _) hsm hne eof
    rw [decodeAll_append hr hm, afterAll_state, and_iff_right hm, ← hre]
    simp [← decodeAll_eq_error_iff, Prod.ext_iff]

/-- A received stream that is not the genuine one up to the end of a chunk is reported at the first
difference exactly if the chunk that ends the stream does not come before it, and there the input
ends inside the size, or a size sealed for this chunk is not followed by data sealed for it. -/
theorem detects_iff {data received : Bytes} {fills : Nat → Nat → UInt8} {genuine : List Bytes}
    (hps : ps = pieces (singleChunkCapacity cipher s.state.sizeParser) data noTermination)
    (hd : OnlySealed cipher (s.dataLog ps)) (hs : OnlySealed s.auth.cipher (s.sizeLog ps))
    (hsized : s.Sized cipher)
    (hgenuine : encodeChunks cipher globalPadding noTermination fills s.state data = .ok genuine)
    (hdiff : ∀ k, received ≠ (genuine.take k).flatten) :
    s.Detects cipher globalPadding (ps.take (common genuine received)) received ↔
      [] ∉ ps.take (common genuine received) ∧
        (next^[common genuine received] s).Refused cipher (s.dataLog ps) (s.sizeLog ps)
          (different genuine received) := by
  have hlength : ∀ p ∈ ps, p.length ≤ 8192 := by
    intro p hp
    have hcapacity : singleChunkCapacity cipher s.state.sizeParser ≤ 8192 :=
      (Nat.sub_le ..).trans ((Nat.sub_le ..).trans (Nat.sub_le ..))
    exact (length_le_of_mem_pieces (hps ▸ hp)).trans hcapacity
  have hready : AllReady cipher globalPadding s.state ps :=
    allReady hd hs hsized (fun _ => id) (fun _ => id) hlength
  obtain rfl : genuine = chunkList cipher globalPadding fills s.state ps := by
    rw [encodeChunks] at hgenuine
    split at hgenuine
    · cases hgenuine
    · rw [← hps, writeChunks_eq hready] at hgenuine
      exact (Except.ok.inj hgenuine).symm
  generalize hk : common (chunkList cipher globalPadding fills s.state ps) received = k
  have hlen : (ps.take k).length = k := by
    rw [length_take, ← hk, min_eq_left]
    exact (common_le_length ..).trans (length_chunkList ..).le
  have hreceived := eq_append_different (chunkList cipher globalPadding fills s.state ps) received
  rw [hk, take_chunkList] at hreceived
  generalize different (chunkList cipher globalPadding fills s.state ps) received =
    rest at hreceived
  have hne : rest ≠ [] := by
    rintro rfl
    refine hdiff k ?_
    rw [take_chunkList, hreceived, append_nil]
  have hreports : ∀ earlyEof, (∃ e, decodeAll earlyEof cipher globalPadding s.state received =
      (ps.take k, some e)) ↔
        [] ∉ ps.take k ∧ (next^[k] s).Refused cipher (s.dataLog ps) (s.sizeLog ps) rest := by
    intro earlyEof
    rw [hreceived, reports_iff hd hs hsized hlength fills k hne, hlen]
  rw [Detects, hreports]
  refine ⟨And.right, fun h => ⟨?_, h⟩⟩
  obtain ⟨e, he⟩ := (hreports "failed to fill whole buffer").mpr h
  exact ⟨e, he, by rw [decodeChunkStream_eq, he]⟩

end AuthState

def loggedCipher (log : List (Bytes × Bytes)) : AeadCipher where
  nonceSize := 12
  tagSize := 16
  encrypt _ _ plain := plain ++ zeroTag
  decrypt nonce _ wire :=
    if wire.drop (wire.length - 16) = zeroTag ∧ (nonce, wire.take (wire.length - 16)) ∈ log then
      some (wire.take (wire.length - 16))
    else none

theorem loggedCipher_onlySealed (log : List (Bytes × Bytes)) :
    OnlySealed (loggedCipher log) log := by
  refine ⟨rfl, fun _ p => by simp [loggedCipher, zeroTag], fun n wire p => ?_⟩
  constructor
  · intro h
    obtain ⟨⟨ht, hm⟩, hp⟩ := Option.ite_none_right_eq_some.mp h
    obtain rfl := Option.some.inj hp
    refine ⟨hm, ?_⟩
    change wire = _ ++ zeroTag
    rw [← ht, take_append_drop]
  · rintro ⟨hm, rfl⟩
    simp [loggedCipher, zeroTag, hm]

namespace AuthState

def zeros (ps : List Bytes) : AuthState :=
  ⟨zeroNonces, ⟨loggedCipher (sizeLog ⟨zeroNonces, ⟨clearCipher, zeroNonces⟩⟩ ps), zeroNonces⟩⟩

def sent : List Bytes := [[1, 2, 3], []]

def sentCipher : AeadCipher := loggedCipher ((zeros sent).dataLog sent)

def sentChunks : List Bytes :=
  [[0, 3] ++ zeroTag ++ [1, 2, 3] ++ zeroTag, [0, 0] ++ zeroTag ++ zeroTag]

theorem sent_eq :
    sent = pieces (singleChunkCapacity sentCipher (zeros sent).state.sizeParser) [1, 2, 3]
      false := by
  decide +kernel

theorem encodeChunks_sent :
    encodeChunks sentCipher false false (fun _ _ => 0) (zeros sent).state [1, 2, 3] =
      .ok sentChunks := by
  decide +kernel

theorem ne_take_sentChunks
    (h : received ∉ [[], (sentChunks.take 1).flatten, sentChunks.flatten]) (k : Nat) :
    received ≠ (sentChunks.take k).flatten := by
  rintro rfl
  match k with
  | 0 | 1 => simp at h
  | k + 2 =>
    have ht : sentChunks.take (k + 2) = sentChunks := take_of_length_le (Nat.le_add_left 2 k)
    simp [ht] at h

/-- The first byte of the size is changed. Nothing is delivered and no error reported. -/
theorem changed_size_ends_stream : OnlySealed sentCipher ((zeros sent).dataLog sent) ∧
      OnlySealed (zeros sent).auth.cipher ((zeros sent).sizeLog sent) ∧
      encodeChunks sentCipher false false (fun _ _ => 0) (zeros sent).state [1, 2, 3] =
        .ok sentChunks ∧ (∀ k, sentChunks.flatten.set 0 1 ≠ (sentChunks.take k).flatten) ∧
      decodeChunkStream sentCipher false (zeros sent).state (sentChunks.flatten.set 0 1) = .ok [] ∧
      decodeSingleChunk sentCipher false (zeros sent).state (sentChunks.flatten.set 0 1) =
        .ok none :=
  ⟨loggedCipher_onlySealed _, loggedCipher_onlySealed _, encodeChunks_sent,
    ne_take_sentChunks (by decide), by decide +kernel, rfl⟩

/-- The first byte behind the size is changed. -/
theorem detects_changed_body :
    (zeros sent).Detects sentCipher false [] (sentChunks.flatten.set 18 0) := by
  have hd : OnlySealed sentCipher ((zeros sent).dataLog sent) := loggedCipher_onlySealed _
  have hs : OnlySealed (zeros sent).auth.cipher ((zeros sent).sizeLog sent) :=
    loggedCipher_onlySealed _
  refine (detects_iff sent_eq hd hs ⟨rfl, rfl⟩ encodeChunks_sent
    (ne_take_sentChunks (by decide))).mpr
      ⟨by decide, .inr ⟨3, ⟨by decide, by decide, by decide⟩, ?_⟩⟩
  rintro ⟨-, p, hmem, heq⟩
  have hlog : ∀ x ∈ (zeros sent).dataLog sent,
      ((sentChunks.flatten.set 18 0).drop 18).take 19 ≠ x.2 ++ zeroTag := by decide
  exact hlog _ hmem heq

end AuthState

end XrayCore.Vmess
