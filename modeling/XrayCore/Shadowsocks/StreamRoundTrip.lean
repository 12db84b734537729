import XrayCore.Shadowsocks.Inbound
import XrayCore.Shadowsocks.ResponseReader
import XrayCore.Shadowsocks.StreamWrites

/-!
# A Shadowsocks 2022 connection

A client dials a target and makes calls on its stream; the server reads the request, reads
the body to its end, and makes calls on its own stream; the client's pump is fed the
response in pieces. Each end gets what the other one wrote, and each end counts its nonces
from 0.
-/

namespace XrayCore.Shadowsocks

open Lib Crypto Net List SSStream Library Inbound

structure SessionCipher (aead : AeadCipher) : Prop where
  lawful : aead.Lawful
  nonceSize : aead.nonceSize = 12
  tagSize : aead.tagSize = 16

theorem Library.Lawful.sessionCipher {L : Library} (hL : L.Lawful) (kind : CipherKind2022)
    (psk salt : Bytes) : SessionCipher (L.sessionAead kind psk salt) :=
  ⟨hL.sessionAead, nonceSize_sessionAead, tagSize_sessionAead⟩

namespace SessionCipher

variable {aead : AeadCipher}

theorem openWire_sealedAt (h : SessionCipher aead) (k : Nat) (plain : Bytes) :
    openWire aead (leBytes 12 k) (sealedAt aead k plain) = .ok plain := by
  rw [openWire, mapError_eq_ok, sealedAt]
  exact h.lawful.openBytes_encrypt (by rw [length_leBytes, h.nonceSize])

theorem length_sealedAt (h : SessionCipher aead) (k : Nat) (plain : Bytes) :
    (sealedAt aead k plain).length = plain.length + 16 := by
  rw [sealedAt, h.lawful.length_encrypt, h.tagSize]

end SessionCipher

theorem u16At_be16_ofNat (h : n ≤ 65535) : (u16At (be16 (UInt16.ofNat n)) 0).toNat = n := by
  have hb : u16At (be16 (UInt16.ofNat n)) 0 = UInt16.ofNat n := ofBe16_be16 _
  rw [hb, UInt16.toNat_ofNat']
  omega

theorem checkTimestamp_eq_ok_iff : checkTimestamp timestamp tolerance now = .ok () ↔
      absDiff now timestamp ≤ tolerance := by
  unfold checkTimestamp absDiff
  split_ifs <;> simp <;> omega

namespace Dial

variable {L : Library} {d : Dial} {padding : Nat} {first : Bytes}

theorem length_fixedHeader (n : Nat) : (d.fixedHeader n).length = fixedPlainLen := by
  simp [fixedHeader, fixedPlainLen]

theorem u64At_fixedHeader (n : Nat) : u64At (d.fixedHeader n) 1 = d.draw.now := by
  have hp : ([0] : Bytes).length ≤ 1 := le_rfl
  rw [fixedHeader, ← singleton_append, u64At_append hp, length_singleton, Nat.sub_self, u64At_be64]

theorem u16At_fixedHeader (h : n ≤ 65535) : (u16At (d.fixedHeader n) 9).toNat = n := by
  exact u16At_be16_ofNat h

theorem length_variableHeader : (d.variableHeader padding first).length =
      (asBytes d.target).length + 4 + 2 + padding + first.length := by
  simp [variableHeader, length_encodeDomainPort]
  omega

theorem u16At_variableHeader (h : padding ≤ 900) :
    (u16At (d.variableHeader padding first) ((asBytes d.target).length + 4)).toNat = padding := by
  have hl := length_encodeDomainPort d.target d.port
  rw [variableHeader, u16At_append hl.le, hl, Nat.sub_self, u16At_be16, UInt16.toNat_ofNat']
  omega

theorem drop_variableHeader :
    (d.variableHeader padding first).drop ((asBytes d.target).length + 4 + 2 + padding) =
      first := by
  have hp : (encodeDomainPort d.target d.port ++ (be16 (UInt16.ofNat padding) ++
      replicate padding 0)).length = (asBytes d.target).length + 4 + 2 + padding := by
    simp [length_encodeDomainPort]
    omega
  rw [variableHeader, ← append_assoc (be16 _), ← append_assoc, drop_left' hp]

def headers (L : Library) (d : Dial) (padding : Nat) (first rest : Bytes) : Headers :=
  ⟨d.aead L, leBytes 12 2, d.fixedHeader (d.variableHeader padding first).length,
    d.variableHeader padding first, .domain d.target, d.port, first, rest⟩

variable {now : UInt64} (ha : SessionCipher (d.aead L)) (hp : padding ≤ 900)
  (hv : (d.variableHeader padding first).length ≤ 65535) (ht : absDiff now d.draw.now ≤ 30)

include ha hp hv ht

theorem readHeaders_eq (rest : Bytes) : readHeaders (d.aead L) 30 now
        (sealedAt (d.aead L) 0 (d.fixedHeader (d.variableHeader padding first).length))
        (sealedAt (d.aead L) 1 (d.variableHeader padding first) ++ rest) =
      .ok (d.headers L padding first rest) := by
  have hz : replicate 12 0 = leBytes 12 0 := (leBytes_zero 12).symm
  have htype : byteAt (d.fixedHeader (d.variableHeader padding first).length) 0 = 0 := rfl
  have had : parseVariableHeader (d.variableHeader padding first) =
      .ok (.domain d.target, d.port, (asBytes d.target).length + 4) :=
    readAddressPortSs_encodeDomainPort d.port _ d.length_target
  have hl : (d.variableHeader padding first).length =
      (asBytes d.target).length + 4 + 2 + padding + first.length := length_variableHeader
  unfold readHeaders
  rw [ha.nonceSize, ha.tagSize, hz]
  dsimp only
  rw [ha.openWire_sealedAt, ok_bind, length_fixedHeader, if_neg (by decide),
    if_neg (not_not_intro htype), u64At_fixedHeader, checkTimestamp_eq_ok_iff.mpr ht, ok_bind,
    u16At_fixedHeader hv, readExact_append (ha.length_sealedAt ..), ok_bind]
  dsimp only
  rw [increment_leBytes, ha.openWire_sealedAt, ok_bind, had, ok_bind]
  dsimp only
  rw [u16At_variableHeader hp, if_neg (by omega), if_neg (by omega), drop_variableHeader,
    increment_leBytes]
  rfl

theorem readSingle_eq (email : String) (rest : Bytes) :
    readSingle L d.psk d.kind email now (d.head L padding first ++ rest) =
      .ok ⟨d.salt, d.psk, email, d.headers L padding first rest⟩ := by
  have hs : d.salt.length = d.kind.saltSize := d.draw.length_randomSalt d.kind
  have hf : (sealedAt (d.aead L) 0
      (d.fixedHeader (d.variableHeader padding first).length)).length = fixedPlainLen + 16 := by
    rw [ha.length_sealedAt, length_fixedHeader]
  have hb : L.buildAead d.kind (L.deriveSessionSubkey d.psk d.salt d.kind) = .ok (d.aead L) :=
    buildAead_deriveSessionSubkey
  rw [readSingle, head, append_assoc, append_assoc, readExact_append hs, ok_bind]
  dsimp only
  rw [hb, ok_bind, ha.tagSize, readExact_append hf, ok_bind]
  dsimp only [timestampTolerance]
  rw [readHeaders_eq ha hp hv ht, ok_bind]
  rfl

theorem handleConn_eq (hf : (replay.check filterNow d.salt).1 = true) (email : String) (rest : Bytes) :
    ((single d.psk d.kind email).handleConn L replay (d.head L padding first ++ rest) now
        filterNow).1 = .ok ⟨.domain d.target, d.port,
        (d.headers L padding first rest).stream d.psk d.kind d.salt, email⟩ := by
  rw [handleConn, readRequest, readSingle_eq ha hp hv ht]
  dsimp only
  rw [hf]
  rfl

end Dial

namespace SSStream

variable {s s' : SSStream} {m : Bytes}

theorem length_readChunkBody (h : s.readChunkBody = .ok (some m, s')) :
    s'.input.length < s.input.length ∧ s'.plainPrefix = s.plainPrefix := by
  unfold readChunkBody at h
  dsimp only at h
  split at h
  · cases h
  · next hle =>
    obtain ⟨⟨size, s1⟩, ho, h⟩ := bind_ok.mp h
    obtain ⟨-, rfl⟩ := openPart_ok ho
    split_ifs at h
    · cases h
    obtain ⟨⟨wire, rest⟩, hr, h⟩ := bind_ok.mp h
    obtain ⟨-, rfl⟩ := readExact_ok hr
    obtain ⟨⟨p, s2⟩, ho', h⟩ := bind_ok.mp h
    obtain ⟨-, rfl⟩ := openPart_ok ho'
    cases h
    simp
    omega

theorem length_readChunk (h : s.readChunk = .ok (some m, s')) :
    s'.input.length + s'.plainPrefix.length < s.input.length + s.plainPrefix.length := by
  unfold readChunk at h
  split at h
  · cases h
  split at h
  · next hu =>
    cases h
    have := length_pos_of_ne_nil hu
    simp
    omega
  split at h
  · obtain ⟨hlt, hu⟩ := length_readChunkBody h
    rw [hu]
    omega
  obtain ⟨s1, hr, h⟩ := bind_ok.mp h
  obtain ⟨hlt, hu⟩ := length_readChunkBody h
  obtain ⟨⟨iv, rest⟩, hre, hr⟩ := bind_ok.mp hr
  obtain ⟨-, rfl⟩ := readExact_ok hre
  obtain ⟨hu1, -, -, hi⟩ := rekeyRead_ok hr
  rw [hu, hu1]
  rw [hi, length_drop] at hlt
  dsimp only at hlt ⊢
  omega

def readChunks (s : SSStream) : Except SsError (List Bytes) :=
  match _h : s.readChunk with
  | .error e => .error e
  | .ok (none, _) => .ok []
  | .ok (some m, s') => do
    let ms ← s'.readChunks
    return m :: ms
termination_by s.input.length + s.plainPrefix.length
decreasing_by exact length_readChunk _h

theorem readChunks_of_none (h : s.readChunk = .ok (none, s')) : s.readChunks = .ok [] := by
  rw [readChunks]
  split <;> simp_all

theorem readChunks_of_some (h : s.readChunk = .ok (some m, s')) :
    s.readChunks = s'.readChunks >>= fun ms => .ok (m :: ms) := by
  rw [readChunks]
  split <;> simp_all
  rfl

structure AtBody (s : SSStream) (aead : AeadCipher) (last : Nat) (cs : List Bytes) : Prop where
  responseRekey2022 : s.responseRekey2022 = none
  responseRekey : s.responseRekey = none
  readAead : s.readAead = aead
  readNonce : s.readNonce = leBytes 12 last
  tagSize : s.tagSize = 16
  plainPrefix : s.plainPrefix = []
  input : s.input = bodyWire aead (last + 1) cs

variable {aead : AeadCipher} {last : Nat} {c : Bytes} {cs : List Bytes}

theorem openPart_sealedAt (ha : SessionCipher aead) (hr : s.readAead = aead)
    (hn : s.readNonce = leBytes 12 last) (plain : Bytes) :
    s.openPart (sealedAt aead (last + 1) plain) =
      .ok (plain, { s with readNonce := leBytes 12 (last + 1) }) := by
  rw [openPart, hr, hn, increment_leBytes, ha.openWire_sealedAt, ok_bind]
  rfl

theorem AtBody.readChunk_nil (h : s.AtBody aead last []) :
    s.readChunk = .ok (none, { s with input := [] }) := by
  simp [readChunk, readChunkBody, h.responseRekey2022, h.plainPrefix, h.responseRekey, h.input,
    bodyWire]

theorem AtBody.readChunk_cons (ha : SessionCipher aead) (h : s.AtBody aead last (c :: cs))
    (hne : c ≠ []) (hl : c.length ≤ 65535) :
    ∃ s', s.readChunk = .ok (some c, s') ∧ s'.AtBody aead (last + 2) cs := by
  have hs : (sealedAt aead (last + 1) (be16 (UInt16.ofNat c.length))).length = 2 + 16 := by
    rw [ha.length_sealedAt, length_be16]
  have hp : (sealedAt aead (last + 1 + 1) c).length = c.length + 16 := ha.length_sealedAt ..
  have hpo : c.length ≠ 0 := fun h => hne (eq_nil_of_length_eq_zero h)
  refine ⟨{ s with input := bodyWire aead (last + 3) cs, readNonce := leBytes 12 (last + 2) }, ?_,
    ⟨h.responseRekey2022, h.responseRekey, h.readAead, rfl, h.tagSize, h.plainPrefix, rfl⟩⟩
  cases s
  obtain ⟨hst, hr, hre, hn, ht, hu, hi⟩ := h
  dsimp only at hst hr hre hn ht hu hi
  subst hst hr hre hn ht hu hi
  rw [readChunk, if_neg (by simp), if_neg (by simp)]
  rw [readChunkBody]
  dsimp only
  rw [if_neg (by rw [bodyWire, length_append, hs]; omega), bodyWire,
    take_left' hs, drop_left' hs, openPart_sealedAt ha rfl rfl, ok_bind]
  dsimp only
  rw [length_be16, if_neg (by decide), u16At_be16_ofNat hl, if_neg hpo,
    readExact_append hp, ok_bind]
  dsimp only
  rw [openPart_sealedAt ha rfl rfl, ok_bind]
  rfl

theorem AtBody.readChunks (ha : SessionCipher aead) (h : s.AtBody aead last cs)
    (hcs : ∀ c ∈ cs, c ≠ [] ∧ c.length ≤ partSize) : s.readChunks = .ok cs := by
  induction cs generalizing s last with
  | nil => exact readChunks_of_none h.readChunk_nil
  | cons c cs ih =>
    obtain ⟨hne, hle⟩ := hcs c mem_cons_self
    obtain ⟨s', hr, h'⟩ := h.readChunk_cons ha hne (hle.trans (by decide))
    rw [readChunks_of_some hr, ih h' (forall_mem_cons.mp hcs).2]
    rfl

end SSStream

theorem Dial.readChunks_headers {L : Library} {d : Dial} (ha : SessionCipher (d.aead L))
    {pad : Nat} {first : Bytes} {cs : List Bytes} (hcs : ∀ c ∈ cs, c ≠ [] ∧ c.length ≤ partSize) :
    ∃ ms, ((d.headers L pad first (bodyWire (d.aead L) 2 cs)).stream d.psk d.kind
        d.salt).readChunks = .ok ms ∧ ms.flatten = first ++ cs.flatten := by
  let s := (d.headers L pad first (bodyWire (d.aead L) 2 cs)).stream d.psk d.kind d.salt
  have hn : (leBytes 12 2).set 0 1 = leBytes 12 1 := by decide
  have hb : { s with plainPrefix := [] }.AtBody (d.aead L) 1 cs :=
    ⟨rfl, rfl, rfl, hn, ha.tagSize, rfl, rfl⟩
  by_cases hni : first = []
  · subst hni
    exact ⟨cs, hb.readChunks ha hcs, rfl⟩
  have hs : ¬s.responseRekey2022.isSome := Bool.false_ne_true
  have hu : s.plainPrefix ≠ [] := hni
  have hr : s.readChunk = .ok (some first, { s with plainPrefix := [] }) := by
    rw [readChunk, if_neg hs, if_pos hu]
    rfl
  refine ⟨first :: cs, ?_, rfl⟩
  rw [readChunks_of_some hr, hb.readChunks ha hcs]
  rfl

namespace ResponseKey

variable {L : Library} {k : ResponseKey} {aead : AeadCipher}

variable {cs : List Bytes}

theorem emits_bodyWire (ha : SessionCipher aead) (hcs : ∀ c ∈ cs, c ≠ [] ∧ c.length ≤ partSize)
    (hw : bytes w = bodyWire aead (last + 1) cs) :
    (k.reader L).Emits (.size aead (leBytes 12 last)) w cs
      (.size aead (leBytes 12 (last + 2 * cs.length))) := by
  induction cs generalizing last w with
  | nil =>
    obtain rfl : w = [] := map_eq_nil_iff.mp hw
    exact .nil _
  | cons c cs ih =>
    obtain ⟨hne, hle⟩ := hcs c mem_cons_self
    obtain ⟨w1, w', rfl, hsize, hw'⟩ := map_eq_append_iff.mp hw
    obtain ⟨w2, w3, rfl, hp, hrest⟩ := map_eq_append_iff.mp hw'
    have hs : last + 2 * (c :: cs).length = last + 2 + 2 * cs.length := by
      simp
      omega
    have hpo : c.length ≠ 0 := fun h => hne (eq_nil_of_length_eq_zero h)
    have hss : k.step L (.size aead (leBytes 12 last)) w1 =
        .next (.payload aead (leBytes 12 (last + 1)) c.length) := by
      rw [step, increment_leBytes, bytes, hsize, ha.openWire_sealedAt]
      dsimp only
      rw [sizeStep, length_be16, if_neg (by decide), u16At_be16_ofNat (hle.trans (by decide)),
        if_neg hpo]
    have hps : k.step L (.payload aead (leBytes 12 (last + 1)) c.length) w2 =
        .emit c (.size aead (leBytes 12 (last + 2))) := by
      rw [step, increment_leBytes, bytes, hp, ha.openWire_sealedAt]
    rw [hs]
    refine .next ?_ hss (.emit ?_ hps (ih (forall_mem_cons.mp hcs).2 hrest))
    · rw [← length_bytes, bytes, hsize, ha.length_sealedAt]
      rfl
    · rw [← length_bytes, bytes, hp, ha.length_sealedAt]
      rfl

variable (k) in
def pending : PendingServer2022 := ⟨k.psk, k.kind, k.requestSalt⟩

theorem length_fixedHeader (hs : k.requestSalt.length = k.kind.saltSize) (draw : Draw)
    (n : Nat) : (k.pending.fixedHeader draw n).length = k.fixedLen := by
  simp [PendingServer2022.fixedHeader, pending, hs, fixedLen]
  omega

variable {draw : Draw}

theorem checkFixed_fixedHeader (hs : k.requestSalt.length = k.kind.saltSize)
    (hn : n ≤ 65535) (hno : absDiff now draw.now ≤ 30) :
    checkFixed k.fixedLen k.requestSalt (k.pending.fixedHeader draw n) now = .ok n := by
  have htype : byteAt (k.pending.fixedHeader draw n) 0 = 1 := rfl
  have he : u64At (k.pending.fixedHeader draw n) 1 = draw.now := by
    have hp : ([1] : Bytes).length ≤ 1 := le_rfl
    rw [PendingServer2022.fixedHeader, ← List.singleton_append, u64At_append hp,
      List.length_singleton, Nat.sub_self, u64At_be64]
  have hd : (k.pending.fixedHeader draw n).drop 9 = k.requestSalt ++ be16 (UInt16.ofNat n) := rfl
  have hl : k.fixedLen - 11 = k.requestSalt.length := by
    rw [hs, fixedLen]
    omega
  have hf : (u16At (k.pending.fixedHeader draw n) (9 + k.requestSalt.length)).toNat = n := by
    have hp : (1 :: (be64 draw.now ++ k.requestSalt)).length = 9 + k.requestSalt.length := by
      simp
      omega
    rw [PendingServer2022.fixedHeader, pending, ← List.append_assoc, ← List.cons_append,
      u16At_append hp.le, hp, Nat.sub_self]
    exact u16At_be16_ofNat hn
  unfold checkFixed
  rw [if_neg (not_not_intro (length_fixedHeader hs draw n)), if_neg (not_not_intro htype)]
  dsimp only
  rw [he, if_neg (not_lt.mpr hno), hl, hd, List.take_left, if_neg (List.lt_irrefl _), hf]

def headerAt (k : ResponseKey) (w : List Stamped) : Option UInt64 :=
  w[k.kind.saltSize + (k.fixedLen + 16) - 1]?.map Prod.fst

theorem headerAt_append (hl1 : w1.length = k.kind.saltSize)
    (hl2 : w2.length = k.fixedLen + 16) (rest : List Stamped) :
    k.headerAt (w1 ++ (w2 ++ rest)) = some (clock w2) := by
  have hne : w2 ≠ [] := by
    rintro rfl
    simp at hl2
  obtain ⟨x, hx⟩ := Option.isSome_iff_exists.mp (getLast?_isSome.mpr hne)
  have hl : w2[k.fixedLen + 16 - 1]? = some x := by rw [← hl2, ← getLast?_eq_getElem?, hx]
  rw [headerAt, getElem?_append_right (by omega), hl1, getElem?_append_left (by omega),
    show k.kind.saltSize + (k.fixedLen + 16) - 1 - k.kind.saltSize = k.fixedLen + 16 - 1 by omega,
    hl, clock, hx]
  rfl

theorem emits_response (hL : L.Lawful) (hs : k.requestSalt.length = k.kind.saltSize)
    {first : Bytes} (hfi : first.length ≤ partSize)
    (hcs : ∀ c ∈ cs, c ≠ [] ∧ c.length ≤ partSize) {w : List Stamped}
    (hw : bytes w = k.pending.head L draw first ++ bodyWire (k.pending.aead L draw) 2 cs)
    (ht : ∀ now ∈ k.headerAt w, absDiff now draw.now ≤ 30) :
    ∃ stage, (k.reader L).Emits .salt w (first :: cs) stage := by
  have ha : SessionCipher (k.pending.aead L draw) := hL.sessionCipher ..
  rw [PendingServer2022.head, append_assoc, append_assoc] at hw
  obtain ⟨w1, w', rfl, hsw, hw'⟩ := map_eq_append_iff.mp hw
  obtain ⟨w2, w'', rfl, hf, hw''⟩ := map_eq_append_iff.mp hw'
  obtain ⟨w3, w4, rfl, hfw, hb⟩ := map_eq_append_iff.mp hw''
  have hl1 : w1.length = k.kind.saltSize := by
    rw [← length_bytes, bytes, hsw, Draw.length_randomSalt]
    rfl
  have hl2 : w2.length = k.fixedLen + 16 := by
    rw [← length_bytes, bytes, hf, ha.length_sealedAt, length_fixedHeader hs]
  have hl3 : w3.length = first.length + 16 := by
    rw [← length_bytes, bytes, hfw, ha.length_sealedAt]
  have hc : absDiff (clock w2) draw.now ≤ 30 := ht _ (headerAt_append hl1 hl2 _)
  have hss : k.step L .salt w1 = .next (.fixed (k.pending.aead L draw)) := by
    rw [step, bytes, hsw]
    rfl
  have hfs : k.step L (.fixed (k.pending.aead L draw)) w2 =
      .next (.first (k.pending.aead L draw) first.length) := by
    rw [step, bytes, hf, ha.openWire_sealedAt, ok_bind,
      checkFixed_fixedHeader hs (hfi.trans (by decide)) hc]
  have hfr : k.step L (.first (k.pending.aead L draw) first.length) w3 =
      .emit first (.size (k.pending.aead L draw) (leBytes 12 1)) := by
    rw [step, bytes, hfw, ha.openWire_sealedAt]
  exact ⟨_, .next hl1 hss (.next hl2 hfs (.emit hl3 hfr (emits_bodyWire ha hcs hb)))⟩

theorem bytes_stamped (ps : List (UInt64 × Bytes)) :
    bytes (stamped ps) = (ps.map Prod.snd).flatten := by
  induction ps with
  | nil => rfl
  | cons p ps ih =>
    rw [stamped, flatMap_cons, bytes_append, map_cons, flatten_cons, ← ih]
    simp [bytes, stamped, Function.comp_def]

theorem pump_nothing (hs : k.Refines .salt s) (hn : (pieces.map Prod.snd).flatten = []) :
    ∃ s' pending, s.pump L [] pieces = ([], .waiting s' pending) := by
  have hst : stamped pieces = [] := map_eq_nil_iff.mp ((bytes_stamped pieces).trans hn)
  have hr : (k.reader L).read .salt (stamped pieces) = ([], .waiting .salt []) := by
    have hlt : ([] : List Stamped).length < k.need .salt := k.need_pos _
    rw [hst]
    exact StagedReader.read_of_waiting (StagedReader.poll_of_lt hlt)
  exact pump_of_read_waiting hs hr

theorem pump_response (hL : L.Lawful) (hsa : k.requestSalt.length = k.kind.saltSize)
    (hs : k.Refines .salt s)
    (hf : first.length ≤ partSize) (hcs : ∀ c ∈ cs, c ≠ [] ∧ c.length ≤ partSize)
    (hw : wire = k.pending.head L draw first ++ bodyWire (k.pending.aead L draw) 2 cs)
    (hp : (pieces.map Prod.snd).flatten <+: wire)
    (ht : ∀ now ∈ k.headerAt (stamped pieces), absDiff now draw.now ≤ 30) :
    ∃ ms s' pending, s.pump L [] pieces = (ms, .waiting s' pending) ∧
      ms.flatten <+: first ++ cs.flatten ∧
      ((pieces.map Prod.snd).flatten = wire → ms.flatten = first ++ cs.flatten) := by
  obtain ⟨more, hmore⟩ := hp
  -- what is still to come may come at any time: here at the time of the response
  have hb : bytes (stamped pieces ++ more.map (draw.now, ·)) = wire := by
    rw [bytes_append, bytes_stamped, ← hmore]
    simp [bytes, Function.comp_def]
  have he : ∃ stage, (k.reader L).Emits .salt (stamped pieces ++ more.map (draw.now, ·))
      (first :: cs) stage := by
    refine emits_response hL hsa hf hcs (hb.trans hw) ?_
    intro now hn
    rw [headerAt, getElem?_append] at hn
    split at hn
    · exact ht now hn
    rw [getElem?_map] at hn
    obtain ⟨x, hx, rfl⟩ := Option.map_eq_some_iff.mp hn
    obtain ⟨b, -, rfl⟩ := Option.map_eq_some_iff.mp hx
    simp [absDiff]
  obtain ⟨stage, he⟩ := he
  obtain ⟨ms1, ms2, t, rest, hr, hms⟩ := he.read_part
  obtain ⟨s', pending, hpu⟩ := pump_of_read_waiting hs hr
  have hfl : first ++ cs.flatten = ms1.flatten ++ ms2.flatten := by
    rw [← flatten_append, ← hms, flatten_cons]
  refine ⟨ms1, s', pending, hpu, ⟨_, hfl.symm⟩, fun hall => ?_⟩
  obtain rfl : more = [] := append_right_eq_self.mp (hmore.trans hall.symm)
  rw [map_nil, append_nil] at he
  obtain ⟨rfl, -⟩ := Prod.mk.inj (hr.symm.trans he.read)
  rfl

end ResponseKey

namespace SSStream

theorem nodup_seals_headed (s : SSStream) (aead : AeadCipher) (head : Bytes) (cs : List Bytes) :
    (s.headed aead head cs).seals.Nodup ↔ (s.headed aead head cs).seals.length ≤ 256 ^ 12 := by
  have hi : Function.Injective (Prod.mk aead : Bytes → AeadCipher × Bytes) :=
    Prod.mk_right_injective aead
  have hs : (s.headed aead head cs).seals =
      ((range (2 + 2 * cs.length)).map (leBytes 12)).map (Prod.mk aead) :=
    map_map.symm
  rw [hs, nodup_map_iff hi, nodup_leBytes_iff, length_map, length_map, length_range]

end SSStream

namespace Dial

variable {L : Library}

def client (L : Library) (d : Dial) (calls : List Call) : Except SsError SSStream := do
  let s ← Client2022.dialTargetOn L ⟨[d.psk], d.kind⟩ [] d.target d.port d.draw
  Call.runs L s calls

def responseKey (d : Dial) : ResponseKey := ⟨d.psk, d.kind, d.salt⟩

/-- The pieces are a part of the wire from its start, and if they hold a response header,
its last byte comes within 30 s of the second in which the server answered. -/
structure Fed (d : Dial) (responses : List Call) (wire : Bytes) (pieces : List (UInt64 × Bytes)) :
    Prop where
  part : (pieces.map Prod.snd).flatten <+: wire
  timely : ∀ epoch ∈ responses.findSome? Call.epoch,
    ∀ now ∈ d.responseKey.headerAt (ResponseKey.stamped pieces), absDiff now epoch ≤ 30

def Delivers (L : Library) (client : SSStream) (pieces : List (UInt64 × Bytes))
    (wire payload : Bytes) : Prop :=
  ∃ ms s pending, client.pump L [] pieces = (ms, .waiting s pending) ∧
    ms.flatten <+: payload ∧ ((pieces.map Prod.snd).flatten = wire → ms.flatten = payload)

theorem delivers_of_fed (hL : L.Lawful) {d : Dial} {client accepted : SSStream}
    (hc : d.responseKey.Refines .salt client)
    (ha : d.responseKey.pending.Unsent accepted) (resps : List Call) :
    ∃ server, Call.runs L accepted resps = .ok server ∧ (∀ ps, d.Fed resps server.output ps →
        Delivers L client ps server.output (Call.payloads resps)) ∧
      (server.seals.Nodup ↔ server.seals.length ≤ 256 ^ 12) := by
  have hsa : d.salt.length = d.kind.saltSize := d.draw.length_randomSalt d.kind
  obtain ⟨hr, hni⟩ | ⟨draw, server, hr, he, hs⟩ := ha.runs (L := L) resps
  · refine ⟨accepted, hr, fun ps hfe => ?_, by simp [ha.seals]⟩
    have hn : (ps.map Prod.snd).flatten = [] := by
      have := hfe.part
      rwa [ha.output, prefix_nil] at this
    obtain ⟨s, pending, hp⟩ := ResponseKey.pump_nothing (L := L) hc hn
    exact ⟨[], s, pending, hp, nil_prefix, fun _ => hni.symm⟩
  · refine ⟨server, hr, ?_⟩
    generalize Call.payloads resps = payload at hs ⊢
    obtain ⟨hf, hcs⟩ := hs
    refine ⟨fun ps hfe => ?_, nodup_seals_headed ..⟩
    exact ResponseKey.pump_response hL hsa hc hf hcs rfl hfe.part (hfe.timely _ he)

/-- Of a request that is sent in time and with a new salt, the server gets the target and exactly
the payloads. Fed any pieces of the response, the client has the first of the payloads, and all of
them with the last byte. Each end uses every nonce once, as long as there are enough. -/
theorem carries_both_ways (hL : L.Lawful) (d : Dial) (email : String)
    (requests responses : List Call) (hsends : ∃ call ∈ requests, call.Sends) {now : UInt64}
    (htime : absDiff now d.draw.now ≤ 30) {replay : SaltReplayFilter} {filterNow : Nat}
    (hfresh : (replay.check filterNow d.salt).1 = true) :
    ∃ client accepted server, d.client L requests = .ok client ∧
      ((single d.psk d.kind email).handleConn L replay client.output now filterNow).1 =
        .ok accepted ∧ Call.runs L accepted.stream responses = .ok server ∧
      (accepted.address = .domain d.target ∧ accepted.port = d.port ∧
        ∃ ms, accepted.stream.readChunks = .ok ms ∧ ms.flatten = Call.payloads requests) ∧
      (∀ pieces, d.Fed responses server.output pieces →
        Delivers L client pieces server.output (Call.payloads responses)) ∧
      (client.seals.Nodup ↔ client.seals.length ≤ 256 ^ 12) ∧
      (server.seals.Nodup ↔ server.seals.length ≤ 256 ^ 12) := by
  have haead : SessionCipher (d.aead L) := hL.sessionCipher ..
  obtain ⟨client, hruns, hsent⟩ := runs_stream (L := L) (d := d) hsends
  have hclient : d.client L requests = .ok client := by
    rw [Dial.client, dialTargetOn_eq, ok_bind, hruns]
  generalize Call.payloads requests = payload at hsent
  cases hsent with
  | @intro padding first cs hpadding hvar hcs =>
  obtain ⟨ms, hread, hms⟩ := readChunks_headers haead hcs
  have hrefines : d.responseKey.Refines .salt
      ((d.stream L).headed (d.aead L) (d.head L padding first) cs) := .salt rfl rfl rfl rfl
  have hunsent : d.responseKey.pending.Unsent
      ((d.headers L padding first (bodyWire (d.aead L) 2 cs)).stream d.psk d.kind d.salt) :=
    ⟨rfl, rfl, rfl, rfl⟩
  obtain ⟨server, hserver, hdelivers, hnonces⟩ := delivers_of_fed hL hrefines hunsent responses
  exact ⟨_, _, server, hclient, handleConn_eq haead hpadding hvar htime hfresh email _, hserver,
    ⟨rfl, rfl, ms, hread, hms⟩, hdelivers, nodup_seals_headed .., hnonces⟩

theorem length_parts_replicate (draw : Draw) (b : UInt8) (n : Nat) :
    (Call.parts (replicate n (.write [b] draw))).length = n := by
  have ho : chunks partSize [b] = [[b]] := by
    have hp : 0 < partSize := by decide
    rw [chunks_of_ne_nil hp (cons_ne_nil b [])]
    exact congrArg _ (chunks_nil _)
  induction n with
  | zero => rfl
  | succ n ih =>
    rw [replicate_succ, Call.parts, flatMap_cons, Call.payload, ho, singleton_append, length_cons]
    exact congrArg _ ih

theorem exists_nonce_twice (d : Dial) (draw : Draw) (hn : 256 ^ 12 < 2 + 2 * n) :
    ∃ client, d.client L (.flush draw :: replicate n (.write [0] draw)) = .ok client ∧
      ¬client.seals.Nodup := by
  have hf : (Call.flush draw).Sends := trivial
  obtain ⟨s, hr, hs⟩ := run_of_sends (L := L) (d := d) hf
  generalize (Call.flush draw).payload = payload at hs
  cases hs with
  | @intro p first cs =>
  have hc : d.client L (.flush draw :: replicate n (.write [0] draw)) =
      .ok ((d.stream L).headed (d.aead L) (d.head L p first)
        (cs ++ Call.parts (replicate n (.write [0] draw)))) := by
    rw [Dial.client, dialTargetOn_eq, ok_bind, Call.runs, foldlM_cons, hr, ok_bind]
    exact runs_headed nonceSize_sessionAead _
  refine ⟨_, hc, fun hno => ?_⟩
  have hle := (nodup_seals_headed _ _ _ _).mp hno
  rw [headed, length_map, length_range, length_append, length_parts_replicate] at hle
  omega

def demoDraw : Draw := ⟨0, fun _ => 1, 1000⟩

theorem length_demoTarget : (asBytes "a").length ≤ 255 := by decide

def demo : Dial where
  psk := replicate 16 7
  kind := .aes128Gcm
  target := "a"
  port := 80
  draw := demoDraw
  length_target := length_demoTarget

def newFilter : SaltReplayFilter := .new REPLAY_WINDOW 0

def answer (replay : SaltReplayFilter) (calls : List Call) : Except SsError InboundResult := do
  let client ← demo.client clear calls
  ((single demo.psk demo.kind "user").handleConn clear replay client.output 1000
    0).1

/-- A client that has only made an empty write has sent nothing. A server that knows the
salt refuses the request. A client that makes `2 ^ 95` writes of one byte behind its header
comes back to its first nonces. -/
theorem fails_unsent_known_or_exhausted :
    answer newFilter [.write [] demoDraw] = .error (.io "early eof") ∧
      answer (newFilter.check 0 demo.salt).2 [.flush demoDraw] = .error .ss2022SaltNotUnique ∧
      ∃ client, demo.client clear
        (.flush demoDraw :: replicate (2 ^ 95) (.write [0] demoDraw)) = .ok client ∧
        ¬client.seals.Nodup := by
  refine ⟨rfl, ?_, exists_nonce_twice demo demoDraw (by norm_num)⟩
  rfl

/-- A request of one flush and one write, answered with three bytes. -/
theorem carries_both_ways_demo : ∃ client accepted server,
      demo.client clear [.flush demoDraw, .write [1, 2] demoDraw] = .ok client ∧
      ((single demo.psk demo.kind "user").handleConn clear newFilter client.output
        1000 0).1 = .ok accepted ∧
      Call.runs clear accepted.stream [.write [3, 4, 5] demoDraw] = .ok server ∧
      accepted.address = .domain "a" ∧
      (∃ ms, accepted.stream.readChunks = .ok ms ∧ ms.flatten = [1, 2]) ∧
      Delivers clear client [(1000, server.output)] server.output [3, 4, 5] := by
  obtain ⟨client, accepted, server, hclient, hconn, hserver, ⟨haddr, -, hread⟩, hdelivers, -⟩ :=
    carries_both_ways clear_lawful demo "user" [.flush demoDraw, .write [1, 2] demoDraw]
      [.write [3, 4, 5] demoDraw] ⟨_, mem_cons_self, trivial⟩
      (show absDiff 1000 demo.draw.now ≤ 30 by decide)
      (show (newFilter.check 0 demo.salt).1 = true by decide)
  refine ⟨client, accepted, server, hclient, hconn, hserver, haddr, hread, hdelivers _ ⟨?_, ?_⟩⟩
  · simp
  rintro epoch ⟨⟩ now hnow
  obtain ⟨x, hx, rfl⟩ := Option.map_eq_some_iff.mp hnow
  have hmem := mem_of_getElem? hx
  simp only [ResponseKey.stamped, flatMap_cons, flatMap_nil, append_nil] at hmem
  obtain ⟨b, -, rfl⟩ := mem_map.mp hmem
  exact show absDiff 1000 1000 ≤ 30 by decide

end Dial

end XrayCore.Shadowsocks
