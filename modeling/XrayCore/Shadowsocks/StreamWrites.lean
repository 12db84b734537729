import XrayCore.Lib.Fallible
import XrayCore.Shadowsocks.Stream

/-!
# What a stream writes

Both ends of a connection first write a header of two sealed parts, under the nonces 0 and 1, and
then body chunks, each a sealed size and a sealed payload under the next two nonces. Here every
state that the calls of one end reach is written down, with the nonces counted from 0 without a gap.
-/

namespace XrayCore.Shadowsocks

open Lib Crypto Net List SSStream Library

def sealedAt (aead : AeadCipher) (k : Nat) (plain : Bytes) : Bytes :=
  aead.encrypt (leBytes 12 k) [] plain

def bodyWire (aead : AeadCipher) : Nat → List Bytes → Bytes
  | _, [] => []
  | k, c :: cs =>
    sealedAt aead k (be16 (UInt16.ofNat c.length)) ++
      (sealedAt aead (k + 1) c ++ bodyWire aead (k + 2) cs)

theorem bodyWire_append (aead : AeadCipher) (k : Nat) (cs cs' : List Bytes) :
    bodyWire aead k (cs ++ cs') = bodyWire aead k cs ++ bodyWire aead (k + 2 * cs.length) cs' := by
  induction cs generalizing k with
  | nil => rfl
  | cons c cs ih =>
    have hk : k + 2 + 2 * cs.length = k + 2 * (c :: cs).length := by
      simp
      omega
    simp [bodyWire, ih, hk]

def partSize : Nat := 8192 - 16 - 2

inductive Call
  | write (plaintext : Bytes) (draw : Draw)
  | flush (draw : Draw)

namespace Call

def run (L : Library) (s : SSStream) : Call → Except SsError SSStream
  | .write plaintext draw => s.writeChunk L plaintext draw
  | .flush draw => s.flushPendingClient2022 draw

def payload : Call → Bytes
  | .write plaintext _ => plaintext
  | .flush _ => []

def Sends : Call → Prop
  | .write plaintext _ => plaintext ≠ []
  | .flush _ => True

instance : DecidablePred Sends
  | .write plaintext _ => inferInstanceAs (Decidable (plaintext ≠ []))
  | .flush _ => inferInstanceAs (Decidable True)

def epoch : Call → Option UInt64
  | .write plaintext draw => if plaintext = [] then none else some draw.now
  | .flush _ => none

def runs (L : Library) (s : SSStream) (calls : List Call) : Except SsError SSStream :=
  calls.foldlM (run L) s

def payloads (calls : List Call) : Bytes := calls.flatMap payload

def parts (calls : List Call) : List Bytes := calls.flatMap fun call => chunks partSize call.payload

theorem flatten_parts (calls : List Call) : (parts calls).flatten = payloads calls := by
  induction calls with
  | nil => rfl
  | cons call calls ih =>
    rw [parts, flatMap_cons, flatten_append, flatten_chunks (by decide), payloads, flatMap_cons]
    exact congrArg _ ih

theorem mem_parts (h : c ∈ parts calls) : c ≠ [] ∧ c.length ≤ partSize := by
  obtain ⟨call, -, hc⟩ := mem_flatMap.mp h
  exact mem_chunks hc

end Call

namespace SSStream

variable {L : Library} {s : SSStream} {aead : AeadCipher} {head : Bytes} {cs : List Bytes}

def headed (s : SSStream) (aead : AeadCipher) (head : Bytes) (cs : List Bytes) : SSStream :=
  { s with
    output := head ++ bodyWire aead 2 cs
    writeAead := aead
    writeNonce := leBytes 12 (1 + 2 * cs.length)
    tagSize := 16
    pendingServer2022 := none
    pendingClient2022 := none
    seals := (List.range (2 + 2 * cs.length)).map fun k => (aead, leBytes 12 k) }

theorem sealPart_at (hn : s.writeNonce = leBytes 12 k)
    (hsize : s.writeAead.nonceSize = 12) (plain : Bytes) :
    s.sealPart plain = .ok (sealedAt s.writeAead k plain,
      { s with seals := s.seals ++ [(s.writeAead, leBytes 12 k)] }) := by
  have hl : s.writeNonce.length = s.writeAead.nonceSize := by rw [hn, hsize, length_leBytes]
  rw [sealPart, AeadCipher.sealBytes_ok hl, hn]
  rfl

section

variable (hsize : aead.nonceSize = 12)

include hsize

theorem writeSingleChunk_headed (hc : c.length ≤ 65535) :
    (s.headed aead head cs).writeSingleChunk c = .ok (s.headed aead head (cs ++ [c])) := by
  have hs : increment (leBytes 12 (1 + 2 * cs.length)) = leBytes 12 (2 + 2 * cs.length) := by
    rw [increment_leBytes]
    congr 1
    omega
  have hp : increment (leBytes 12 (2 + 2 * cs.length)) = leBytes 12 (2 + 2 * cs.length + 1) :=
    increment_leBytes ..
  have hco : 2 + 2 * (cs ++ [c]).length = 2 + 2 * cs.length + 1 + 1 := by
    simp
    omega
  have hl : 1 + 2 * (cs ++ [c]).length = 2 + 2 * cs.length + 1 := by omega
  rw [writeSingleChunk, if_neg (not_lt.mpr hc),
    sealPart_at (k := 2 + 2 * cs.length) hs hsize, ok_bind]
  dsimp only
  rw [sealPart_at (k := 2 + 2 * cs.length + 1)]
  · simp only [ok_bind, headed, send, bumpWriteNonce, hco, hl, range_succ,
      map_append, bodyWire_append, bodyWire, append_assoc, append_nil, hs, hp,
      map_cons, map_nil]
    rfl
  · simp [bumpWriteNonce, headed, hs, hp]
  · exact hsize

theorem foldlM_writeSingleChunk_headed {cs' : List Bytes} (hl : ∀ c ∈ cs', c.length ≤ 65535) :
    cs'.foldlM writeSingleChunk (s.headed aead head cs) = .ok (s.headed aead head (cs ++ cs')) := by
  induction cs' generalizing cs with
  | nil => rw [append_nil]; rfl
  | cons c cs' ih =>
    rw [foldlM_cons, writeSingleChunk_headed hsize (hl c mem_cons_self), ok_bind,
      ih (forall_mem_cons.mp hl).2, append_assoc, singleton_append]

theorem writeParts_headed (rest : Bytes) : (s.headed aead head cs).writeParts rest =
      .ok (s.headed aead head (cs ++ chunks partSize rest)) := by
  have hm : max (s.headed aead head cs).maxPayload 1 = partSize := rfl
  rw [writeParts, hm]
  refine foldlM_writeSingleChunk_headed hsize fun c hc => ?_
  obtain ⟨-, hle⟩ := mem_chunks hc
  exact hle.trans (by decide)

theorem run_headed (call : Call) : call.run L (s.headed aead head cs) =
      .ok (s.headed aead head (cs ++ chunks partSize call.payload)) := by
  cases call with
  | write p draw =>
    rw [Call.run, writeChunk]
    split
    · next hn => rw [hn, Call.payload, chunks_nil, append_nil]
    · exact writeParts_headed hsize p
  | flush draw =>
    rw [Call.payload, chunks_nil, append_nil]
    rfl

theorem runs_headed (calls : List Call) : Call.runs L (s.headed aead head cs) calls =
      .ok (s.headed aead head (cs ++ Call.parts calls)) := by
  induction calls generalizing cs with
  | nil => simp [Call.runs, Call.parts, pure, Except.pure]
  | cons call calls ih =>
    rw [Call.runs, foldlM_cons, run_headed hsize, ok_bind]
    exact ih.trans (by simp [Call.parts])

end

end SSStream

structure Dial where
  psk : Bytes
  kind : CipherKind2022
  target : String
  port : Port
  draw : Draw
  length_target : (asBytes target).length ≤ 255

namespace Dial

def salt (d : Dial) : Bytes := d.draw.randomSalt d.kind

def aead (L : Library) (d : Dial) : AeadCipher := L.sessionAead d.kind d.psk d.salt

def stream (L : Library) (d : Dial) : SSStream :=
  { newWithAeadAndNonce [] (d.aead L) (List.replicate 12 0) with
    pendingClient2022 :=
      some ⟨d.salt, 0 :: (be64 d.draw.now ++ [0, 0]), encodeDomainPort d.target d.port⟩
    responseRekey2022 := some (.salt d.psk d.kind d.salt) }

def fixedHeader (d : Dial) (variableLen : Nat) : Bytes :=
  0 :: (be64 d.draw.now ++ be16 (UInt16.ofNat variableLen))

def variableHeader (d : Dial) (padding : Nat) (first : Bytes) : Bytes :=
  encodeDomainPort d.target d.port ++
    (be16 (UInt16.ofNat padding) ++ (List.replicate padding 0 ++ first))

def head (L : Library) (d : Dial) (padding : Nat) (first : Bytes) : Bytes :=
  let var := d.variableHeader padding first
  d.salt ++ (sealedAt (d.aead L) 0 (d.fixedHeader var.length) ++ sealedAt (d.aead L) 1 var)

variable (L : Library) (d : Dial)

theorem dialTargetOn_eq : Client2022.dialTargetOn L ⟨[d.psk], d.kind⟩ [] d.target d.port d.draw =
      .ok (d.stream L) := by
  have hp : Client2022.finalPsk ⟨[d.psk], d.kind⟩ = d.psk := rfl
  simp only [Client2022.dialTargetOn, hp, buildAead_deriveSessionSubkey, ok_bind,
    if_neg (not_lt.mpr d.length_target), Client2022.identityHeaders, append_nil]
  rfl

theorem emitPendingClient2022_stream (pl : Bytes) (draw : Draw) :
    ∃ padding first rest, first ++ rest = pl ∧ padding ≤ 900 ∧
      (d.variableHeader padding first).length ≤ 65535 ∧ (d.stream L).emitPendingClient2022 pl draw =
        .ok (rest, (d.stream L).headed (d.aead L) (d.head L padding first) []) := by
  let padding := if pl.length < MAX_PADDING_LENGTH then
    draw.padding.toNat % MAX_PADDING_LENGTH + 1 else 0
  let n := min pl.length (65535 - (encodeDomainPort d.target d.port).length - 2 - padding)
  have hp : padding ≤ 900 := by
    unfold padding MAX_PADDING_LENGTH at *
    split_ifs <;> omega
  have hv : (d.variableHeader padding (pl.take n)).length ≤ 65535 := by
    have := d.length_target
    simp [variableHeader, length_encodeDomainPort, n]
    omega
  refine ⟨padding, pl.take n, pl.drop n, take_append_drop .., hp, hv, ?_⟩
  have hz : List.replicate 12 0 = leBytes 12 0 := (leBytes_zero 12).symm
  have ho : increment (List.replicate 12 0) = leBytes 12 1 := by decide
  have hb : (increment (leBytes 12 1)).set 0 1 = leBytes 12 1 := by decide
  have hsize : (d.aead L).nonceSize = 12 := nonceSize_sessionAead
  have ht : (d.aead L).tagSize = 16 := tagSize_sessionAead
  have hf : (0 :: (be64 d.draw.now ++ [0, 0]) : Bytes).take 9 = 0 :: be64 d.draw.now := by
    rw [take_succ_cons, take_left' (length_be64 _)]
  change (if 65535 < (d.variableHeader padding (pl.take n)).length then _ else _) = _
  rw [if_neg (not_lt.mpr hv)]
  rw [SSStream.sealPart_at hz hsize, ok_bind]
  dsimp only
  rw [SSStream.sealPart_at ho hsize, ok_bind]
  simp only [SSStream.headed, SSStream.send, SSStream.bumpWriteNonce, stream,
    newWithAeadAndNonce, ho, hb, hf, ht, head, fixedHeader, bodyWire,
    append_nil, nil_append, cons_append]
  rfl

/-- The client has sent its header, and all it was given to write is in the header or in
the body chunks. -/
inductive Sent : SSStream → Bytes → Prop
  | intro {padding : Nat} {first : Bytes} {cs : List Bytes} : padding ≤ 900 →
    (d.variableHeader padding first).length ≤ 65535 →
    (∀ c ∈ cs, c ≠ [] ∧ c.length ≤ partSize) →
    Sent ((d.stream L).headed (d.aead L) (d.head L padding first) cs) (first ++ cs.flatten)

variable {L d}

theorem run_of_not_sends {call : Call} (h : ¬call.Sends) :
    call.run L (d.stream L) = .ok (d.stream L) ∧ call.payload = [] := by
  cases call with
  | write p draw =>
    have hn : p = [] := not_not.mp h
    refine ⟨?_, hn⟩
    rw [Call.run, writeChunk, if_pos hn]
  | flush draw => exact absurd trivial h

theorem run_of_sends {call : Call} (h : call.Sends) :
    ∃ s, call.run L (d.stream L) = .ok s ∧ d.Sent L s call.payload := by
  have hsize : (d.aead L).nonceSize = 12 := nonceSize_sessionAead
  cases call with
  | write p draw =>
    obtain ⟨pa, first, rest, hp, hpa, hv, he⟩ := emitPendingClient2022_stream L d p draw
    have hs := Sent.intro (L := L) hpa hv fun c => mem_chunks (n := partSize) (l := rest)
    rw [flatten_chunks (by decide), hp] at hs
    refine ⟨_, ?_, hs⟩
    have hpe : (d.stream L).pendingClient2022.isSome := rfl
    rw [Call.run, writeChunk, if_neg h, if_pos hpe, he, ok_bind]
    exact writeParts_headed hsize rest
  | flush draw =>
    obtain ⟨pa, first, rest, hp, hpa, hv, he⟩ := emitPendingClient2022_stream L d [] draw
    have hn : ∀ c ∈ ([] : List Bytes), c ≠ [] ∧ c.length ≤ partSize := by simp
    have hs := Sent.intro (L := L) hpa hv hn
    obtain ⟨rfl, -⟩ := append_eq_nil_iff.mp hp
    refine ⟨_, ?_, hs⟩
    rw [Call.run, flushPendingClient2022, if_neg (by simp [stream]), he]
    rfl

theorem Sent.runs (h : d.Sent L s payload) (calls : List Call) :
    ∃ s', Call.runs L s calls = .ok s' ∧ d.Sent L s' (payload ++ Call.payloads calls) := by
  obtain ⟨hp, hv, hcs⟩ := h
  refine ⟨_, runs_headed nonceSize_sessionAead calls, ?_⟩
  rw [append_assoc, ← Call.flatten_parts, ← flatten_append]
  refine .intro hp hv fun c hc => ?_
  obtain hc | hc := mem_append.mp hc
  · exact hcs c hc
  · exact Call.mem_parts hc

theorem runs_stream {calls : List Call} (h : ∃ call ∈ calls, call.Sends) :
    ∃ s, Call.runs L (d.stream L) calls = .ok s ∧ d.Sent L s (Call.payloads calls) := by
  induction calls with
  | nil => simp at h
  | cons call calls ih =>
    by_cases hs : call.Sends
    · obtain ⟨s, hru, hse⟩ := run_of_sends (L := L) (d := d) hs
      obtain ⟨s', hr, hs'⟩ := hse.runs calls
      refine ⟨s', ?_, hs'⟩
      rw [Call.runs, foldlM_cons, hru]
      exact hr
    · obtain ⟨hru, hn⟩ := run_of_not_sends (L := L) (d := d) hs
      obtain ⟨s, hr, hse⟩ := ih (by simpa [hs] using h)
      refine ⟨s, ?_, ?_⟩
      · rw [Call.runs, foldlM_cons, hru]
        exact hr
      · rw [Call.payloads, flatMap_cons, hn]
        exact hse

end Dial

namespace PendingServer2022

variable (L : Library) (p : PendingServer2022)

def aead (draw : Draw) : AeadCipher := L.sessionAead p.kind p.psk (draw.randomSalt p.kind)

def fixedHeader (draw : Draw) (firstLen : Nat) : Bytes :=
  1 :: (be64 draw.now ++ (p.requestSalt ++ be16 (UInt16.ofNat firstLen)))

def head (draw : Draw) (first : Bytes) : Bytes :=
  draw.randomSalt p.kind ++ (sealedAt (p.aead L draw) 0 (p.fixedHeader draw first.length) ++
    sealedAt (p.aead L draw) 1 first)

structure Unsent (s : SSStream) : Prop where
  output : s.output = []
  seals : s.seals = []
  pendingServer2022 : s.pendingServer2022 = some p
  pendingClient2022 : s.pendingClient2022 = none

/-- The server has answered in the second of the draw, and all it was given to write is in
the first payload or in the body chunks. -/
inductive Sent (s : SSStream) : Draw → SSStream → Bytes → Prop
  | intro {draw : Draw} {first : Bytes} {cs : List Bytes} : first.length ≤ partSize →
    (∀ c ∈ cs, c ≠ [] ∧ c.length ≤ partSize) →
    Sent s draw (s.headed (p.aead L draw) (p.head L draw first) cs) (first ++ cs.flatten)

variable {L p} {s : SSStream}

theorem Unsent.writeResponse (h : p.Unsent s) (pt : Bytes) (draw : Draw) :
    { s with pendingServer2022 := none }.writeResponse L p pt draw = .ok (pt.drop partSize,
        s.headed (p.aead L draw) (p.head L draw (pt.take partSize)) []) := by
  have hsize : (p.aead L draw).nonceSize = 12 := nonceSize_sessionAead
  have hta : (p.aead L draw).tagSize = 16 := tagSize_sessionAead
  have hm : 8192 - (p.aead L draw).tagSize - 2 = partSize := by rw [hta]; rfl
  have hz : increment (List.replicate 12 0xFF) = leBytes 12 0 := by decide
  have ho : increment (leBytes 12 0) = leBytes 12 1 := increment_leBytes 12 0
  have ht : pt.take (min pt.length partSize) = pt.take partSize := by
    rw [take_eq_take_iff]
    omega
  have hd : pt.drop (min pt.length partSize) = pt.drop partSize := by
    rw [drop_eq_drop_iff]
    omega
  have hl : (pt.take partSize).length = min pt.length partSize := by
    rw [length_take, min_comm]
  have hb : L.buildAead p.kind (L.deriveSessionSubkey p.psk (draw.randomSalt p.kind) p.kind) =
      .ok (p.aead L draw) := buildAead_deriveSessionSubkey
  unfold SSStream.writeResponse
  simp only [hb, SSStream.maxPayload, hm, hsize]
  rw [SSStream.sealPart_at (k := 0) hz hsize, ok_bind]
  rw [SSStream.sealPart_at (k := 1) (by simp only [SSStream.bumpWriteNonce, hz, ho]) hsize, ok_bind]
  simp only [SSStream.headed, SSStream.send, SSStream.bumpWriteNonce, hz, ho, ht, hd,
    hta, h.output, h.seals, h.pendingClient2022, head, fixedHeader, hl, bodyWire,
    append_nil, nil_append]
  rfl

theorem Unsent.run_of_nil (h : p.Unsent s) {call : Call} (hn : call.payload = []) :
    call.run L s = .ok s ∧ call.epoch = none := by
  cases call with
  | write pl draw =>
    replace hn : pl = [] := hn
    refine ⟨?_, if_pos hn⟩
    rw [Call.run, writeChunk, if_pos hn]
  | flush draw =>
    refine ⟨?_, rfl⟩
    rw [Call.run, flushPendingClient2022, h.pendingClient2022]
    rfl

theorem Unsent.run_of_ne_nil (h : p.Unsent s) {call : Call} (hne : call.payload ≠ []) :
    ∃ draw s', call.run L s = .ok s' ∧ call.epoch = some draw.now ∧
      p.Sent L s draw s' call.payload := by
  cases call with
  | write pt draw =>
    replace hne : pt ≠ [] := hne
    have hs : p.Sent L s draw _ _ := .intro (length_take_le partSize pt)
      fun c => mem_chunks (n := partSize) (l := pt.drop partSize)
    rw [flatten_chunks (by decide), take_append_drop] at hs
    refine ⟨draw, _, ?_, if_neg hne, hs⟩
    have hc : ¬s.pendingClient2022.isSome := by simp [h.pendingClient2022]
    rw [Call.run, writeChunk, if_neg hne, if_neg hc, h.pendingServer2022]
    dsimp only
    rw [h.writeResponse, ok_bind]
    exact writeParts_headed nonceSize_sessionAead _
  | flush draw => exact absurd rfl hne

theorem Sent.runs (h : p.Sent L s draw s' payload) (calls : List Call) :
    ∃ s'', Call.runs L s' calls = .ok s'' ∧
      p.Sent L s draw s'' (payload ++ Call.payloads calls) := by
  obtain ⟨hf, hcs⟩ := h
  refine ⟨_, runs_headed nonceSize_sessionAead calls, ?_⟩
  rw [append_assoc, ← Call.flatten_parts, ← flatten_append]
  refine .intro hf fun c hc => ?_
  obtain hc | hc := mem_append.mp hc
  · exact hcs c hc
  · exact Call.mem_parts hc

theorem Unsent.runs (h : p.Unsent s) (calls : List Call) :
    Call.runs L s calls = .ok s ∧ Call.payloads calls = [] ∨
      ∃ draw s', Call.runs L s calls = .ok s' ∧ calls.findSome? Call.epoch = some draw.now ∧
        p.Sent L s draw s' (Call.payloads calls) := by
  induction calls with
  | nil => exact .inl ⟨rfl, rfl⟩
  | cons call calls ih =>
    rw [Call.runs, foldlM_cons, Call.payloads, flatMap_cons, List.findSome?_cons]
    by_cases hn : call.payload = []
    · obtain ⟨hru, he⟩ := h.run_of_nil (L := L) hn
      rw [hru, he, hn, ok_bind]
      exact ih
    obtain ⟨draw, s', hru, he, hs⟩ := h.run_of_ne_nil (L := L) hn
    rw [hru, he, ok_bind]
    obtain ⟨s'', hr, hs'⟩ := hs.runs calls
    exact .inr ⟨draw, s'', hr, rfl, hs'⟩

end PendingServer2022

end XrayCore.Shadowsocks
