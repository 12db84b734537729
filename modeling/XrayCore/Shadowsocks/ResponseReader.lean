import XrayCore.Lib.Fallible
import XrayCore.Lib.StagedReader
import XrayCore.Shadowsocks.Stream

/-!
# Reading a response

The client's pump appends what arrives to a buffer and calls `try_open_chunk` until it needs more.
Here the whole is shown to be a staged reader, so what is delivered depends only on the bytes and on
the clock at the arrival of the byte that completes the fixed header.
-/

namespace XrayCore.Shadowsocks

open Lib Crypto List StagedReader SSStream

namespace SSStream

variable {L : Library} {s s' : SSStream} {pending pending' : Bytes} {m : Bytes} {now : UInt64}

theorem openPart_ok (h : s.openPart wire = .ok (plain, s')) :
    openWire s.readAead (increment s.readNonce) wire = .ok plain ∧
      s' = { s with readNonce := increment s.readNonce } := by
  obtain ⟨p', ho, h⟩ := bind_ok.mp h
  cases h
  exact ⟨ho, rfl⟩

def weight (s : SSStream) (pending : Bytes) : Nat :=
  pending.length + s.plainPrefix.length + s.responseRekey2022.toList.length +
    s.pendingPayload.toList.length

theorem weight_of_stage (h : s.responseRekey2022 = some stage) : s.weight pending =
      pending.length + s.plainPrefix.length + s.pendingPayload.toList.length + 1 := by
  simp [weight, h]
  omega

theorem openPayload_message (h : s.openPayload pending wireLen = .ok (.message m, s', pending')) :
    ∃ nonce, s' = { s with pendingPayload := none, readNonce := nonce } ∧
      pending' = pending.drop wireLen := by
  unfold openPayload at h
  split at h
  · cases h
  obtain ⟨⟨p, s1⟩, ho, h⟩ := bind_ok.mp h
  obtain ⟨-, rfl⟩ := openPart_ok ho
  cases h
  exact ⟨_, rfl, rfl⟩

theorem weight_tryOpenChunkBody (h : s.tryOpenChunkBody pending = .ok (.message m, s', pending')) :
    s'.weight pending' < s.weight pending := by
  unfold tryOpenChunkBody at h
  split at h
  · next wl hp =>
    obtain ⟨n, rfl, rfl⟩ := openPayload_message h
    simp only [weight, hp, length_drop, Option.toList_some, Option.toList_none,
      length_singleton, length_nil]
    omega
  · next hp =>
    dsimp only at h
    split at h
    · cases h
    obtain ⟨⟨size, s1⟩, ho, h⟩ := bind_ok.mp h
    obtain ⟨-, rfl⟩ := openPart_ok ho
    split at h
    · cases h
    split at h
    · cases h
    · obtain ⟨n, rfl, rfl⟩ := openPayload_message h
      simp [weight, hp]
      omega

theorem weight_rekeyVar (h : s.rekeyVar pending varLen = .ok (.message m, s', pending')) :
    s'.weight pending' ≤
      pending.length + s.plainPrefix.length + s.pendingPayload.toList.length := by
  unfold rekeyVar at h
  dsimp only at h
  split at h
  · cases h
  obtain ⟨⟨p, s1⟩, ho, h⟩ := bind_ok.mp h
  obtain ⟨-, rfl⟩ := openPart_ok ho
  cases h
  simp [weight]

theorem weight_rekeyFixed
    (h : s.rekeyFixed pending fixedPlain requestSalt now = .ok (.message m, s', pending')) :
    s'.weight pending' ≤
      pending.length + s.plainPrefix.length + s.pendingPayload.toList.length := by
  unfold rekeyFixed at h
  dsimp only at h
  split at h
  · cases h
  obtain ⟨⟨p, s1⟩, ho, h⟩ := bind_ok.mp h
  obtain ⟨-, rfl⟩ := openPart_ok ho
  obtain ⟨vl, -, h⟩ := bind_ok.mp h
  have hle := weight_rekeyVar h
  simp only [length_drop] at hle
  omega

theorem weight_rekeySalt
    (h : s.rekeySalt L pending psk kind requestSalt now = .ok (.message m, s', pending')) :
    s'.weight pending' ≤
      pending.length + s.plainPrefix.length + s.pendingPayload.toList.length := by
  unfold rekeySalt at h
  dsimp only at h
  split at h
  · cases h
  split at h
  · cases h
  · have hle := weight_rekeyFixed h
    simp only [length_drop] at hle
    omega

theorem rekeyRead_ok (h : s.rekeyRead account iv = .ok s') :
    s'.plainPrefix = s.plainPrefix ∧ s'.responseRekey2022 = s.responseRekey2022 ∧
      s'.pendingPayload = s.pendingPayload ∧ s'.input = s.input := by
  unfold rekeyRead at h
  split at h
  · cases h
  · cases h
  · cases h
    exact ⟨rfl, rfl, rfl, rfl⟩

theorem weight_tryOpenChunk (h : s.tryOpenChunk L pending now = .ok (.message m, s', pending')) :
    s'.weight pending' < s.weight pending := by
  unfold tryOpenChunk at h
  split at h
  · next hu =>
    cases h
    have := length_pos_of_ne_nil hu
    simp [weight]
    omega
  · split at h
    · unfold drive2022Rekey at h
      split at h
      · next hs =>
        rw [weight_of_stage hs]
        exact Nat.lt_succ_of_le (weight_rekeySalt h)
      · next hs =>
        rw [weight_of_stage hs]
        exact Nat.lt_succ_of_le (weight_rekeyFixed h)
      · next hs =>
        rw [weight_of_stage hs]
        exact Nat.lt_succ_of_le (weight_rekeyVar h)
      · exact weight_tryOpenChunkBody h
    · split at h
      · exact weight_tryOpenChunkBody h
      split at h
      · cases h
      obtain ⟨s1, hr, h⟩ := bind_ok.mp h
      obtain ⟨h1, h2, h3, -⟩ := rekeyRead_ok hr
      have := weight_tryOpenChunkBody h
      simp only [weight, h1, h2, h3, length_drop] at this ⊢
      omega

inductive Pumped
  | waiting (s : SSStream) (pending : Bytes)
  | ended
  | failed (e : SsError)

def drain (L : Library) (now : UInt64) (s : SSStream) (pending : Bytes) : List Bytes × Pumped :=
  match _h : s.tryOpenChunk L pending now with
  | .error e => ([], .failed e)
  | .ok (.needMore, s, pending) => ([], .waiting s pending)
  | .ok (.ended, _, _) => ([], .ended)
  | .ok (.message m, s, pending) =>
    let q := drain L now s pending
    (m :: q.1, q.2)
termination_by s.weight pending
decreasing_by exact weight_tryOpenChunk _h

theorem drain_of_needMore (h : s.tryOpenChunk L pending now = .ok (.needMore, s', pending')) :
    s.drain L now pending = ([], .waiting s' pending') := by
  rw [drain]
  split <;> simp_all

theorem drain_of_ended (h : s.tryOpenChunk L pending now = .ok (.ended, s', pending')) :
    s.drain L now pending = ([], .ended) := by
  rw [drain]
  split <;> simp_all

theorem drain_of_error (h : s.tryOpenChunk L pending now = .error e) :
    s.drain L now pending = ([], .failed e) := by
  rw [drain]
  split <;> simp_all

theorem drain_of_message (h : s.tryOpenChunk L pending now = .ok (.message m, s', pending')) :
    s.drain L now pending = (m :: (s'.drain L now pending').1, (s'.drain L now pending').2) := by
  rw [drain]
  split <;> simp_all

def pump (L : Library) (s : SSStream) (pending : Bytes) : List (UInt64 × Bytes) →
    List Bytes × Pumped
  | [] => ([], .waiting s pending)
  | (now, piece) :: pieces =>
    match drain L now s (pending ++ piece) with
    | (ms, .waiting s pending) =>
      let q := pump L s pending pieces
      (ms ++ q.1, q.2)
    | (ms, stop) => (ms, stop)

end SSStream

structure ResponseKey where
  psk : Bytes
  kind : CipherKind2022
  requestSalt : Bytes

/-- What is read next. The nonce is that of the last part that was opened. -/
inductive Stage
  | salt
  | fixed (aead : AeadCipher)
  | first (aead : AeadCipher) (len : Nat)
  | size (aead : AeadCipher) (nonce : Bytes)
  | payload (aead : AeadCipher) (nonce : Bytes) (len : Nat)

inductive ReadStop
  | ended
  | failed (e : SsError)

abbrev Stamped := UInt64 × UInt8

def bytes (w : List Stamped) : Bytes := w.map Prod.snd

def clock (w : List Stamped) : UInt64 := (w.getLast?.map Prod.fst).getD 0

@[simp] theorem length_bytes (w : List Stamped) : (bytes w).length = w.length := length_map ..

@[simp] theorem bytes_take (w : List Stamped) (n : Nat) : bytes (w.take n) = (bytes w).take n :=
  map_take ..

@[simp] theorem bytes_drop (w : List Stamped) (n : Nat) : bytes (w.drop n) = (bytes w).drop n :=
  map_drop ..

@[simp] theorem bytes_append (w w' : List Stamped) : bytes (w ++ w') = bytes w ++ bytes w' :=
  map_append

namespace ResponseKey

variable (L : Library) (k : ResponseKey)

def fixedLen : Nat := 1 + 8 + k.kind.saltSize + 2

def need : Stage → Nat
  | .salt => k.kind.saltSize
  | .fixed _ => k.fixedLen + 16
  | .first _ len => len + 16
  | .size _ _ => 2 + 16
  | .payload _ _ len => len + 16

theorem need_pos (stage : Stage) : 0 < k.need stage := by
  cases stage with
  | salt =>
    cases hk : k.kind <;> simp [need, hk, CipherKind2022.saltSize, CipherKind2022.keySize]
  | fixed | first | size | payload => exact Nat.succ_pos _

def sizeStep (aead : AeadCipher) (nonce plain : Bytes) : StageStep Stage Bytes ReadStop :=
  if plain.length < 2 then .stop (.failed (.insufficientData plain.length))
  else if (u16At plain 0).toNat = 0 then .stop .ended
  else .next (.payload aead nonce (u16At plain 0).toNat)

def step : Stage → List Stamped → StageStep Stage Bytes ReadStop
  | .salt, w => .next (.fixed (L.sessionAead k.kind k.psk (bytes w)))
  | .fixed aead, w =>
    match openWire aead (leBytes 12 0) (bytes w) >>=
      (checkFixed k.fixedLen k.requestSalt · (clock w)) with
    | .error e => .stop (.failed e)
    | .ok len => .next (.first aead len)
  | .first aead _, w =>
    match openWire aead (leBytes 12 1) (bytes w) with
    | .error e => .stop (.failed e)
    | .ok plain => .emit plain (.size aead (leBytes 12 1))
  | .size aead nonce, w =>
    match openWire aead (increment nonce) (bytes w) with
    | .error e => .stop (.failed e)
    | .ok plain => sizeStep aead (increment nonce) plain
  | .payload aead nonce _, w =>
    match openWire aead (increment nonce) (bytes w) with
    | .error e => .stop (.failed e)
    | .ok plain => .emit plain (.size aead (increment nonce))

def reader : StagedReader Stage Stamped Bytes ReadStop := ⟨k.need, k.need_pos, k.step L⟩

/-- The read side holds the cipher and the nonce, and nothing comes before the wire. -/
structure Keyed (s : SSStream) (aead : AeadCipher) (nonce : Bytes) (payload : Option Nat) :
    Prop where
  plainPrefix : s.plainPrefix = []
  responseRekey : s.responseRekey = none
  readAead : s.readAead = aead
  readNonce : s.readNonce = nonce
  tagSize : s.tagSize = 16
  pendingPayload : s.pendingPayload = payload

inductive Refines : Stage → SSStream → Prop
  | salt : s.plainPrefix = [] → s.responseRekey = none → s.pendingPayload = none →
    s.responseRekey2022 = some (.salt k.psk k.kind k.requestSalt) → Refines .salt s
  | fixed : Keyed s aead (replicate 12 0xFF) none →
    s.responseRekey2022 = some (.fixed k.fixedLen k.requestSalt) → Refines (.fixed aead) s
  | first : Keyed s aead (leBytes 12 0) none → s.responseRekey2022 = some (.var len) →
    Refines (.first aead len) s
  | size : Keyed s aead nonce none → s.responseRekey2022 = none → Refines (.size aead nonce) s
  | payload : Keyed s aead nonce (some (len + 16)) → s.responseRekey2022 = none →
    Refines (.payload aead nonce len) s

inductive Simulates (now : UInt64) :
    Polled Stage Stamped Bytes ReadStop → Except SsError SSStream.Opened → Prop
  | waiting : Refines k stage s →
    Simulates now (.waiting stage rest) (.ok (.needMore, s, bytes rest))
  | message : Refines k stage s → (∀ x ∈ rest, x.1 = now) →
    Simulates now (.message m stage rest) (.ok (.message m, s, bytes rest))
  | ended : Simulates now (.stopped .ended) (.ok (.ended, s, pending))
  | failed : Simulates now (.stopped (.failed e)) (.error e)

/-- From the byte on that completes the stage, all came in the second `now`. -/
def Fresh (now : UInt64) (n : Nat) (input : List Stamped) : Prop :=
  ∀ x ∈ input.drop (n - 1), x.1 = now

variable {L k} {s : SSStream} {aead : AeadCipher} {nonce : Bytes} {input : List Stamped}
  {now : UInt64} {n : Nat}

theorem Fresh.drop (h : Fresh now n input) : ∀ x ∈ input.drop n, x.1 = now := by
  intro x hx
  refine h x ?_
  have hle : n - 1 ≤ n := Nat.sub_le ..
  obtain ⟨d, hd⟩ := Nat.exists_eq_add_of_le hle
  rw [hd, ← drop_drop] at hx
  exact mem_of_mem_drop hx

theorem fresh_of_all (h : ∀ x ∈ input, x.1 = now) (n : Nat) : Fresh now n input :=
  fun x hx => h x (mem_of_mem_drop hx)

theorem Fresh.clock_take (h : Fresh now n input) (hp : 0 < n) (hle : n ≤ input.length) :
    clock (input.take n) = now := by
  have hl : (input.take n).getLast? = some (input.get ⟨n - 1, by omega⟩) := by
    rw [getLast?_eq_getElem?, length_take, min_eq_left hle,
      getElem?_take_of_lt (by omega), getElem?_eq_getElem (by omega)]
    rfl
  rw [clock, hl]
  refine h _ ?_
  rw [drop_eq_getElem_cons (show n - 1 < input.length by omega)]
  exact mem_cons_self ..

section

variable (h : Keyed s aead nonce payload)

include h

theorem Keyed.openPart (wire : Bytes) : s.openPart wire = (openWire aead (increment nonce) wire).map
    (·, { s with readNonce := increment nonce }) := by
  rw [SSStream.openPart, h.readAead, h.readNonce]
  rfl

theorem Keyed.opened (nonce' : Bytes) : Keyed { s with readNonce := nonce' } aead nonce' payload :=
  ⟨h.plainPrefix, h.responseRekey, h.readAead, rfl, h.tagSize, h.pendingPayload⟩

theorem Keyed.withPayload
    (payload' : Option Nat) : Keyed { s with pendingPayload := payload' } aead nonce payload' :=
  ⟨h.plainPrefix, h.responseRekey, h.readAead, h.readNonce, h.tagSize, rfl⟩

theorem Keyed.withStage
    (stage : Option Rekey2022) : Keyed { s with responseRekey2022 := stage } aead nonce payload :=
  ⟨h.plainPrefix, h.responseRekey, h.readAead, h.readNonce, h.tagSize, h.pendingPayload⟩

end

theorem simulates_poll (hs : k.Refines stage s)
    (h : k.need stage ≤ input.length → Simulates k now ((k.reader L).poll stage input) result) :
    Simulates k now ((k.reader L).poll stage input)
      (if (bytes input).length < k.need stage then .ok (.needMore, s, bytes input) else result) := by
  rw [length_bytes]
  split
  · next hl =>
    rw [poll_of_lt hl]
    exact .waiting hs
  · next hl => exact h (not_lt.mp hl)

theorem simulates_openPayload (hw : wireLen = len + 16)
    (h : Keyed s aead nonce (some wireLen)) (hs : s.responseRekey2022 = none)
    (hf : Fresh now (len + 16) input) :
    Simulates k now ((k.reader L).poll (.payload aead nonce len) input)
      (s.openPayload (bytes input) wireLen) := by
  subst hw
  refine simulates_poll (.payload h hs) fun hle => ?_
  rw [poll_of_le hle]
  simp only [reader, need, step, bytes_take, (h.withPayload none).openPart]
  cases openWire aead (increment nonce) ((bytes input).take (len + 16)) with
  | error e => exact .failed
  | ok p =>
    rw [← bytes_drop]
    exact .message (.size ((h.withPayload none).opened _) hs) hf.drop

theorem simulates_size (h : Keyed s aead nonce none) (hs : s.responseRekey2022 = none)
    (hf : Fresh now (2 + 16) input) : Simulates k now ((k.reader L).poll (.size aead nonce) input)
      (s.tryOpenChunkBody (bytes input)) := by
  unfold tryOpenChunkBody
  rw [h.pendingPayload]
  rw [h.tagSize]
  refine simulates_poll (.size h hs) fun hle => ?_
  rw [poll_of_le hle]
  simp only [reader, need, step, bytes_take, h.openPart]
  cases openWire aead (increment nonce) ((bytes input).take (2 + 16)) with
  | error e => exact .failed
  | ok p =>
    unfold sizeStep
    simp only [Except.map, ok_bind]
    split_ifs with hsh hz
    · exact .failed
    · exact .ended
    · rw [← bytes_drop]
      exact simulates_openPayload (by rw [h.tagSize]) ((h.opened (increment nonce)).withPayload _)
        hs (fresh_of_all hf.drop _)

theorem simulates_rekeyVar (h : Keyed s aead (leBytes 12 0) none)
    (hf : Fresh now (len + 16) input) :
    Simulates k now ((k.reader L).poll (.first aead len) input) (s.rekeyVar (bytes input) len) := by
  have hw : len + s.tagSize = len + 16 := by rw [h.tagSize]
  unfold rekeyVar
  simp only [hw]
  refine simulates_poll (.first (h.withStage _) rfl) fun hle => ?_
  rw [poll_of_le hle]
  have hn : increment (leBytes 12 0) = leBytes 12 1 := increment_leBytes 12 0
  simp only [reader, need, step, bytes_take, ← hn, (h.withStage none).openPart]
  cases openWire aead (increment (leBytes 12 0)) ((bytes input).take (len + 16)) with
  | error e => exact .failed
  | ok p =>
    rw [← bytes_drop]
    exact .message (.size ((h.withStage none).opened _) rfl) hf.drop

theorem simulates_rekeyFixed (h : Keyed s aead (replicate 12 0xFF) none)
    (hf : Fresh now (k.fixedLen + 16) input) :
    Simulates k now ((k.reader L).poll (.fixed aead) input)
      (s.rekeyFixed (bytes input) k.fixedLen k.requestSalt now) := by
  have hw : k.fixedLen + s.tagSize = k.fixedLen + 16 := by rw [h.tagSize]
  unfold rekeyFixed
  simp only [hw]
  refine simulates_poll (.fixed (h.withStage _) rfl) fun hle => ?_
  rw [poll_of_le hle]
  have hn : increment (replicate 12 0xFF) = leBytes 12 0 := by decide
  simp only [reader, need, step, bytes_take, ← hn, (h.withStage none).openPart]
  rw [hf.clock_take (Nat.succ_pos _) hle]
  cases openWire aead (increment (replicate 12 0xFF)) ((bytes input).take (k.fixedLen + 16)) with
  | error e => exact .failed
  | ok p =>
    simp only [Except.map, ok_bind]
    cases checkFixed k.fixedLen k.requestSalt p now with
    | error e => exact .failed
    | ok len =>
      rw [← bytes_drop]
      have hop := (h.withStage none).opened (increment (replicate 12 0xFF))
      exact simulates_rekeyVar (hn ▸ hop) (fresh_of_all hf.drop _)

theorem simulates_rekeySalt (hu : s.plainPrefix = []) (hr : s.responseRekey = none)
    (hp : s.pendingPayload = none) (hf : Fresh now k.kind.saltSize input) :
    Simulates k now ((k.reader L).poll .salt input)
      (s.rekeySalt L (bytes input) k.psk k.kind k.requestSalt now) := by
  refine simulates_poll (.salt hu hr hp rfl) fun hle => ?_
  rw [poll_of_le hle]
  simp only [reader, need, step, bytes_take]
  rw [L.buildAead_deriveSessionSubkey]
  dsimp only
  rw [← bytes_drop, L.nonceSize_sessionAead, L.tagSize_sessionAead]
  exact simulates_rekeyFixed ⟨hu, hr, rfl, rfl, rfl, hp⟩ (fresh_of_all hf.drop _)

theorem simulates_tryOpenChunk (h : k.Refines stage s) (hf : Fresh now (k.need stage) input) :
    Simulates k now ((k.reader L).poll stage input) (s.tryOpenChunk L (bytes input) now) := by
  have hu : s.plainPrefix = [] := by
    cases h with
    | salt hu => exact hu
    | fixed h | first h | size h | payload h => exact h.plainPrefix
  unfold tryOpenChunk drive2022Rekey
  rw [if_neg (not_not_intro hu)]
  cases h with
  | salt hu hr hp hs =>
    simp only [hs, Option.isSome_some, if_true]
    exact simulates_rekeySalt hu hr hp hf
  | fixed h hs =>
    simp only [hs, Option.isSome_some, if_true]
    exact simulates_rekeyFixed h hf
  | first h hs =>
    simp only [hs, Option.isSome_some, if_true]
    exact simulates_rekeyVar h hf
  | size h hs =>
    simp only [hs, Option.isSome_none, Bool.false_eq_true, if_false, h.responseRekey]
    exact simulates_size h hs hf
  | payload h hs =>
    simp only [hs, Option.isSome_none, Bool.false_eq_true, if_false, h.responseRekey]
    unfold tryOpenChunkBody
    simp only [h.pendingPayload]
    exact simulates_openPayload rfl h hs hf

variable (k) in
inductive Follows :
    List Bytes × Reading Stage Stamped ReadStop → List Bytes × SSStream.Pumped → Prop
  | waiting {s : SSStream} : Refines k stage s → rest.length < k.need stage →
    Follows (ms, .waiting stage rest) (ms, .waiting s (bytes rest))
  | ended : Follows (ms, .stopped .ended) (ms, .ended)
  | failed : Follows (ms, .stopped (.failed e)) (ms, .failed e)

theorem Follows.fst_eq (h : k.Follows q p) : q.1 = p.1 := by
  cases h with
  | waiting | ended | failed => rfl

theorem Follows.append (h : k.Follows q p) (ms : List Bytes) :
    k.Follows (ms ++ q.1, q.2) (ms ++ p.1, p.2) := by
  cases h with
  | waiting h hlt => exact .waiting h hlt
  | ended => exact .ended
  | failed => exact .failed

theorem follows_drain (h : k.Refines stage s) (hf : Fresh now (k.need stage) input) :
    k.Follows ((k.reader L).read stage input) (s.drain L now (bytes input)) := by
  induction hn : input.length using Nat.strong_induction_on generalizing stage s input with
  | h n ih =>
  have hs : Simulates k now _ _ := simulates_tryOpenChunk (L := L) h hf
  generalize hp : (k.reader L).poll stage input = polled at hs
  generalize hc : s.tryOpenChunk L (bytes input) now = result at hs
  cases hs with
  | waiting h' =>
    rw [read_of_waiting hp, drain_of_needMore hc]
    exact .waiting h' (length_lt_of_waiting hp)
  | message h' hall =>
    have hlt := length_lt_of_message hp
    rw [read_of_message hp, drain_of_message hc]
    exact (ih _ (hn ▸ hlt) h' (fresh_of_all hall _) rfl).append [_]
  | ended =>
    rw [read_of_stopped hp, drain_of_ended hc]
    exact .ended
  | failed =>
    rw [read_of_stopped hp, drain_of_error hc]
    exact .failed

def stamped (pieces : List (UInt64 × Bytes)) : List Stamped :=
  pieces.flatMap fun piece => piece.2.map (piece.1, ·)

theorem fresh_append (h : rest.length < n) (now : UInt64) (piece : Bytes) :
    Fresh now n (rest ++ piece.map (now, ·)) := by
  intro x hx
  rw [drop_append, drop_eq_nil_of_le (by omega), nil_append] at hx
  obtain ⟨b, -, rfl⟩ := mem_map.mp (mem_of_mem_drop hx)
  rfl

theorem follows_pump (h : k.Refines stage s)
    (hrest : rest.length < k.need stage) (ps : List (UInt64 × Bytes)) :
    k.Follows ((k.reader L).read stage (rest ++ stamped ps)) (s.pump L (bytes rest) ps) := by
  induction ps generalizing stage s rest with
  | nil =>
    rw [stamped, flatMap_nil, append_nil, read_of_waiting (poll_of_lt hrest)]
    exact .waiting h hrest
  | cons pi ps ih =>
    obtain ⟨now, pi⟩ := pi
    have hb : bytes rest ++ pi = bytes (rest ++ pi.map (now, ·)) := by
      simp [bytes, Function.comp_def]
    rw [stamped, flatMap_cons, ← append_assoc, read_append]
    unfold pump
    rw [hb]
    have hd := follows_drain (L := L) h (fresh_append hrest now pi)
    generalize (k.reader L).read stage (rest ++ pi.map (now, ·)) = q at hd
    generalize s.drain L now (bytes (rest ++ pi.map (now, ·))) = p at hd
    cases hd with
    | waiting h' hrest' => exact (ih h' hrest').append _
    | ended => exact .ended
    | failed => exact .failed

theorem follows_pump_nil (h : k.Refines .salt s) (ps : List (UInt64 × Bytes)) :
    k.Follows ((k.reader L).read .salt (stamped ps)) (s.pump L [] ps) :=
  have hn : ([] : List Stamped).length < k.need .salt := k.need_pos _
  follows_pump h hn ps

theorem pump_of_read_waiting (h : k.Refines .salt s)
    (hr : (k.reader L).read .salt (stamped pieces) = (ms, .waiting stage rest)) :
    ∃ s' pending, s.pump L [] pieces = (ms, .waiting s' pending) := by
  have hf := follows_pump_nil (L := L) h pieces
  rw [hr] at hf
  generalize s.pump L [] pieces = pumped at hf
  cases hf with
  | waiting => exact ⟨_, _, rfl⟩

end ResponseKey

end XrayCore.Shadowsocks
