import XrayCore.Shadowsocks.Key
import XrayCore.Shadowsocks.SlidingWindow

/-!
# The client of a Shadowsocks 2022 UDP session

A client keeps two generations of server sessions, each with a cipher and a window of packet ids. A
datagram with a session id that is neither starts a new generation, at most once in 60 s. With AES
the session id is not authenticated when the generation is chosen, and what the choice changes is
not taken back when the datagram is refused later.
-/

namespace XrayCore.Shadowsocks

open Lib Crypto Net Library

def MIN_PLAINTEXT : Nat := 1 + 8 + 2 + 7

def PACKET_HEADER_LEN : Nat := 16

def UDP_CHACHA_NONCE_SIZE : Nat := 24

def TIMESTAMP_TOLERANCE_SECS : Int := 30

def HEADER_TYPE_SERVER : UInt8 := 1

def asI64 (x : Int) : Int := x.bmod (2 ^ 64)

def absI64 (x : Int) : Int := asI64 x.natAbs

def i64At (b : Bytes) (off : Nat) : Int := (u64At b off).toBitVec.toInt

def pkHeader (sessionId packetId : UInt64) : Bytes := be64 sessionId ++ be64 packetId

def parseServerPlaintext (plain : Bytes) (expectClientSessionId : UInt64) (now : Int) :
    Except SsError (Address × Port × Bytes) :=
  if plain.length < MIN_PLAINTEXT + 8 then .error (.insufficientData plain.length)
  else if byteAt plain 0 ≠ HEADER_TYPE_SERVER then
    .error (.ss2022InvalidHeaderType (byteAt plain 0))
  else
    let diff := absI64 (asI64 (now - i64At plain 1))
    if TIMESTAMP_TOLERANCE_SECS < diff then .error (.ss2022TimestampCheck s!"diff {diff}s")
    else if u64At plain 9 ≠ expectClientSessionId then .error .ss2022BadClientSessionId
    else
      let pad := (u16At plain 17).toNat
      let plain := plain.drop 19
      if plain.length < pad then .error (.insufficientData plain.length)
      else do
        let plain := plain.drop pad
        let (addr, port, used) ← readAddressPortSs plain
        return (addr, port, plain.drop used)

structure RemoteState where
  remoteSessionId : UInt64
  remoteCipher : Option AeadCipher
  lastRemoteSessionId : UInt64
  lastRemoteCipher : Option AeadCipher
  lastRemoteSeen : Int
  window : SlidingWindow
  lastWindow : SlidingWindow

def RemoteState.new : RemoteState := ⟨0, none, 0, none, 0, .default, .default⟩

inductive RemoteSlot
  | current
  | previous
  | new
  deriving DecidableEq

structure ClientUdpSession2022 where
  kind : CipherKind2022
  pskList : List Bytes
  sessionId : UInt64
  cipher : AeadCipher

def udpAead (L : Library) (kind : CipherKind2022) (psk sessionSalt : Bytes) :
    Except SsError AeadCipher :=
  (match kind with
    | .aes128Gcm => L.newAes128Gcm (L.deriveSessionSubkey psk sessionSalt kind)
    | .aes256Gcm => L.newAes256Gcm (L.deriveSessionSubkey psk sessionSalt kind)
    | .chaCha20Poly1305 => L.newXChaCha20Poly1305 psk).mapError
      fun e : CryptoError => .aesGcmInit e.toString

namespace RemoteState

/-- The generation a session id belongs to. A new one moves the current one back. -/
def routeRemoteGeneration (st : RemoteState) (sessionId : UInt64) (now : Int) :
    Except SsError RemoteSlot × RemoteState :=
  if sessionId ≠ 0 ∧ sessionId = st.remoteSessionId then (.ok .current, st)
  else if sessionId ≠ 0 ∧ sessionId = st.lastRemoteSessionId then
    (.ok .previous, { st with lastRemoteSeen := now })
  else if st.remoteSessionId ≠ 0 then
    if asI64 (now - st.lastRemoteSeen) < 60 then (.error .ss2022TooManyServerSessions, st)
    else
      (.ok .new, {
        remoteSessionId := sessionId
        remoteCipher := none
        lastRemoteSessionId := st.remoteSessionId
        lastRemoteCipher := st.remoteCipher
        lastRemoteSeen := now
        window := .default
        lastWindow := st.window })
  else (.ok .new, { st with remoteSessionId := sessionId })

def slotWindow (st : RemoteState) : RemoteSlot → SlidingWindow
  | .previous => st.lastWindow
  | .current | .new => st.window

def slotCipher (st : RemoteState) : RemoteSlot → Option AeadCipher
  | .previous => st.lastRemoteCipher
  | .current | .new => st.remoteCipher

def addTo (st : RemoteState) (slot : RemoteSlot) (packetId : UInt64) : RemoteState :=
  match slot with
  | .previous => { st with lastWindow := st.lastWindow.add packetId }
  | .current | .new => { st with window := st.window.add packetId }

def openFrame (st : RemoteState) (slot : RemoteSlot) (nonce body : Bytes) : Except SsError Bytes :=
  if nonce = [] then .ok body
  else
    match st.slotCipher slot with
    | none => .error (.aeadOpen "remote cipher missing")
    | some cipher => (cipher.openBytes nonce [] body).mapError fun e => .aeadOpen e.toString

def decodeServerFrame (st : RemoteState) (slot : RemoteSlot) (nonce : Bytes) (packetId : UInt64)
    (body : Bytes) (expectClientSessionId : UInt64) (now : Int) :
    Except SsError (Address × Port × Bytes) × RemoteState :=
  if !(st.slotWindow slot).check packetId then (.error .ss2022PacketIdNotUnique, st)
  else
    match st.openFrame slot nonce body >>= (parseServerPlaintext · expectClientSessionId now) with
    | .error e => (.error e, st)
    | .ok r => (.ok r, st.addTo slot packetId)

theorem decodeServerFrame_cases (st : RemoteState) (slot : RemoteSlot) (nonce : Bytes)
    (pid : UInt64) (body : Bytes) (expect : UInt64) (now : Int) :
    (∃ e, st.decodeServerFrame slot nonce pid body expect now = (.error e, st)) ∨
    ∃ plain r, (st.slotWindow slot).check pid = true ∧
      st.openFrame slot nonce body = .ok plain ∧ parseServerPlaintext plain expect now = .ok r ∧
      st.decodeServerFrame slot nonce pid body expect now = (.ok r, st.addTo slot pid) := by
  unfold decodeServerFrame
  cases hc : (st.slotWindow slot).check pid with
  | false => exact .inl ⟨_, rfl⟩
  | true =>
    cases ho : st.openFrame slot nonce body with
    | error e => exact .inl ⟨e, rfl⟩
    | ok plain =>
      cases hp : parseServerPlaintext plain expect now with
      | error e => exact .inl ⟨e, by simp [bind, Except.bind, hp]⟩
      | ok r => exact .inr ⟨plain, r, rfl, rfl, hp, by simp [bind, Except.bind, hp]⟩

end RemoteState

namespace ClientUdpSession2022

def finalPsk (c : ClientUdpSession2022) : Bytes := c.pskList.getD (c.pskList.length - 1) []

structure Frame where
  sessionId : UInt64
  packetId : UInt64
  nonce : Bytes
  body : Bytes
  deriving DecidableEq

def frameAes (L : Library) (c : ClientUdpSession2022) (pkt : Bytes) : Except SsError Frame :=
  if pkt.length < PACKET_HEADER_LEN + MIN_PLAINTEXT then .error (.insufficientData pkt.length)
  else
    let hdr := L.ecbBlock c.kind c.finalPsk (pkt.take 16) false
    .ok ⟨u64At hdr 0, u64At hdr 8, (hdr.drop 4).take 12, pkt.drop PACKET_HEADER_LEN⟩

def frameChacha (c : ClientUdpSession2022) (pkt : Bytes) : Except SsError Frame :=
  if pkt.length < UDP_CHACHA_NONCE_SIZE + PACKET_HEADER_LEN + MIN_PLAINTEXT then
    .error (.insufficientData pkt.length)
  else
    match c.cipher.openBytes (pkt.take UDP_CHACHA_NONCE_SIZE) []
      (pkt.drop UDP_CHACHA_NONCE_SIZE) with
    | .error e => .error (.aeadOpen e.toString)
    | .ok plain =>
      if plain.length < PACKET_HEADER_LEN + MIN_PLAINTEXT then
        .error (.insufficientData plain.length)
      else .ok ⟨u64At plain 0, u64At plain 8, [], plain.drop PACKET_HEADER_LEN⟩

def frame (L : Library) (c : ClientUdpSession2022) (pkt : Bytes) : Except SsError Frame :=
  if c.kind = .chaCha20Poly1305 then c.frameChacha pkt else c.frameAes L pkt

def withCipher (L : Library) (c : ClientUdpSession2022) (st : RemoteState) (slot : RemoteSlot)
    (sessionId : UInt64) : Except SsError RemoteState :=
  if slot = .new ∧ c.kind ≠ .chaCha20Poly1305 then do
    let cipher ← udpAead L c.kind c.finalPsk (be64 sessionId)
    return { st with remoteCipher := some cipher }
  else .ok st

def decodeInto (L : Library) (c : ClientUdpSession2022) (st : RemoteState) (pkt : Bytes)
    (now : Int) : Except SsError (Address × Port × Bytes) × RemoteState :=
  match c.frame L pkt with
  | .error e => (.error e, st)
  | .ok f =>
    match st.routeRemoteGeneration f.sessionId now with
    | (.error e, st) => (.error e, st)
    | (.ok slot, st) =>
      match c.withCipher L st slot f.sessionId with
      | .error e => (.error e, st)
      | .ok st => st.decodeServerFrame slot f.nonce f.packetId f.body c.sessionId now

variable {L : Library} {c : ClientUdpSession2022} {st : RemoteState} {pkt : Bytes} {now : Int}

theorem udpAead_eq {kind : CipherKind2022} (hk : kind ≠ .chaCha20Poly1305) (psk salt : Bytes) :
    udpAead L kind psk salt = .ok (L.sessionAead kind psk salt) := by
  rw [← buildAead_deriveSessionSubkey]
  cases kind with
  | aes128Gcm | aes256Gcm => rfl
  | chaCha20Poly1305 => exact absurd rfl hk

def cipherOf (L : Library) (c : ClientUdpSession2022) (sessionId : UInt64) : AeadCipher :=
  L.sessionAead c.kind c.finalPsk (be64 sessionId)

theorem withCipher_new (sid : UInt64) :
    c.withCipher L st .new sid = .ok (if c.kind = .chaCha20Poly1305 then st
      else { st with remoteCipher := some (cipherOf L c sid) }) := by
  by_cases hk : c.kind = .chaCha20Poly1305
  · simp [withCipher, hk]
  · simp [withCipher, hk, udpAead_eq hk, cipherOf]

theorem withCipher_known (h : slot ≠ .new) (sid : UInt64) :
    c.withCipher L st slot sid = .ok st := by
  simp [withCipher, h]

inductive Routed (L : Library) (c : ClientUdpSession2022) (st : RemoteState) (sessionId : UInt64)
    (now : Int) : RemoteSlot → RemoteState → Prop
  | current : sessionId ≠ 0 → sessionId = st.remoteSessionId →
    Routed L c st sessionId now .current st
  | previous : sessionId ≠ 0 → sessionId ≠ st.remoteSessionId → sessionId = st.lastRemoteSessionId →
    Routed L c st sessionId now .previous { st with lastRemoteSeen := now }
  | rotated : (sessionId = 0 ∨ sessionId ≠ st.remoteSessionId) →
    (sessionId = 0 ∨ sessionId ≠ st.lastRemoteSessionId) → st.remoteSessionId ≠ 0 →
    60 ≤ asI64 (now - st.lastRemoteSeen) →
    Routed L c st sessionId now .new {
      remoteSessionId := sessionId
      remoteCipher := if c.kind = .chaCha20Poly1305 then none else some (cipherOf L c sessionId)
      lastRemoteSessionId := st.remoteSessionId
      lastRemoteCipher := st.remoteCipher
      lastRemoteSeen := now
      window := .default
      lastWindow := st.window }
  | first : (sessionId = 0 ∨ sessionId ≠ st.lastRemoteSessionId) → st.remoteSessionId = 0 →
    Routed L c st sessionId now .new { st with
      remoteSessionId := sessionId
      remoteCipher := if c.kind = .chaCha20Poly1305 then st.remoteCipher
        else some (cipherOf L c sessionId) }

structure TooManySessions (st : RemoteState) (sessionId : UInt64) (now : Int) : Prop where
  notCurrent : sessionId = 0 ∨ sessionId ≠ st.remoteSessionId
  notPrevious : sessionId = 0 ∨ sessionId ≠ st.lastRemoteSessionId
  started : st.remoteSessionId ≠ 0
  recent : asI64 (now - st.lastRemoteSeen) < 60

theorem decodeInto_cases (L : Library) (c : ClientUdpSession2022) (st : RemoteState) (pkt : Bytes)
    (now : Int) : (∃ e, c.frame L pkt = .error e ∧ c.decodeInto L st pkt now = (.error e, st)) ∨
    ∃ f, c.frame L pkt = .ok f ∧ (TooManySessions st f.sessionId now ∧
        c.decodeInto L st pkt now = (.error .ss2022TooManyServerSessions, st) ∨
      ∃ slot st', Routed L c st f.sessionId now slot st' ∧ c.decodeInto L st pkt now =
        st'.decodeServerFrame slot f.nonce f.packetId f.body c.sessionId now) := by
  unfold decodeInto
  cases hf : c.frame L pkt with
  | error e => exact .inl ⟨e, rfl, rfl⟩
  | ok f =>
    refine .inr ⟨f, rfl, ?_⟩
    unfold RemoteState.routeRemoteGeneration
    dsimp only
    split_ifs with hc hp hs hr
    · refine .inr ⟨.current, st, .current hc.1 hc.2, ?_⟩
      simp [withCipher_known, reduceCtorEq]
    · refine .inr ⟨.previous, _, .previous hp.1 (fun h => hc ⟨hp.1, h⟩) hp.2, ?_⟩
      simp [withCipher_known, reduceCtorEq]
    · exact .inl ⟨⟨by tauto, by tauto, hs, hr⟩, rfl⟩
    · refine .inr ⟨.new, _, .rotated (by tauto) (by tauto) hs (Int.not_lt.mp hr), ?_⟩
      simp only [withCipher_new]
      split_ifs <;> rfl
    · refine .inr ⟨.new, _, .first (by tauto) (not_not.mp hs), ?_⟩
      simp only [withCipher_new]
      split_ifs <;> rfl

/-- The datagram is refused before its session id counts, or the id changes nothing: it is
the current one, the previous one seen in this very second, a new one that comes too early,
or the id 0 that stands for none. -/
inductive LeavesState (L : Library) (c : ClientUdpSession2022) (st : RemoteState) (pkt : Bytes)
    (now : Int) : Prop
  | unread : c.frame L pkt = .error e → LeavesState L c st pkt now
  | current : c.frame L pkt = .ok f → f.sessionId ≠ 0 → f.sessionId = st.remoteSessionId →
    LeavesState L c st pkt now
  | previous : c.frame L pkt = .ok f → f.sessionId ≠ 0 → f.sessionId ≠ st.remoteSessionId →
    f.sessionId = st.lastRemoteSessionId → st.lastRemoteSeen = now → LeavesState L c st pkt now
  | tooMany : c.frame L pkt = .ok f → TooManySessions st f.sessionId now →
    LeavesState L c st pkt now
  | zero : c.frame L pkt = .ok f → f.sessionId = 0 → st.remoteSessionId = 0 →
    (c.kind = .chaCha20Poly1305 ∨ st.remoteCipher = some (cipherOf L c 0)) →
    LeavesState L c st pkt now

section Routed

variable {f : Frame} {slot : RemoteSlot} {st' : RemoteState}
  (h : Routed L c st f.sessionId now slot st') (hf : c.frame L pkt = .ok f)

include h hf

theorem Routed.leavesState (heq : st' = st) : LeavesState L c st pkt now := by
  cases h with
  | current hne hcu => exact .current hf hne hcu
  | previous hne hcu hp =>
    exact .previous hf hne hcu hp (congrArg RemoteState.lastRemoteSeen heq).symm
  | rotated hcu _ hs _ =>
    have hid : f.sessionId = st.remoteSessionId := congrArg RemoteState.remoteSessionId heq
    obtain hz | hne := hcu
    · exact absurd (hid.symm.trans hz) hs
    · exact absurd hid hne
  | first hp hn =>
    have hid : f.sessionId = st.remoteSessionId := congrArg RemoteState.remoteSessionId heq
    have hc := congrArg RemoteState.remoteCipher heq
    refine .zero hf (hid.trans hn) hn ?_
    by_cases hk : c.kind = .chaCha20Poly1305
    · exact .inl hk
    · simp only [hk, if_false, hid.trans hn] at hc
      exact .inr hc.symm

theorem Routed.eq_of_leavesState (hl : LeavesState L c st pkt now) : st' = st := by
  have hfr {f' : Frame} (hf' : c.frame L pkt = .ok f') : f' = f := by
    rw [hf] at hf'
    exact (Except.ok.inj hf').symm
  cases hl with
  | unread hb =>
    rw [hf] at hb
    cases hb
  | current hf' hne hid =>
    obtain rfl := hfr hf'
    cases h with
    | current => rfl
    | previous _ hcu => exact absurd hid hcu
    | rotated hcu => exact absurd hid (hcu.resolve_left hne)
    | first _ hn => exact absurd (hid.trans hn) hne
  | previous hf' hne hcu hid hs =>
    obtain rfl := hfr hf'
    cases h with
    | current _ hid' => exact absurd hid' hcu
    | previous => rw [← hs]
    | rotated _ hp | first hp => exact absurd hid (hp.resolve_left hne)
  | tooMany hf' hm =>
    obtain rfl := hfr hf'
    cases h with
    | current hne hid => exact absurd hid (hm.notCurrent.resolve_left hne)
    | previous hne _ hid => exact absurd hid (hm.notPrevious.resolve_left hne)
    | rotated _ _ _ hla => exact absurd hm.recent (Int.not_lt.mpr hla)
    | first _ hn => exact absurd hn hm.started
  | zero hf' hz hn hc =>
    obtain rfl := hfr hf'
    cases h with
    | current hne | previous hne => exact absurd hz hne
    | rotated _ _ hst => exact absurd hn hst
    | first =>
      obtain ⟨id, ci, _, _, _, _, _⟩ := st
      by_cases hk : c.kind = .chaCha20Poly1305 <;> simp_all

end Routed

/-- A refused datagram leaves the state as it was exactly in the cases of `LeavesState`. -/
theorem state_kept_iff (L : Library) (c : ClientUdpSession2022) (st : RemoteState) (pkt : Bytes)
    (now : Int) (e : SsError) (hfail : (c.decodeInto L st pkt now).1 = .error e) :
    (c.decodeInto L st pkt now).2 = st ↔ LeavesState L c st pkt now := by
  obtain ⟨e', hf, hstep⟩ | ⟨f, hf, ⟨hmany, hstep⟩ | ⟨slot, st', hroute, hstep⟩⟩ :=
    decodeInto_cases L c st pkt now
  · rw [hstep]
    exact ⟨fun _ => .unread hf, fun _ => rfl⟩
  · rw [hstep]
    exact ⟨fun _ => .tooMany hf hmany, fun _ => rfl⟩
  · obtain ⟨e', hframe⟩ | ⟨_, r, _, _, _, hframe⟩ :=
      st'.decodeServerFrame_cases slot f.nonce f.packetId f.body c.sessionId now
    · rw [hstep, hframe]
      exact ⟨hroute.leavesState hf, hroute.eq_of_leavesState hf⟩
    · rw [hstep, hframe] at hfail
      cases hfail

def demoClient : ClientUdpSession2022 :=
  ⟨.aes128Gcm, [List.replicate 16 0], 3, clear.aes128Gcm.cipher 12 []⟩

def garbage (sessionId : UInt64) : Bytes := pkHeader sessionId 0 ++ List.replicate 40 1

def genuine (sessionId : UInt64) : Bytes :=
  pkHeader sessionId 0 ++ (1 :: (be64 1000 ++ be64 3 ++ be16 0 ++ [1, 1, 2, 3, 4] ++ be16 53)) ++
    zeroTag

def afterGarbage : RemoteState :=
  (demoClient.decodeInto clear
    (demoClient.decodeInto clear .new (garbage 5) 1000).2 (garbage 6) 1000).2

/-- Two datagrams that do not authenticate take both generations, and the first packet of a genuine
session is refused. -/
theorem garbage_blocks_session : (demoClient.decodeInto clear .new (garbage 5) 1000).1 =
      .error (.aeadOpen (CryptoError.toString .authenticationFailed)) ∧
    (demoClient.decodeInto clear .new (garbage 5) 1000).2.remoteSessionId = 5 ∧
    (demoClient.decodeInto clear afterGarbage (genuine 9) 1000).1 =
      .error .ss2022TooManyServerSessions ∧
    (demoClient.decodeInto clear .new (genuine 9) 1000).1 = .ok (.ipv4 (.new 1 2 3 4), 53, []) := by
  decide +kernel

def afterGenuine : RemoteState := (demoClient.decodeInto clear .new (genuine 9) 1000).2

/-- A damaged datagram of the current session changes nothing. -/
theorem state_kept_damaged :
    (demoClient.decodeInto clear afterGenuine (garbage 9) 1000).2 = afterGenuine := by
  have hfail : (demoClient.decodeInto clear afterGenuine (garbage 9) 1000).1 =
      .error .ss2022PacketIdNotUnique := by
    decide +kernel
  have hframe : demoClient.frame clear (garbage 9) =
      .ok ⟨9, 0, (pkHeader 9 0).drop 4, List.replicate 40 1⟩ := by
    decide +kernel
  refine (state_kept_iff _ _ _ _ _ _ hfail).mpr (.current hframe (by decide) ?_)
  decide +kernel

end ClientUdpSession2022

end XrayCore.Shadowsocks
