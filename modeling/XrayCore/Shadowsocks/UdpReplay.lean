import XrayCore.Shadowsocks.UdpSession

/-!
# Replayed datagrams

A client over any sequence of datagrams: packets of server sessions, in any order and any number of
times, and garbage. Only what a server sealed opens.

The window of a session is dropped when two newer sessions have come, 60 s apart. By then the
timestamp of every packet that the window knew has run out, except in the one second in which the
limits meet, and then only a datagram that names the session id 0, which the code reads as no
session, changes sessions once more.
-/

namespace XrayCore.Shadowsocks

open Lib Crypto List

structure Datagram where
  pkt : Bytes
  now : Int

structure Delivery where
  sessionId : UInt64
  packetId : UInt64
  time : Int

namespace UdpReplay

open ClientUdpSession2022

structure Client where
  st : RemoteState
  delivered : List Delivery

def Client.new : Client := ⟨.new, []⟩

def Delivery.id (d : Delivery) : UInt64 × UInt64 := (d.sessionId, d.packetId)

def NoReplay (s : Client) : Prop := (s.delivered.map Delivery.id).Nodup

instance (s : Client) : Decidable (NoReplay s) := inferInstanceAs (Decidable (List.Nodup _))

section

variable (L : Library) (c : ClientUdpSession2022)

def step (s : Client) (d : Datagram) : Client :=
  match c.decodeInto L s.st d.pkt d.now, c.frame L d.pkt with
  | (.ok _, st), .ok f => ⟨st, ⟨f.sessionId, f.packetId, d.now⟩ :: s.delivered⟩
  | (_, st), _ => ⟨st, s.delivered⟩

/-- Only bodies that a server with a session id other than 0 has sealed open, and each
packet carries the second in which it was sent. -/
structure Genuine (stamp : UInt64 → UInt64 → Int) : Prop where
  stamp_nonneg : ∀ sid pid, 0 ≤ stamp sid pid
  stamp_lt : ∀ sid pid, stamp sid pid < 2 ^ 63
  aes : c.kind ≠ .chaCha20Poly1305 → ∀ sid pid body plain,
    (cipherOf L c sid).openBytes ((pkHeader sid pid).drop 4) [] body = .ok plain →
      sid ≠ 0 ∧ i64At plain 1 = stamp sid pid
  chacha : c.kind = .chaCha20Poly1305 → ∀ nonce body plain,
    c.cipher.openBytes nonce [] body = .ok plain →
      u64At plain 0 ≠ 0 ∧ i64At (plain.drop 16) 1 = stamp (u64At plain 0) (u64At plain 8)

def NamesSession (d : Datagram) : Prop := ∀ f ∈ (c.frame L d.pkt).toOption, f.sessionId ≠ 0

instance (d : Datagram) : Decidable (NamesSession L c d) :=
  inferInstanceAs (Decidable (∀ f ∈ (c.frame L d.pkt).toOption, _))

end

variable {L : Library} {c : ClientUdpSession2022} {stamp : UInt64 → UInt64 → Int}
  {s : Client} {st st' : RemoteState} {slot : RemoteSlot} {t now : Int} {sid pid : UInt64}
  {cur last : List UInt64}

theorem asI64_sub (ha : 0 ≤ a) (ha' : a < 2 ^ 63) (hb : 0 ≤ b) (hb' : b < 2 ^ 63) :
    asI64 (a - b) = a - b := by
  rw [asI64, Int.bmod_eq_of_le (by omega) (by omega)]

theorem absI64_sub (ha : 0 ≤ a) (ha' : a < 2 ^ 63) (hb : 0 ≤ b) (hb' : b < 2 ^ 63) :
    absI64 (asI64 (a - b)) = (a - b).natAbs := by
  rw [asI64_sub ha ha' hb hb', absI64, asI64, Int.bmod_eq_of_le (by omega) (by omega)]

theorem time_of_parse (hn : 0 ≤ now) (hn' : now < 2 ^ 63)
    (hts : 0 ≤ i64At plain 1) (hts' : i64At plain 1 < 2 ^ 63)
    (h : parseServerPlaintext plain expect now = .ok r) : (now - i64At plain 1).natAbs ≤ 30 := by
  unfold parseServerPlaintext at h
  split at h
  · cases h
  split at h
  · cases h
  dsimp only at h
  split at h
  · cases h
  next hd =>
    rw [absI64_sub hn hn' hts hts', TIMESTAMP_TOLERANCE_SECS] at hd
    omega

theorem pkHeader_u64At (h : hdr.length = 16) : pkHeader (u64At hdr 0) (u64At hdr 8) = hdr := by
  rw [pkHeader, be64_u64At (by omega), be64_u64At (by omega)]
  have hs := slice_append hdr 0 8 8
  rw [hs, drop_zero, take_of_length_le (by omega)]

variable {pkt : Bytes} {f : Frame}

theorem frameAes_ok (h : c.frameAes L pkt = .ok f) :
    f.nonce = (pkHeader f.sessionId f.packetId).drop 4 := by
  unfold frameAes at h
  split at h
  · cases h
  cases h
  have hl := L.length_ecbBlock_decrypt c.kind c.finalPsk (pkt.take 16)
  rw [pkHeader_u64At hl]
  refine take_of_length_le ?_
  rw [length_drop]
  omega

theorem frameChacha_ok (h : c.frameChacha pkt = .ok f) :
    f.nonce = [] ∧ ∃ nonce body plain, c.cipher.openBytes nonce [] body = .ok plain ∧
      f.sessionId = u64At plain 0 ∧ f.packetId = u64At plain 8 ∧ f.body = plain.drop 16 := by
  unfold frameChacha at h
  split at h
  · cases h
  split at h
  · cases h
  · next plain ho =>
    split at h
    · cases h
    · cases h
      exact ⟨rfl, _, _, plain, ho, rfl, rfl, rfl⟩

structure Ciphers (L : Library) (c : ClientUdpSession2022) (st : RemoteState) : Prop where
  current : ∀ cipher ∈ st.remoteCipher, cipher = cipherOf L c st.remoteSessionId
  previous : ∀ cipher ∈ st.lastRemoteCipher, cipher = cipherOf L c st.lastRemoteSessionId

def slotId (st : RemoteState) : RemoteSlot → UInt64
  | .previous => st.lastRemoteSessionId
  | .current | .new => st.remoteSessionId

theorem Genuine.stamp_eq (hg : Genuine L c stamp)
    (hf : c.frame L pkt = .ok f) (hc : c.kind ≠ .chaCha20Poly1305 → Ciphers L c st)
    (hid : f.sessionId = slotId st slot) (h : st.openFrame slot f.nonce f.body = .ok plain) :
    i64At plain 1 = stamp f.sessionId f.packetId := by
  unfold frame at hf
  split at hf
  · next hk =>
    obtain ⟨hn, nonce, body, p', ho, hs, hp, hb⟩ := frameChacha_ok hf
    rw [RemoteState.openFrame, if_pos hn, hb] at h
    cases h
    rw [hs, hp]
    exact (hg.chacha hk _ _ _ ho).2
  · next hk =>
    have hn := frameAes_ok hf
    have hne : f.nonce ≠ [] := by
      rw [hn, pkHeader]
      exact ne_nil_of_length_pos (by simp)
    rw [RemoteState.openFrame, if_neg hne] at h
    -- whichever cipher the slot takes, it is the one of the session id
    have hci : ∀ cipher, st.slotCipher slot = some cipher → cipher = cipherOf L c f.sessionId := by
      intro cipher hsome
      rw [hid]
      cases slot with
      | current | new => exact (hc hk).current cipher hsome
      | previous => exact (hc hk).previous cipher hsome
    split at h
    · cases h
    · next cipher hsome =>
      rw [hci cipher hsome, hn] at h
      cases ho : (cipherOf L c f.sessionId).openBytes
          ((pkHeader f.sessionId f.packetId).drop 4) [] f.body with
      | error e =>
        rw [ho] at h
        cases h
      | ok p' =>
        rw [ho] at h
        cases h
        exact (hg.aes hk _ _ _ _ ho).2

/-- At time `t` a delivered packet is out of date, or in one of the two windows, or its
session is gone; then the last change was 60 s or more after the delivery. -/
inductive Known (stamp : UInt64 → UInt64 → Int) (st : RemoteState) (cur last : List UInt64)
    (t : Int) (d : Delivery) : Prop
  | expired : stamp d.sessionId d.packetId + 30 < t → Known stamp st cur last t d
  | current : d.sessionId = st.remoteSessionId → d.packetId ∈ cur → Known stamp st cur last t d
  | previous : d.sessionId = st.lastRemoteSessionId → d.packetId ∈ last →
    d.time ≤ st.lastRemoteSeen → Known stamp st cur last t d
  | evicted : d.sessionId ≠ st.remoteSessionId → d.sessionId ≠ st.lastRemoteSessionId →
    d.time + 60 ≤ st.lastRemoteSeen → Known stamp st cur last t d

/-- `cur` and `last` are the packet ids in the windows. -/
structure Inv (L : Library) (c : ClientUdpSession2022) (stamp : UInt64 → UInt64 → Int)
    (s : Client) (cur last : List UInt64) (t : Int) : Prop where
  ciphers : c.kind ≠ .chaCha20Poly1305 → Ciphers L c s.st
  tracks : s.st.window.Tracks cur
  lastTracks : s.st.lastWindow.Tracks last
  seen_nonneg : 0 ≤ s.st.lastRemoteSeen
  seen_le : s.st.lastRemoteSeen ≤ t
  distinct : s.st.remoteSessionId ≠ 0 → s.st.remoteSessionId ≠ s.st.lastRemoteSessionId
  unstarted : s.st.remoteSessionId = 0 → s.st.lastRemoteSessionId = 0 ∧ s.delivered = []
  inTime : ∀ d ∈ s.delivered, stamp d.sessionId d.packetId ≤ d.time + 30 ∧ d.time ≤ t
  known : ∀ d ∈ s.delivered, Known stamp s.st cur last t d
  noReplay : NoReplay s

theorem inv_new (L : Library) (c : ClientUdpSession2022) (stamp : UInt64 → UInt64 → Int) :
    Inv L c stamp Client.new [] [] 0 where
  ciphers := fun _ => ⟨nofun, nofun⟩
  tracks := .default
  lastTracks := .default
  seen_nonneg := Int.le_refl 0
  seen_le := Int.le_refl 0
  distinct := fun h => absurd rfl h
  unstarted := fun _ => ⟨rfl, rfl⟩
  inTime := nofun
  known := nofun
  noReplay := nodup_nil

theorem Inv.wait (h : Inv L c stamp s cur last t) (hle : t ≤ now) :
    Inv L c stamp s cur last now where
  ciphers := h.ciphers
  tracks := h.tracks
  lastTracks := h.lastTracks
  seen_nonneg := h.seen_nonneg
  seen_le := h.seen_le.trans hle
  distinct := h.distinct
  unstarted := h.unstarted
  inTime := fun d hd => ⟨(h.inTime d hd).1, (h.inTime d hd).2.trans hle⟩
  known := fun d hd => by
    cases h.known d hd with
    | expired he => exact .expired (by omega)
    | current hid hm => exact .current hid hm
    | previous hid hm hs => exact .previous hid hm hs
    | evicted hc hl hs => exact .evicted hc hl hs
  noReplay := h.noReplay

theorem Inv.routed (h : Inv L c stamp s cur last t) (hle : t ≤ now) (hno : now < 2 ^ 63)
    (hsi : sid ≠ 0) (hr : Routed L c s.st sid now slot st') :
    ∃ cur' last', Inv L c stamp ⟨st', s.delivered⟩ cur' last' now := by
  have hs := h.seen_nonneg
  have hs' := h.seen_le
  have hn0 : 0 ≤ now := by omega
  cases hr with
  | current => exact ⟨cur, last, h.wait hle⟩
  | previous =>
    refine ⟨cur, last, { h.wait hle with
      ciphers := fun hk => ⟨(h.ciphers hk).current, (h.ciphers hk).previous⟩
      seen_nonneg := hn0, seen_le := Int.le_refl now, known := ?_ }⟩
    intro d hd
    cases (h.wait hle).known d hd with
    | expired he => exact .expired he
    | current hid hm => exact .current hid hm
    | previous hid hm _ => exact .previous hid hm ((h.inTime d hd).2.trans hle)
    | evicted hcu hl hg => exact .evicted hcu hl (hg.trans (hs'.trans hle))
  | rotated hcu hp hst hla =>
    rw [asI64_sub hn0 hno hs (by omega)] at hla
    have hcu := hcu.resolve_left hsi
    have hp := hp.resolve_left hsi
    refine ⟨[], cur, {
      ciphers := fun hk => ⟨?_, (h.ciphers hk).current⟩
      tracks := .default, lastTracks := h.tracks, seen_nonneg := hn0
      seen_le := Int.le_refl now, distinct := fun _ => hcu
      unstarted := fun hz => absurd hz hsi
      inTime := (h.wait hle).inTime, known := ?_, noReplay := h.noReplay }⟩
    · intro ci hc
      simp only [hk, if_false, Option.mem_some_iff] at hc
      exact hc.symm
    intro d hd
    obtain ⟨hsa, ht⟩ := h.inTime d hd
    cases h.known d hd with
    | expired he => exact .expired (by omega)
    | current hid hm => exact .previous hid hm (ht.trans hle)
    | previous hid hm hold =>
      refine .evicted ?_ ?_ ?_
      · rw [hid]
        exact Ne.symm hp
      · rw [hid]
        exact (h.distinct hst).symm
      · dsimp only
        omega
    | evicted _ _ hg => exact .expired (by omega)
  | first hp hn =>
    -- nothing was delivered before the first session
    have hni := (h.unstarted hn).2
    refine ⟨cur, last, { h.wait hle with
      ciphers := fun hk => ⟨?_, (h.ciphers hk).previous⟩
      distinct := fun _ => hp.resolve_left hsi
      unstarted := fun hz => absurd hz hsi
      known := by rw [hni]; nofun }⟩
    intro ci hc
    simp only [hk, if_false, Option.mem_some_iff] at hc
    exact hc.symm

def slotIds (cur last : List UInt64) : RemoteSlot → List UInt64
  | .previous => last
  | .current | .new => cur

theorem Inv.not_delivered (h : Inv L c stamp s cur last now) (hsi : sid ≠ 0)
    (hid : sid = slotId s.st slot) (hs : now ≤ stamp sid pid + 30)
    (hc : (s.st.slotWindow slot).check pid = true) : (sid, pid) ∉ s.delivered.map Delivery.id := by
  have hnew : pid ∉ slotIds cur last slot := by
    cases slot with
    | previous => exact ((h.lastTracks.check_iff pid).mp hc).1
    | current | new => exact ((h.tracks.check_iff pid).mp hc).1
  -- the two generations are different sessions
  have hg : sid = s.st.remoteSessionId → sid = s.st.lastRemoteSessionId → False := by
    rintro rfl hl
    exact h.distinct hsi hl
  rw [mem_map]
  rintro ⟨d, hd, hdi⟩
  obtain ⟨hds, hdp⟩ := Prod.mk.inj hdi
  cases h.known d hd with
  | expired he =>
    rw [hds, hdp] at he
    omega
  | current hcu hm =>
    rw [hds] at hcu
    rw [hdp] at hm
    cases slot with
    | previous => exact hg hcu hid
    | current | new => exact hnew hm
  | previous hl hm _ =>
    rw [hds] at hl
    rw [hdp] at hm
    cases slot with
    | previous => exact hnew hm
    | current | new => exact hg hid hl
  | evicted hcu hl _ =>
    rw [hds] at hcu hl
    cases slot with
    | previous => exact hl hid
    | current | new => exact hcu hid

theorem Known.add (h : Known stamp st cur last t d) (slot : RemoteSlot)
    (pid : UInt64) : Known stamp (st.addTo slot pid)
      (if slot = .previous then cur else cur ++ [pid])
      (if slot = .previous then last ++ [pid] else last) t d := by
  cases slot <;> cases h with
    | expired he => exact .expired he
    | current hid hm => exact .current hid (by simp [hm])
    | previous hid hm hs => exact .previous hid (by simp [hm]) hs
    | evicted hc hl hs => exact .evicted hc hl hs

theorem Inv.deliver (h : Inv L c stamp s cur last now) (hsi : sid ≠ 0)
    (hid : sid = slotId s.st slot) (hs : slot = .previous → s.st.lastRemoteSeen = now)
    (hsa : (now - stamp sid pid).natAbs ≤ 30) (hc : (s.st.slotWindow slot).check pid = true) :
    Inv L c stamp ⟨s.st.addTo slot pid, ⟨sid, pid, now⟩ :: s.delivered⟩
      (if slot = .previous then cur else cur ++ [pid])
      (if slot = .previous then last ++ [pid] else last) now := by
  have hno := h.not_delivered hsi hid (by omega) hc
  have hkn : Known stamp (s.st.addTo slot pid) (if slot = .previous then cur else cur ++ [pid])
      (if slot = .previous then last ++ [pid] else last) now ⟨sid, pid, now⟩ := by
    cases slot with
    | previous => exact .previous hid (by simp) (hs rfl).ge
    | current | new => exact .current hid (by simp)
  have hk' : ∀ d ∈ ⟨sid, pid, now⟩ :: s.delivered, Known stamp (s.st.addTo slot pid)
      (if slot = .previous then cur else cur ++ [pid])
      (if slot = .previous then last ++ [pid] else last) now d := by
    intro d hd
    obtain rfl | hd := mem_cons.mp hd
    · exact hkn
    · exact (h.known d hd).add slot pid
  have hi : ∀ d ∈ ⟨sid, pid, now⟩ :: s.delivered,
      stamp d.sessionId d.packetId ≤ d.time + 30 ∧ d.time ≤ now := by
    intro d hd
    obtain rfl | hd := mem_cons.mp hd
    · exact ⟨by dsimp only; omega, Int.le_refl now⟩
    · exact h.inTime d hd
  have hn : NoReplay ⟨s.st.addTo slot pid, ⟨sid, pid, now⟩ :: s.delivered⟩ :=
    nodup_cons.mpr ⟨hno, h.noReplay⟩
  have hst : s.st.remoteSessionId ≠ 0 := by
    intro hz
    have hl := (h.unstarted hz).1
    cases slot with
    | previous => exact hsi (hid.trans hl)
    | current | new => exact hsi (hid.trans hz)
  cases slot <;> exact {
    ciphers := fun hk => ⟨(h.ciphers hk).current, (h.ciphers hk).previous⟩
    tracks := by first | exact h.tracks.add hc | exact h.tracks
    lastTracks := by first | exact h.lastTracks.add hc | exact h.lastTracks
    seen_nonneg := h.seen_nonneg
    seen_le := h.seen_le
    distinct := h.distinct
    unstarted := fun hz => absurd hz hst
    inTime := hi
    known := hk'
    noReplay := hn }

variable {d : Datagram}

theorem step_of_error (h : c.decodeInto L s.st d.pkt d.now = (.error e, st)) :
    step L c s d = ⟨st, s.delivered⟩ := by
  simp [step, h]

theorem step_of_ok (h : c.decodeInto L s.st d.pkt d.now = (.ok r, st))
    (hf : c.frame L d.pkt = .ok f) :
    step L c s d = ⟨st, ⟨f.sessionId, f.packetId, d.now⟩ :: s.delivered⟩ := by
  simp [step, h, hf]

theorem slot_of_routed (h : Routed L c st sid now slot st') :
    sid = slotId st' slot ∧ (slot = .previous → st'.lastRemoteSeen = now) := by
  cases h with
  | current _ hid => exact ⟨hid, nofun⟩
  | previous _ _ hid => exact ⟨hid, fun _ => rfl⟩
  | rotated | first => exact ⟨rfl, nofun⟩

theorem Inv.step (hg : Genuine L c stamp) (h : Inv L c stamp s cur last t)
    (ht : 0 ≤ t) (hle : t ≤ d.now) (hno : d.now < 2 ^ 63) (hn : NamesSession L c d) :
    ∃ cur' last', Inv L c stamp (step L c s d) cur' last' d.now := by
  obtain ⟨e, hf, hs⟩ | ⟨f, hf, ⟨_, hs⟩ | ⟨slot, st', hr, hs⟩⟩ :=
    decodeInto_cases L c s.st d.pkt d.now
  · rw [step_of_error hs]
    exact ⟨cur, last, h.wait hle⟩
  · rw [step_of_error hs]
    exact ⟨cur, last, h.wait hle⟩
  have hsi : f.sessionId ≠ 0 := hn f (by simp [hf, Except.toOption])
  obtain ⟨cur', last', hr'⟩ := h.routed hle hno hsi hr
  obtain ⟨hid, hse⟩ := slot_of_routed hr
  obtain ⟨e, hfr⟩ | ⟨p, r, hc, ho, hp, hfr⟩ :=
    st'.decodeServerFrame_cases slot f.nonce f.packetId f.body c.sessionId d.now
  · rw [step_of_error (hs.trans hfr)]
    exact ⟨cur', last', hr'⟩
  rw [step_of_ok (hs.trans hfr) hf]
  have hst := hg.stamp_eq hf hr'.ciphers hid ho
  have hti := time_of_parse (ht.trans hle) hno (by rw [hst]; exact hg.stamp_nonneg _ _)
    (by rw [hst]; exact hg.stamp_lt _ _) hp
  rw [hst] at hti
  exact ⟨_, _, hr'.deliver hsi hid hse hti hc⟩

/-- If no datagram names the session id 0, no packet is delivered twice. -/
theorem delivers_once (hg : Genuine L c stamp) (datagrams : List Datagram)
    (hclock : (0 :: datagrams.map Datagram.now).Pairwise (· ≤ ·))
    (hrange : ∀ d ∈ datagrams, d.now < 2 ^ 63) (hnames : ∀ d ∈ datagrams, NamesSession L c d) :
    Throughout (step L c) NoReplay Client.new datagrams := by
  suffices hrun : ∀ (s : Client) (cur last : List UInt64) (t : Int), Inv L c stamp s cur last t →
      0 ≤ t → (t :: datagrams.map Datagram.now).Pairwise (· ≤ ·) →
      Throughout (step L c) NoReplay s datagrams from
    hrun _ [] [] 0 (inv_new L c stamp) (Int.le_refl 0) hclock
  clear hclock
  induction datagrams with
  | nil => exact fun s cur last t h _ _ => h.noReplay
  | cons d datagrams ih =>
    intro s cur last t h ht hclock
    obtain ⟨hle, hclock⟩ := pairwise_cons.mp hclock
    have hle : t ≤ d.now := hle _ (mem_cons_self ..)
    obtain ⟨cur', last', h'⟩ := h.step hg ht hle (hrange d (mem_cons_self ..))
      (hnames d (mem_cons_self ..))
    have hrest := ih (forall_mem_cons.mp hrange).2
      (forall_mem_cons.mp hnames).2
    exact ⟨h.noReplay, hrest _ cur' last' d.now h' (ht.trans hle) hclock⟩

def onlyPlain : Bytes := 1 :: (be64 1030 ++ be64 3 ++ be16 0 ++ [1, 1, 2, 3, 4] ++ be16 53)

/-- A cipher that opens this plaintext only, and not for the session id 0, which is the
first field of the key. -/
def onlyBackend : Backend where
  encrypt _ _ _ plaintext := plaintext ++ zeroTag
  decrypt key _ _ ciphertext :=
    if u64At key 0 ≠ 0 ∧ ciphertext = onlyPlain ++ zeroTag then some onlyPlain else none

def onlyLibrary : Library :=
  { Library.clear with
    aes128Gcm := onlyBackend
    deriveKey := fun _ material => (material.drop 16).takeD 32 0
    length_deriveKey := fun _ _ => takeD_length .. }

def onlyPacket (sessionId : UInt64) : Bytes := pkHeader sessionId 0 ++ onlyPlain ++ zeroTag

theorem genuine_onlyLibrary : Genuine onlyLibrary demoClient fun _ _ => 1030 where
  stamp_nonneg := fun _ _ => by decide
  stamp_lt := fun _ _ => by decide
  aes := by
    intro _ sid pid body p h
    obtain ⟨-, ho⟩ := AeadCipher.openBytes_eq_ok_iff.mp h
    have hk : u64At (onlyLibrary.deriveSessionSubkey demoClient.finalPsk (be64 sid)
        demoClient.kind) 0 = sid := u64At_be64 sid (List.replicate 8 0)
    change (if u64At _ 0 ≠ 0 ∧ body = onlyPlain ++ zeroTag then some onlyPlain else none) =
      some p at ho
    rw [hk] at ho
    split at ho
    · next hc =>
      cases ho
      exact ⟨hc.1, by decide⟩
    · cases ho
  chacha := nofun

/-- Session 2 delivers its packet in the second 1000 and session 1 follows. In the second 1060 a
datagram with the session id 0 drops session 2, and its packet, still in date, is delivered again.
-/
theorem replayed_after_session_zero : Genuine onlyLibrary demoClient (fun _ _ => 1030) ∧
    ¬NoReplay (runs (step onlyLibrary demoClient) Client.new
      [⟨onlyPacket 2, 1000⟩, ⟨onlyPacket 1, 1000⟩, ⟨garbage 0, 1060⟩, ⟨onlyPacket 2, 1060⟩]) :=
  ⟨genuine_onlyLibrary, by decide +kernel⟩

/-- With another session id in the garbage the packet is refused. -/
theorem delivers_once_other_garbage : Throughout (step onlyLibrary demoClient) NoReplay Client.new
      [⟨onlyPacket 2, 1000⟩, ⟨onlyPacket 1, 1000⟩, ⟨garbage 5, 1060⟩, ⟨onlyPacket 2, 1060⟩] :=
  delivers_once genuine_onlyLibrary _ (by decide) (by decide) (by decide +kernel)

end UdpReplay

end XrayCore.Shadowsocks
