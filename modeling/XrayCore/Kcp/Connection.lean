import XrayCore.Kcp.SendingLaws
import XrayCore.Lib.Chunks
import XrayCore.Lib.Fallible

/-!
# Settings, writes and timeouts of a connection

What `parse_kcp_config` accepts bounds the MTU from below only, and a write copies chunks of that
size into pooled buffers. The round-trip estimator is fed by acknowledgements, whose samples are
below 10 s, and by the peer's commands, whose `peer_rto` is taken as it is.
-/

namespace XrayCore.Kcp

open Lib Buf List

/-- A field is absent, or a number in the range of `i64`, or something else. -/
inductive KcpSettings
  | absent
  | notObject
  | object (fields : String → Option (Option Int))

def KcpSettings.number (fields : String → Option (Option Int)) (field : String) (default : UInt32) :
    Except String UInt32 :=
  match fields field with
  | none => .ok default
  | some none => .error s!"kcpSettings.{field} must be a number"
  | some (some n) =>
    if n < 0 then .error s!"kcpSettings.{field} must be non-negative (got {n})"
    else .ok (UInt32.ofNat n.toNat)

def parseKcpConfig : KcpSettings → Except String Config
  | .absent => .ok defaultConfig
  | .notObject => .error "kcpSettings must be a JSON object"
  | .object fields => do
    let mtu ← KcpSettings.number fields "mtu" defaultConfig.mtu
    let tti ← KcpSettings.number fields "tti" defaultConfig.tti
    let uplinkCapacity ← KcpSettings.number fields "uplinkCapacity" defaultConfig.uplinkCapacity
    let downlinkCapacity ← KcpSettings.number fields "downlinkCapacity" defaultConfig.downlinkCapacity
    let cwndMultiplier ← KcpSettings.number fields "cwndMultiplier" defaultConfig.cwndMultiplier
    let maxSendingWindow ← KcpSettings.number fields "maxSendingWindow" defaultConfig.maxSendingWindow
    if mtu < 21 then .error "Mtu must be at least 21"
    else if tti < 10 ∨ 5000 < tti then .error s!"invalid mKCP TTI: {tti}"
    else if cwndMultiplier < 1 then .error "CwndMultiplier must be at least 1"
    else if maxSendingWindow / mtu = 0 then .error "MaxSendingWindow must be >= Mtu"
    else .ok ⟨mtu, tti, uplinkCapacity, downlinkCapacity, cwndMultiplier, maxSendingWindow⟩

theorem parseKcpConfig_ok (h : parseKcpConfig settings = .ok config) :
    21 ≤ config.mtu ∧ config.tti ≤ 5000 := by
  rcases settings with _ | _ | fields
  · cases h
    decide
  · cases h
  · obtain ⟨mtu, -, h⟩ := bind_ok.mp h
    obtain ⟨tti, -, h⟩ := bind_ok.mp h
    obtain ⟨_, -, h⟩ := bind_ok.mp h
    obtain ⟨_, -, h⟩ := bind_ok.mp h
    obtain ⟨_, -, h⟩ := bind_ok.mp h
    obtain ⟨_, -, h⟩ := bind_ok.mp h
    split at h
    · cases h
    next hm =>
    split at h
    · cases h
    next ht =>
    repeat' split at h
    all_goals cases h
    exact ⟨UInt32.not_lt.mp hm, UInt32.not_lt.mp (not_or.mp ht).2⟩

def DATA_SEGMENT_OVERHEAD : Nat := 18

def Config.mss (c : Config) : Nat := c.mtu.toNat - DATA_SEGMENT_OVERHEAD

namespace SendingWorker

/-- The chunks of a write up to the first that is not taken; how many bytes count as written. -/
def writeLoop (state : State) : SendingWorker → List Bytes → Nat × SendingWorker
  | w, [] => (0, w)
  | w, chunk :: rest =>
    let (w, taken) := w.push (Buffer.new.writeFrom chunk).1 state
    if taken then
      let (written, w) := writeLoop state w rest
      (chunk.length + written, w)
    else (0, w)

def write (w : SendingWorker) (state : State) (mss : Nat) (b : Bytes) :
    Except Unit (Nat × SendingWorker) :=
  if state ≠ .active then .error () else .ok (writeLoop state w (chunks mss b))

def pushedSince (w w' : SendingWorker) : Bytes :=
  (w'.window.cache.drop w.window.cache.length).flatMap DataSegment.payloadBytes

variable {w w' : SendingWorker} {config : Config} {b : Bytes}

theorem write_whole (w : SendingWorker) (b : Bytes) (hne : b ≠ []) (hl : b.length ≤ mss)
    (hp : (w.push (Buffer.new.writeFrom b).1 .active).2 = true) :
    ∃ w', w.write .active mss b = .ok (b.length, w') := by
  have hm := length_pos_of_ne_nil hne
  rw [write, if_neg (by decide), chunks_of_ne_nil (by omega) hne, take_of_length_le hl,
    drop_eq_nil_of_le hl, chunks_nil]
  simp [writeLoop, hp]

end SendingWorker

namespace RoundTripInfo

variable {r : RoundTripInfo}

def input (r : RoundTripInfo) (i : SendingWorker × UInt32 × SegmentKind) : RoundTripInfo :=
  match i.2.2 with
  | .ack seg => (i.1.processAckSegment r i.2.1 seg r.timeout).2
  | .cmd seg => r.updatePeerRto seg.peerRto i.2.1
  | .data _ => r

def NoOverflow (r : RoundTripInfo) (rtt : UInt32) : Prop :=
  7 * r.srtt.toNat + rtt.toNat < 2 ^ 32 ∧
    3 * r.variation.toNat + max r.srtt.toNat rtt.toNat < 2 ^ 32 ∧
    (r.smooth rtt).srtt.toNat + 4 * (r.smooth rtt).variation.toNat < 2 ^ 32

structure Bounded (r : RoundTripInfo) : Prop where
  srtt : r.srtt.toNat ≤ 10000
  variation : r.variation.toNat ≤ 10000
  minRtt : r.minRtt.toNat ≤ 5000

theorem Bounded.smooth (h : r.Bounded) (hr : rtt < 10000) : (r.smooth rtt).Bounded := by
  obtain ⟨hs, hv, hm⟩ := h
  have hr := UInt32.lt_iff_toNat_lt.mp hr
  simp only [UInt32.reduceToNat] at hr
  unfold RoundTripInfo.smooth
  split
  · refine ⟨hr.le, ?_, hm⟩
    simp
    omega
  have hd : (if r.srtt < rtt then rtt - r.srtt else r.srtt - rtt).toNat ≤ 10000 := by
    split
    next hlt =>
      rw [UInt32.toNat_sub_of_le _ _ (UInt32.le_of_lt hlt)]
      omega
    next hlt =>
      rw [UInt32.toNat_sub_of_le _ _ (UInt32.not_lt.mp hlt)]
      omega
  refine ⟨?_, ?_, hm⟩
  · dsimp only
    split
    · exact hm.trans (by decide)
    · rw [UInt32.toNat_div, toNat_mul_add] <;> simp only [UInt32.reduceToNat] <;> omega
  · rw [UInt32.toNat_div, toNat_mul_add] <;> simp only [UInt32.reduceToNat] <;> omega

theorem Bounded.update (h : r.Bounded) (hr : rtt < 10000) (current : UInt32) :
    (r.update rtt current).Bounded ∧ (r.update rtt current).timeout ≤ 12500 := by
  have hs := h.smooth hr
  have hbig : ¬0x7FFFFFFF < rtt := by
    rw [UInt32.lt_iff_toNat_lt] at hr ⊢
    simp only [UInt32.reduceToNat] at hr ⊢
    omega
  simp only [RoundTripInfo.update, if_neg hbig, timeout]
  refine ⟨⟨hs.srtt, hs.variation, hs.minRtt⟩, ?_⟩
  have hcap (rto : UInt32) : (if 10000 < rto then 10000 else rto) * 5 / 4 ≤ 12500 := by
    split
    · decide
    next hle =>
      rw [UInt32.not_lt, UInt32.le_iff_toNat_le] at hle
      rw [UInt32.le_iff_toNat_le, UInt32.toNat_div, UInt32.toNat_mul]
      simp only [UInt32.reduceToNat] at hle ⊢
      rw [Nat.mod_eq_of_lt (by omega)]
      omega
  exact hcap _

theorem Bounded.noOverflow (h : r.Bounded) (hr : rtt < 10000) : r.NoOverflow rtt := by
  obtain ⟨hs', hv', -⟩ := h.smooth hr
  obtain ⟨hs, hv, -⟩ := h
  have hr := UInt32.lt_iff_toNat_lt.mp hr
  simp only [UInt32.reduceToNat] at hr
  refine ⟨?_, ?_, ?_⟩ <;> omega

theorem input_ack (r : RoundTripInfo) (w : SendingWorker) (current : UInt32) (seg : AckSegment) :
    r.input (w, current, .ack seg) = r ∨
      ∃ rtt < 10000, r.input (w, current, .ack seg) = r.update rtt current := by
  simp only [input, SendingWorker.processAckSegment]
  split
  · exact .inl rfl
  split
  · exact .inl rfl
  dsimp only
  split
  next h => exact .inr ⟨_, h.2, rfl⟩
  · exact .inl rfl

/-- A command whose `peer_rto` is taken has one within the bound. -/
def Sane (r : RoundTripInfo) (i : SendingWorker × UInt32 × SegmentKind) : Prop :=
  match i.2.2 with
  | .cmd seg => ¬i.2.1 - r.updatedTimestamp < 3000 → seg.peerRto ≤ 12500
  | _ => True

theorem Bounded.input (h : r.Bounded) (i : SendingWorker × UInt32 × SegmentKind) :
    (r.input i).Bounded ∧ (r.timeout ≤ 12500 → ((r.input i).timeout ≤ 12500 ↔ r.Sane i)) := by
  obtain ⟨w, current, seg⟩ := i
  cases seg with
  | data seg => exact ⟨h, fun ht => iff_of_true ht trivial⟩
  | ack seg =>
    rcases input_ack r w current seg with he | ⟨rtt, hr, he⟩
    · rw [he]
      exact ⟨h, fun ht => iff_of_true ht trivial⟩
    · rw [he]
      exact ⟨(h.update hr current).1, fun _ => iff_of_true (h.update hr current).2 trivial⟩
  | cmd seg =>
    by_cases hc : current - r.updatedTimestamp < 3000
    · simp only [RoundTripInfo.input, updatePeerRto, Sane, hc, ↓reduceIte]
      exact ⟨h, fun ht => iff_of_true ht nofun⟩
    · simp only [RoundTripInfo.input, updatePeerRto, Sane, hc, ↓reduceIte]
      exact ⟨⟨h.srtt, h.variation, h.minRtt⟩, fun _ => ⟨fun ht _ => ht, fun ht => ht nofun⟩⟩

/-- The timeout, and how far ahead of the clock it puts a segment's. -/
def InTime (r : RoundTripInfo) : Prop :=
  r.timeout ≤ 12500 ∧ ∀ current conv state una seg,
    (SendingWindow.stamp current r.timeout conv state una seg).timeout - current < 0x80000000

theorem inTime_iff : r.InTime ↔ r.timeout ≤ 12500 := by
  refine ⟨And.left, fun ht => ⟨ht, ?_⟩⟩
  intro current conv state una seg
  simp only [SendingWindow.stamp, UInt32.add_comm current, UInt32.add_sub_cancel]
  exact UInt32.lt_of_le_of_lt ht (by decide)

/-- The timeout stays within its bound exactly if the peer's values that are taken do. No sum of
`update` overflows in any case. -/
theorem inTime_iff_sane (h : parseKcpConfig settings = .ok config)
    (inputs : List (SendingWorker × UInt32 × SegmentKind)) :
    (∀ rtt < 10000, (runs input (new config.tti) inputs).NoOverflow rtt) ∧
    (Throughout input InTime (new config.tti) inputs ↔
      Guarded input Sane (new config.tti) inputs) := by
  have hnew : (new config.tti).Bounded :=
    ⟨Nat.zero_le _, Nat.zero_le _, UInt32.le_iff_toNat_le.mp (parseKcpConfig_ok h).2⟩
  have hstart : (new config.tti).InTime := inTime_iff.mpr (show 100 ≤ 12500 by decide)
  refine ⟨fun rtt hr => (runs_invariant hnew (fun r i h => (h.input i).1) inputs).noOverflow hr,
    throughout_iff_guarded (R := fun r _ => r.Bounded) hnew hstart ?_ ?_⟩
  · exact fun r i _ h => (h.input i).1
  · intro r i _ h ht
    rw [inTime_iff]
    exact (h.input i).2 ht.1

theorem inTime_iff_sane_ping : Throughout input InTime (new defaultConfig.tti)
      [(.new 7 defaultConfig, 3000, .cmd ⟨7, .ping, 0, 0, 0, 200⟩)] :=
  (inTime_iff_sane (show parseKcpConfig .absent = .ok defaultConfig from rfl) _).2.mpr
    ⟨fun _ => by decide, trivial⟩

/-- A `peer_rto` of half the range is taken after 3 s. -/
theorem peerRto_unchecked : (runs input (new defaultConfig.tti)
      [(.new 7 defaultConfig, 3000, .cmd ⟨7, .ping, 0, 0, 0, 0x80000000⟩)]).timeout = 0x80000000 := by
  decide

end RoundTripInfo

end XrayCore.Kcp
