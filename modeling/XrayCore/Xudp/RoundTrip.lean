import XrayCore.Xudp.Packet

/-!
# From `PacketWriter` to `PacketReader`

A reader gets the packets of a writer back one by one as long as no domain is cut short by the 32
bytes that a frame's target is built in. The length byte in front of a domain that is cut short
still counts all its bytes, so the reader takes the missing ones from what follows, the GlobalID on
the first frame and nothing on the others.
-/

namespace XrayCore.Xudp

open Lib Net List PacketReader AddressParser
open Buf (Buffer)

theorem readExact_append (h : front.length = n) :
    readExact n (front ++ rest) = some (front, rest) := by
  rw [readExact, if_neg (by rw [length_append]; omega), take_left' h, drop_left' h]

theorem FrameStatus.fromByte_toByte (status : FrameStatus) :
    FrameStatus.fromByte status.toByte = some status := by
  cases status <;> rfl

namespace FrameMetadata

section

variable (m : FrameMetadata)

include m

theorem length_targetBytes_le : m.targetBytes.length ≤ 33 := by
  unfold targetBytes
  split
  · split
    · rw [length_cons, bytes_writePortAddress, Buffer.bytes_withCapacity, nil_append]
      exact Nat.succ_le_succ (length_take_le _ _)
    · exact Nat.zero_le _
  · exact Nat.zero_le _

theorem length_globalIdBytes_le : m.globalIdBytes.length ≤ 8 := by
  unfold globalIdBytes
  split
  · split
    · next gid _ => exact le_of_eq gid.length_bytes
    · exact Nat.zero_le _
  · exact Nat.zero_le _

theorem toNat_length_bodyBytes : (UInt16.ofNat m.bodyBytes.length).toNat = m.bodyBytes.length := by
  have ht := m.length_targetBytes_le
  have hid := m.length_globalIdBytes_le
  refine UInt16.toNat_ofNat_of_lt' ?_
  simp [bodyBytes, UInt16.size]
  omega

theorem MIN_META_LEN_le : MIN_META_LEN ≤ m.bodyBytes.length := by
  simp [MIN_META_LEN, bodyBytes]

theorem fromBytes_toBytes : fromBytes m.toBytes = match parseBodyTarget m.bodyBytes m.status with
      | .error e => .error e
      | .ok (target, globalId) =>
        .ok (⟨m.status, m.hasData, target, globalId⟩, 2 + m.bodyBytes.length) := by
  have hle : m.toBytes.length = 2 + m.bodyBytes.length := by
    rw [toBytes, length_append, length_be16]
  have hl : ¬m.toBytes.length < 2 := by omega
  have hm : ¬m.bodyBytes.length < MIN_META_LEN := not_lt.mpr m.MIN_META_LEN_le
  have hall : ¬m.toBytes.length < 2 + m.bodyBytes.length := by omega
  have hb : (m.toBytes.drop 2).take m.bodyBytes.length = m.bodyBytes := take_length
  have hs : FrameStatus.fromByte (byteAt m.bodyBytes 2) = some m.status := m.status.fromByte_toByte
  have hdata : decide (byteAt m.bodyBytes 3 &&& OPT_DATA ≠ 0) = m.hasData := by
    show decide ((if m.hasData then OPT_DATA else 0) &&& OPT_DATA ≠ 0) = m.hasData
    cases m.hasData <;> rfl
  have hu16 : (u16At m.toBytes 0).toNat = m.bodyBytes.length := by
    rw [toBytes, u16At_be16, toNat_length_bodyBytes]
  cases hp : parseBodyTarget m.bodyBytes m.status with
  | error e => simp only [fromBytes, hl, hu16, hm, hall, if_false, hb, hs, hp]
  | ok r =>
    simp [fromBytes, hl, hu16, hm, hall, hb, hs, hp, hdata]

end

end FrameMetadata

theorem PacketReader.readFrame_toBytes (m : FrameMetadata) (rest : Bytes) :
    readFrame (m.toBytes ++ rest) = match parseBodyTarget m.bodyBytes m.status with
      | .error e => .done (.error e) rest
      | .ok (target, globalId) => readData ⟨m.status, m.hasData, target, globalId⟩ rest := by
  have hm := m.MIN_META_LEN_le
  have hl : (u16At (be16 (UInt16.ofNat m.bodyBytes.length)) 0).toNat = m.bodyBytes.length := by
    rw [← append_nil (be16 _), u16At_be16, FrameMetadata.toNat_length_bodyBytes]
  have hf := m.fromBytes_toBytes
  rw [FrameMetadata.toBytes] at hf
  rw [FrameMetadata.toBytes, append_assoc, readFrame, readExact_append (length_be16 _)]
  simp only [hl]
  rw [if_neg (not_lt.mpr hm), readExact_append rfl]
  simp only [hf]
  cases parseBodyTarget m.bodyBytes m.status <;> rfl

theorem PacketReader.readData_append (hdata : data ≠ []) (hl : data.length < UInt16.size)
    (target : Option Destination) (globalId : Option GlobalId) (rest : Bytes) :
    readData ⟨status, true, target, globalId⟩ (be16 (UInt16.ofNat data.length) ++ data ++ rest) =
      .done (.ok (some ⟨data, target⟩)) rest := by
  have hu16 : (u16At (be16 (UInt16.ofNat data.length)) 0).toNat = data.length := by
    rw [← append_nil (be16 _), u16At_be16, UInt16.toNat_ofNat_of_lt' hl]
  rw [readData, if_pos rfl, append_assoc, readExact_append (length_be16 _)]
  simp only [hu16]
  rw [if_pos (length_pos_iff.mpr hdata), readExact_append rfl]

structure Frame where
  globalId : Option GlobalId
  target : Destination
  data : Bytes
  data_ne : data ≠ []
  data_le : data.length ≤ MAX_DATA_LEN
  deriving DecidableEq

namespace Frame

def metadata (f : Frame) : FrameMetadata :=
  match f.globalId with
  | some gid => .newUdp f.target.address f.target.port gid
  | none => .keepUdp f.target.address f.target.port

def bytes (f : Frame) : Bytes := f.metadata.toBytes ++ (be16 (UInt16.ofNat f.data.length) ++ f.data)

def packet (f : Frame) : PacketData := ⟨f.data, some (.udp f.target.address f.target.port)⟩

def tail (f : Frame) : Bytes :=
  match f.globalId with
  | some gid => gid.bytes
  | none => []

def targetAndTail (f : Frame) : Bytes :=
  (encodePortAddress f.target.port f.target.address).take 32 ++ f.tail

/-- The target is cut short nowhere but where what follows makes up for it. -/
def Fits (f : Frame) : Prop := f.target.address.Fits 28 f.tail

instance : DecidablePred Fits := fun f =>
  inferInstanceAs (Decidable (f.target.address.Fits 28 f.tail))

theorem bodyBytes_metadata (f : Frame) : f.metadata.bodyBytes =
      0 :: 0 :: f.metadata.status.toByte :: OPT_DATA :: NETWORK_UDP :: f.targetAndTail := by
  obtain ⟨_ | gid, t, data, hne, hle⟩ := f <;>
    simp [metadata, FrameMetadata.newUdp, FrameMetadata.keepUdp, FrameMetadata.bodyBytes,
      FrameMetadata.targetBytes, FrameMetadata.globalIdBytes, Destination.udp,
      bytes_writePortAddress, targetAndTail, tail]

def label (f : Frame) : String :=
  match f.globalId with
  | some _ => "New frame"
  | none => "Keep frame"

def readGlobalId (f : Frame) (consumed : Nat) : Option GlobalId :=
  match f.globalId with
  | some _ => globalIdAt f.metadata.bodyBytes (5 + consumed)
  | none => none

theorem parseBodyTarget_metadata (f : Frame) :
    parseBodyTarget f.metadata.bodyBytes f.metadata.status =
      match parsePortAddress f.targetAndTail with
      | none => .error (.addressParseFailed f.label)
      | some (port, addr, consumed) => .ok (some (.udp addr port), f.readGlobalId consumed) := by
  have hu : 4 < f.metadata.bodyBytes.length ∧ byteAt f.metadata.bodyBytes 4 = NETWORK_UDP := by
    rw [bodyBytes_metadata]
    exact ⟨Nat.lt_add_left_iff_pos.mpr (Nat.zero_lt_succ _), rfl⟩
  have hd : f.metadata.bodyBytes.drop 5 = f.targetAndTail := by
    rw [bodyBytes_metadata]
    rfl
  cases hid : f.globalId with
  | some gid =>
    have hs : f.metadata.status = .new := by simp only [metadata, hid, FrameMetadata.newUdp]
    cases hp : parsePortAddress f.targetAndTail <;>
      simp [parseBodyTarget, hs, if_pos hu, hd, hp, label, readGlobalId, hid]
  | none =>
    have hs : f.metadata.status = .keep := by simp only [metadata, hid, FrameMetadata.keepUdp]
    cases hp : parsePortAddress f.targetAndTail <;>
      simp [parseBodyTarget, hs, if_pos hu, hd, hp, label, readGlobalId, hid]

theorem hasData_metadata (f : Frame) : f.metadata.hasData = true := by
  unfold metadata
  split <;> rfl

theorem readPacket_bytes (f : Frame) (rest : Bytes) : readPacket (f.bytes ++ rest) =
      match parsePortAddress f.targetAndTail with
      | none =>
        (.error (.addressParseFailed f.label), be16 (UInt16.ofNat f.data.length) ++ f.data ++ rest)
      | some (port, addr, _) => (.ok (some ⟨f.data, some (.udp addr port)⟩), rest) := by
  have hl : f.data.length < UInt16.size := lt_of_le_of_lt f.data_le (by decide)
  rw [readPacket_eq, bytes, append_assoc, readFrame_toBytes,
    parseBodyTarget_metadata, hasData_metadata]
  cases parsePortAddress f.targetAndTail with
  | none => rfl
  | some r =>
    simp only [readData_append f.data_ne hl]

theorem readPacket_iff (f : Frame) (hs : f.target.address.Short) (rest rest' : Bytes) :
    readPacket (f.bytes ++ rest) = (.ok (some f.packet), rest') ↔ f.Fits ∧ rest' = rest := by
  have hfits := parsePortAddress_take_iff f.target.port f.tail (show 19 ≤ 32 by decide) hs
  rw [readPacket_bytes, Fits, ← hfits, ← targetAndTail]
  constructor
  · intro h
    cases hp : parsePortAddress f.targetAndTail with
    | none =>
      rw [hp] at h
      cases h
    | some r =>
      obtain ⟨port, addr, n⟩ := r
      rw [hp] at h
      cases h
      exact ⟨⟨n, rfl⟩, rfl⟩
  · rintro ⟨⟨n, hp⟩, rfl⟩
    rw [hp]
    rfl

end Frame

inductive Reads : Bytes → List PacketData → Prop
  | done : readPacket b = (.ok none, rest) → Reads b []
  | next : readPacket b = (.ok (some p), rest) → Reads rest ps → Reads b (p :: ps)

theorem reads_frames_iff (fs : List Frame) (hs : ∀ f ∈ fs, f.target.address.Short) :
    Reads (fs.flatMap Frame.bytes) (fs.map Frame.packet) ↔ ∀ f ∈ fs, f.Fits := by
  induction fs with
  | nil =>
    have he : readPacket [] = (.ok none, []) := rfl
    exact ⟨fun _ f hf => (not_mem_nil hf).elim, fun _ => .done he⟩
  | cons f fs ih =>
    obtain ⟨hf, hfs⟩ := forall_mem_cons.mp hs
    rw [flatMap_cons, map_cons, forall_mem_cons, ← ih hfs]
    constructor
    · rintro (_ | ⟨hr, hrest⟩)
      obtain ⟨hfits, rfl⟩ := (f.readPacket_iff hf _ _).mp hr
      exact ⟨hfits, hrest⟩
    · rintro ⟨hfits, hrest⟩
      exact .next ((f.readPacket_iff hf _ _).mpr ⟨hfits, rfl⟩) hrest

inductive Call
  | writePacket (data : Bytes)
  | writePacketWithUdpTarget (data : Bytes) (udp : Destination)

namespace Call

def data : Call → Bytes
  | .writePacket data => data
  | .writePacketWithUdpTarget data _ => data

def target (dest : Destination) : Call → Destination
  | .writePacket _ => dest
  | .writePacketWithUdpTarget _ udp => udp

def step (w : PacketWriter) : Call → PacketWriter
  | .writePacket data => w.writePacket data
  | .writePacketWithUdpTarget data udp => w.writePacketWithUdpTarget data udp

def Sends (call : Call) : Prop := call.data ≠ [] ∧ call.data.length ≤ MAX_DATA_LEN

instance : DecidablePred Sends := fun call =>
  inferInstanceAs (Decidable (call.data ≠ [] ∧ call.data.length ≤ MAX_DATA_LEN))

def frame (dest : Destination) (globalId : GlobalId) (newSent : Bool) (call : Call)
    (h : call.Sends) : Frame :=
  if newSent then ⟨none, call.target dest, call.data, h.1, h.2⟩
  else ⟨some globalId, dest, call.data, h.1, h.2⟩

theorem step_eq_write (w : PacketWriter) (call : Call) :
    step w call = w.write call.data (call.target w.dest) := by
  cases call <;> rfl

theorem step_of_sends (w : PacketWriter) (hu : w.dest.network = .udp) (h : call.Sends) :
    step w call = { w with
        out := w.out ++ (call.frame w.dest w.globalId w.newSent h).bytes
        newSent := true } := by
  obtain ⟨out, dest, globalId, newSent⟩ := w
  have hs : ¬(call.data = [] ∨ MAX_DATA_LEN < call.data.length) := by
    rintro (hn | hl)
    · exact h.1 hn
    · exact not_lt.mpr h.2 hl
  rw [step_eq_write, PacketWriter.write, if_neg hs]
  cases newSent with
  | false => rw [if_pos ⟨rfl, hu⟩]; rfl
  | true => rw [if_neg (fun hnew => nomatch hnew.1)]; rfl

theorem step_of_not_sends (w : PacketWriter) (h : ¬call.Sends) : step w call = w := by
  have hs : call.data = [] ∨ MAX_DATA_LEN < call.data.length := by
    rcases Decidable.not_and_iff_or_not.mp h with hn | hl
    · exact .inl (Decidable.not_not.mp hn)
    · exact .inr (not_le.mp hl)
  rw [step_eq_write, PacketWriter.write, if_pos hs]

end Call

def sentFrames (dest : Destination) (globalId : GlobalId) : Bool → List Call → List Frame
  | _, [] => []
  | newSent, call :: calls =>
    if h : call.Sends then
      call.frame dest globalId newSent h :: sentFrames dest globalId true calls
    else sentFrames dest globalId newSent calls

theorem out_runs (w : PacketWriter) (hu : w.dest.network = .udp) (calls : List Call) :
    (runs Call.step w calls).out =
      w.out ++ (sentFrames w.dest w.globalId w.newSent calls).flatMap Frame.bytes := by
  induction calls generalizing w with
  | nil => simp [sentFrames]
  | cons call calls ih =>
    rw [runs_cons, sentFrames]
    by_cases h : call.Sends
    · rw [dif_pos h, Call.step_of_sends w hu h, flatMap_cons, ← append_assoc]
      exact ih _ hu
    · rw [dif_neg h, Call.step_of_not_sends w h, ih w hu]

theorem target_of_mem_sentFrames (h : f ∈ sentFrames dest globalId newSent calls) :
    f.target = dest ∨ ∃ call ∈ calls, f.target = call.target dest := by
  induction calls generalizing newSent with
  | nil => exact absurd h not_mem_nil
  | cons call calls ih =>
    have hl {sent : Bool} (h : f ∈ sentFrames dest globalId sent calls) :
        f.target = dest ∨ ∃ c ∈ call :: calls, f.target = c.target dest := by
      rcases ih h with hd | ⟨c, hc, ht⟩
      · exact .inl hd
      · exact .inr ⟨c, mem_cons_of_mem _ hc, ht⟩
    rw [sentFrames] at h
    split at h
    · rcases mem_cons.mp h with rfl | hm
      · cases newSent with
        | false => exact .inl rfl
        | true => exact .inr ⟨call, mem_cons_self, rfl⟩
      · exact hl hm
    · exact hl h

/-- What a writer to a UDP destination puts out is read back as the payloads it
was given, in order and with their targets, and then the end of the stream:
exactly when each target's domain fits the 28 bytes there are for it, or on the
first frame is continued by the GlobalID. -/
theorem roundTrip_iff (dest : Destination) (globalId : GlobalId) (calls : List Call)
    (hudp : dest.network = .udp) (hdest : dest.address.Short)
    (hcalls : ∀ call ∈ calls, (call.target dest).address.Short) :
    Reads (runs Call.step (PacketWriter.new dest globalId) calls).out
        ((sentFrames dest globalId false calls).map Frame.packet) ↔
      ∀ f ∈ sentFrames dest globalId false calls, f.Fits := by
  have hshort : ∀ f ∈ sentFrames dest globalId false calls, f.target.address.Short := by
    intro f hf
    rcases target_of_mem_sentFrames hf with htarget | ⟨call, hcall, htarget⟩
    · rw [htarget]
      exact hdest
    · rw [htarget]
      exact hcalls call hcall
  rw [out_runs _ hudp]
  exact reads_frames_iff _ hshort

def zeroGlobalId : GlobalId := ⟨[0, 0, 0, 0, 0, 0, 0, 0], rfl⟩

def loopback : Destination := .udp (.ipv4 ⟨[127, 0, 0, 1], rfl⟩) 53

def exampleDomain : Destination := .udp (.domain "example.com") 53

/-- A packet to a domain, an empty one that is skipped, and one elsewhere. -/
theorem roundTrip_iff_two_targets :
    Reads (runs Call.step (PacketWriter.new exampleDomain zeroGlobalId)
        [.writePacket [7], .writePacket [], .writePacketWithUdpTarget [8, 9] loopback]).out
      [⟨[7], some exampleDomain⟩, ⟨[8, 9], some loopback⟩] :=
  (roundTrip_iff exampleDomain zeroGlobalId
    [.writePacket [7], .writePacket [], .writePacketWithUdpTarget [8, 9] loopback]
    rfl (by decide) (by decide)).mpr (by decide)

def longDomain : Destination := .udp (.domain "telemetry.eu-west-1.services.example.com") 53

/-- A domain of 40 bytes is cut to 28, and the reader finds 36 where it looks for
40. -/
theorem long_domain_unreadable : longDomain.address.Short ∧
    (readPacket (runs Call.step (PacketWriter.new longDomain zeroGlobalId)
      [.writePacket [7]]).out).1 = .error (.addressParseFailed "New frame") ∧
    ¬Reads (runs Call.step (PacketWriter.new longDomain zeroGlobalId) [.writePacket [7]]).out
      [⟨[7], some longDomain⟩] := by
  have herror : (readPacket (runs Call.step (PacketWriter.new longDomain zeroGlobalId)
      [.writePacket [7]]).out).1 = .error (.addressParseFailed "New frame") := by rfl
  refine ⟨by decide, herror, ?_⟩
  rintro (_ | ⟨hread, _⟩)
  rw [hread] at herror
  cases herror

end XrayCore.Xudp
