import XrayCore.Hysteria.Protocol
import XrayCore.Xudp.Stream

/-!
# Consumers of a stream of frames

The uplink of a Hysteria UDP session and the receiving side of a dispatch session both keep what has
come in a buffer, read packets off its front, and read on from the link when there is none. Neither
takes a frame without data off the buffer, so nothing behind one is ever reached.
-/

namespace XrayCore.Xudp

open Lib Net List PacketReader StreamFrame
open Hysteria (UdpMessage)

/-- `Address`'s `Display`; that of an IPv6 address is the standard library's. -/
def displayAddress (ipv6 : Ipv6Addr → String) : Address → String
  | .ipv4 addr => ".".intercalate (addr.octets.map fun octet => toString octet.toNat)
  | .ipv6 addr => "[" ++ ipv6 addr ++ "]"
  | .domain name => name

def destNetAddr (ipv6 : Ipv6Addr → String) (dest : Destination) : String :=
  displayAddress ipv6 dest.address ++ ":" ++ toString dest.port.toNat

section
variable (ipv6 : Ipv6Addr → String) (defaultAddr : String)

def forwarded (p : PacketData) : UdpMessage :=
  ⟨0, 0, 0, 1, (p.udpTarget.map (destNetAddr ipv6)).getD defaultAddr, p.data⟩

/-- Whether there was progress, what is left of the buffer, and the message that was passed on. -/
def parseAndForward (accum : Bytes) : Except PacketError (Bool × Bytes × Option UdpMessage) :=
  if accum = [] then .ok (false, accum, none)
  else
    match readPacket accum with
    | (.ok (some p), rest) => .ok (true, rest, some (forwarded ipv6 defaultAddr p))
    | (.ok none, _) => .ok (false, accum, none)
    | (.error .io, _) => .ok (false, accum, none)
    | (.error e, _) => .error e

theorem parseAndForward_shorter
    (h : parseAndForward ipv6 defaultAddr accum = .ok (true, rest, msg)) :
    rest.length < accum.length := by
  unfold parseAndForward at h
  split at h
  · cases h
  split at h <;> cases h
  next hr => exact length_of_readPacket hr

def forwardLoop (accum : Bytes) : List UdpMessage × Except PacketError Bytes :=
  match _h : parseAndForward ipv6 defaultAddr accum with
  | .ok (true, rest, msg) =>
    let q := forwardLoop rest
    (msg.toList ++ q.1, q.2)
  | .ok (false, rest, _) => ([], .ok rest)
  | .error e => ([], .error e)
termination_by accum.length
decreasing_by exact parseAndForward_shorter ipv6 defaultAddr _h

/-- The uplink of `pump_hysteria_udp`: what is passed on until the link ends, or an error. -/
def pumpUp (accum : Bytes) : List Bytes → List UdpMessage × Except PacketError Unit
  | [] =>
    let (sent, left) := forwardLoop ipv6 defaultAddr accum
    (sent, left.map fun _ => ())
  | piece :: pieces =>
    match forwardLoop ipv6 defaultAddr accum with
    | (sent, .ok rest) =>
      let q := pumpUp (rest ++ piece) pieces
      (sent ++ q.1, q.2)
    | (sent, .error e) => (sent, .error e)

variable {accum rest : Bytes} {p : PacketData} {e : PacketError}

theorem parseAndForward_eq (accum : Bytes) : parseAndForward ipv6 defaultAddr accum =
      match front accum with
      | .item p rest => .ok (true, rest, some (forwarded ipv6 defaultAddr p))
      | .wait => .ok (false, accum, none)
      | .fail e => .error e := by
  unfold parseAndForward
  split
  · next hn =>
    subst hn
    rfl
  · unfold front
    split <;> simp_all

theorem forwardLoop_eq (accum : Bytes) : forwardLoop ipv6 defaultAddr accum =
      ((frontReader.drain accum).1.map (forwarded ipv6 defaultAddr),
        (frontReader.drain accum).2) := by
  fun_induction forwardLoop ipv6 defaultAddr accum with
  | case1 accum rest msg h q ih =>
    rw [parseAndForward_eq] at h
    cases hf : front accum with
    | item p rest' =>
      rw [hf] at h
      cases h
      rw [FrontReader.drain_of_item hf]
      simp only [q, ih]
      rfl
    | wait | fail e => simp [hf] at h
  | case2 accum rest msg h =>
    rw [parseAndForward_eq] at h
    cases hf : front accum with
    | item p rest' => simp [hf] at h
    | wait =>
      rw [hf] at h
      cases h
      rw [FrontReader.drain_of_wait hf]
      rfl
    | fail e => simp [hf] at h
  | case3 accum e h =>
    rw [parseAndForward_eq] at h
    cases hf : front accum with
    | item p rest' | wait => simp [hf] at h
    | fail e' =>
      rw [hf] at h
      cases h
      rw [FrontReader.drain_of_fail hf]
      rfl

theorem pumpUp_eq (accum : Bytes) (ps : List Bytes) : pumpUp ipv6 defaultAddr accum ps =
      ((frontReader.drain (accum ++ ps.flatten)).1.map (forwarded ipv6 defaultAddr),
        (frontReader.drain (accum ++ ps.flatten)).2.map fun _ => ()) := by
  induction ps generalizing accum with
  | nil => rw [pumpUp, forwardLoop_eq, flatten_nil, append_nil]
  | cons p ps ih =>
    rw [pumpUp, forwardLoop_eq, flatten_cons, FrontReader.drain_append]
    cases frontReader.drain accum with
    | mk ms left =>
      cases left with
      | error e => rfl
      | ok rest => simp [ih]

end

/-- `UdpDispatchSession::recv_packet`, with the buffer and what the link has still to give; then
both are what they are after the call. -/
def recvPacket (dest : Destination) (accum : Bytes) :
    List Bytes → Except PacketError (Option (Destination × Bytes)) × Bytes × List Bytes
  | [] =>
    match parse accum with
    | some (result, rest) => (result.map some, rest, [])
    | none => (.ok none, accum, [])
  | piece :: pieces =>
    match parse accum with
    | some (result, rest) => (result.map some, rest, piece :: pieces)
    | none => recvPacket dest (accum ++ piece) pieces
where
  /-- The front of the buffer: nothing if more is needed. -/
  parse (accum : Bytes) : Option (Except PacketError (Destination × Bytes) × Bytes) :=
    if accum = [] then none
    else
      match readPacket accum with
      | (.ok (some p), rest) => some (.ok (p.udpTarget.getD dest, p.data), rest)
      | (.ok none, _) => none
      | (.error .io, _) => none
      | (.error e, rest) => some (.error e, rest)

/-- Calls until the end: what they return before `Ok(None)`. -/
inductive Receives (dest : Destination) : Bytes → List Bytes → List (Destination × Bytes) → Prop
  | done {accum accum' : Bytes} {pieces pieces' : List Bytes} :
    recvPacket dest accum pieces = (.ok none, accum', pieces') → Receives dest accum pieces []
  | next {accum accum' : Bytes} {pieces pieces' : List Bytes} {p : Destination × Bytes}
      {ps : List (Destination × Bytes)} :
    recvPacket dest accum pieces = (.ok (some p), accum', pieces') →
      Receives dest accum' pieces' ps → Receives dest accum pieces (p :: ps)

def received (dest : Destination) (p : PacketData) : Destination × Bytes :=
  (p.udpTarget.getD dest, p.data)

section
variable {dest : Destination} {accum rest : Bytes} {pieces : List Bytes} {p : PacketData}

theorem parse_of_item (h : front accum = .item p rest) :
    recvPacket.parse dest accum = some (.ok (received dest p), rest) := by
  have hne : accum ≠ [] := by
    rintro rfl
    cases h
  rw [recvPacket.parse, if_neg hne, front_eq_item.mp h]
  rfl

theorem parse_of_wait (h : front accum = .wait) : recvPacket.parse dest accum = none := by
  unfold recvPacket.parse
  split
  · rfl
  · unfold front at h
    split at h <;> simp_all

theorem recvPacket_of_item (h : front accum = .item p rest) :
    recvPacket dest accum pieces = (.ok (some (received dest p)), rest, pieces) := by
  cases pieces <;> rw [recvPacket, parse_of_item h] <;> rfl

theorem recvPacket_drain (h : frontReader.drain (accum ++ pieces.flatten) = (ps, .ok left)) :
    ∃ accum' ps', recvPacket dest accum pieces = (.ok (ps.head?.map (received dest)), accum', ps') ∧
      frontReader.drain (accum' ++ ps'.flatten) = (ps.tail, .ok left) := by
  induction pieces generalizing accum with
  | nil =>
    rw [flatten_nil, append_nil] at h
    cases hf : front accum with
    | item p rest =>
      rw [FrontReader.drain_of_item hf] at h
      obtain ⟨rfl, hl⟩ := Prod.mk.inj h
      refine ⟨rest, [], recvPacket_of_item hf, ?_⟩
      rw [flatten_nil, append_nil]
      exact Prod.ext rfl hl
    | wait =>
      rw [FrontReader.drain_of_wait hf] at h
      obtain ⟨rfl, hl⟩ := Prod.mk.inj h
      refine ⟨accum, [], by rw [recvPacket, parse_of_wait hf]; rfl, ?_⟩
      rw [flatten_nil, append_nil, FrontReader.drain_of_wait hf]
      exact Prod.ext rfl hl
    | fail e =>
      rw [FrontReader.drain_of_fail hf] at h
      cases h
  | cons pi pieces ih =>
    cases hf : front accum with
    | item p rest =>
      rw [FrontReader.drain_of_item (frontReader.item_append _ hf)] at h
      obtain ⟨rfl, hl⟩ := Prod.mk.inj h
      exact ⟨rest, pi :: pieces, recvPacket_of_item hf, Prod.ext rfl hl⟩
    | wait =>
      rw [flatten_cons, ← append_assoc] at h
      obtain ⟨accum', ps', hr, hrest⟩ := ih h
      exact ⟨accum', ps', by rw [recvPacket, parse_of_wait hf]; exact hr, hrest⟩
    | fail e =>
      rw [FrontReader.drain_of_fail (frontReader.fail_append _ hf)] at h
      cases h

theorem receives_drain (h : frontReader.drain (accum ++ pieces.flatten) = (ps, .ok left)) :
    Receives dest accum pieces (ps.map (received dest)) := by
  induction ps generalizing accum pieces with
  | nil =>
    obtain ⟨a', pi', hr, -⟩ := recvPacket_drain h
    exact .done hr
  | cons p ps ih =>
    obtain ⟨a', pi', hr, hrest⟩ := recvPacket_drain h
    exact .next hr (ih hrest)

theorem Receives.unique (hp : Receives dest accum pieces ps)
    (hq : Receives dest accum pieces qs) : ps = qs := by
  induction hp generalizing qs with
  | done h =>
    cases hq with
    | done => rfl
    | next h' => simp [h] at h'
  | next h _ ih =>
    cases hq with
    | done h' => simp [h] at h'
    | next h' hrest =>
      rw [h] at h'
      cases h'
      rw [ih hrest]

end

/-- A way in which the link gives the frames: no piece is empty, which would be the end. -/
def CutOf (frames : List StreamFrame) (pieces : List Bytes) : Prop :=
  (∀ piece ∈ pieces, piece ≠ []) ∧ pieces.flatten = frames.flatMap bytes

theorem exists_cutOf (fs : List StreamFrame) : ∃ pieces, CutOf fs pieces := by
  by_cases hn : fs.flatMap bytes = []
  · exact ⟨[], by simp, hn.symm⟩
  · exact ⟨[fs.flatMap bytes], by simpa using hn, by simp⟩

theorem CutOf.drain (h : CutOf frames pieces) : ∃ left, frontReader.drain ([] ++ pieces.flatten) =
      (reached frames, .ok left) := by
  rw [nil_append, h.2]
  exact drain_frames frames

theorem map_reached_iff (f : PacketData → β) (frames : List StreamFrame) :
    (reached frames).map f = (packets frames).map f ↔ NoneBehind frames := by
  rw [← reached_eq_packets_iff]
  refine ⟨fun h => ?_, fun h => congrArg _ h⟩
  have hl := congrArg length h
  rw [length_map, length_map] at hl
  exact ( reached_prefix frames).eq_of_length hl

/-- However the stream is cut, everything is passed on exactly when nothing stands behind a frame
without data. -/
theorem consumers_forward_iff (ipv6 : Ipv6Addr → String) (dest : Destination)
    (frames : List StreamFrame) :
    ((∀ pieces, CutOf frames pieces → pumpUp ipv6 (destNetAddr ipv6 dest) [] pieces =
        ((packets frames).map (forwarded ipv6 (destNetAddr ipv6 dest)), .ok ())) ↔
      NoneBehind frames) ∧ ((∀ pieces, CutOf frames pieces →
        Receives dest [] pieces ((packets frames).map (received dest))) ↔
      NoneBehind frames) := by
  obtain ⟨pieces₀, hcut₀⟩ := exists_cutOf frames
  have hpump : ∀ pieces, CutOf frames pieces → pumpUp ipv6 (destNetAddr ipv6 dest) [] pieces =
      ((reached frames).map (forwarded ipv6 (destNetAddr ipv6 dest)), .ok ()) := by
    intro pieces hcut
    obtain ⟨left, hdrain⟩ := hcut.drain
    rw [pumpUp_eq, hdrain]
    rfl
  have hreceives : ∀ pieces, CutOf frames pieces →
      Receives dest [] pieces ((reached frames).map (received dest)) := by
    intro pieces hcut
    obtain ⟨left, hdrain⟩ := hcut.drain
    exact receives_drain hdrain
  refine ⟨⟨fun h => ?_, fun h pieces hcut => ?_⟩, ⟨fun h => ?_, fun h pieces hcut => ?_⟩⟩
  · rw [← map_reached_iff]
    exact congrArg Prod.fst ((hpump pieces₀ hcut₀).symm.trans (h pieces₀ hcut₀))
  · rw [hpump pieces hcut, (map_reached_iff _ frames).mpr h]
  · rw [← map_reached_iff]
    exact (hreceives pieces₀ hcut₀).unique (h pieces₀ hcut₀)
  · rw [← (map_reached_iff _ frames).mpr h]
    exact hreceives pieces hcut

def keepHeader (option : UInt8) : Bytes := [0, 12, 0, 0, 2, option, 2, 0, 53, 1, 127, 0, 0, 1]

def keepMetadata (hasData : Bool) : FrameMetadata := ⟨.keep, hasData, some loopback, none⟩

theorem keepHeader_parses : FrameMetadata.fromBytes (keepHeader 0) =
    .ok (keepMetadata false, (keepHeader 0).length) := by decide +kernel

theorem keepHeader_parses_data : FrameMetadata.fromBytes (keepHeader 1) =
    .ok (keepMetadata true, (keepHeader 1).length) := by decide +kernel

def emptyFrame : StreamFrame :=
  ⟨keepHeader 0, keepMetadata false, keepHeader_parses, [], by decide, fun _ => rfl⟩

theorem keepData_announced : (keepMetadata true).hasData = false → ([7] : Bytes) = [] := by decide

theorem keepData_lt : ([7] : Bytes).length < UInt16.size := by decide

def dataFrame : StreamFrame :=
  ⟨keepHeader 1, keepMetadata true, keepHeader_parses_data, [7], keepData_lt, keepData_announced⟩

/-- The data behind an empty frame reaches nobody. -/
theorem empty_frame_blocks :
    CutOf [emptyFrame, dataFrame] [keepHeader 0 ++ (keepHeader 1 ++ [0, 1, 7])] ∧
    packets [emptyFrame, dataFrame] = [⟨[7], some loopback⟩] ∧
    pumpUp (fun _ => "::1") "127.0.0.1:53" [] [keepHeader 0 ++ (keepHeader 1 ++ [0, 1, 7])] =
      ([], .ok ()) ∧ Receives loopback [] [keepHeader 0 ++ (keepHeader 1 ++ [0, 1, 7])] [] := by
  have hrecv : recvPacket loopback [] [keepHeader 0 ++ (keepHeader 1 ++ [0, 1, 7])] =
      (.ok none, keepHeader 0 ++ (keepHeader 1 ++ [0, 1, 7]), []) := by decide +kernel
  exact ⟨⟨by decide, by decide⟩, by decide, by decide +kernel, .done hrecv⟩

/-- The end is announced in front of it. -/
theorem empty_frame_ends : packets [emptyFrame, dataFrame] = [⟨[7], some loopback⟩] ∧
    Reads ([emptyFrame, dataFrame].flatMap bytes) [] ∧
    ¬NoneBehind [emptyFrame, dataFrame] := by
  refine ⟨by decide, reads_reached [emptyFrame, dataFrame], fun h => ?_⟩
  exact absurd (h [] emptyFrame [dataFrame] rfl ⟨rfl, by decide⟩ dataFrame mem_cons_self) (by decide)

end XrayCore.Xudp
