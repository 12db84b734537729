import XrayCore.Kcp.Segment

/-!
# The segment codec

What a segment writes, `readSegment` reads back (`readSegment_serialize`), so a packet of several
segments comes apart into exactly these. A segment that was read writes the bytes it was read from
(`readSegment_sound`), as long as the payload was not shortened by its buffer.
-/

namespace XrayCore.Kcp

open Lib Buf List SegmentKind

theorem map_u32At_flatMap (nums : List UInt32) (rest : Bytes) :
    (range nums.length).map (fun i => u32At (nums.flatMap be32 ++ rest) (i * 4)) = nums := by
  induction nums with
  | nil => rfl
  | cons n nums ih =>
    have hs (i : Nat) : u32At ((n :: nums).flatMap be32 ++ rest) ((i + 1) * 4) =
        u32At (nums.flatMap be32 ++ rest) (i * 4) := by
      rw [flatMap_cons, append_assoc, Nat.succ_mul, u32At_be32_add]
    rw [length_cons, range_succ_eq_map, map_cons, map_map]
    refine cons_eq_cons.mpr ⟨?_, ?_⟩
    · rw [flatMap_cons, append_assoc, zero_mul, u32At_be32]
    calc
      _ = (range nums.length).map (fun i => u32At (nums.flatMap be32 ++ rest) (i * 4)) :=
        map_congr_left fun i _ => hs i
      _ = nums := ih

theorem flatMap_be32_map_u32At (b : Bytes) (off : Nat) (h : off + cnt * 4 ≤ b.length) :
    ((range cnt).map fun i => u32At b (off + i * 4)).flatMap be32 =
      (b.drop off).take (cnt * 4) := by
  induction cnt with
  | zero => simp
  | succ cnt ih =>
    rw [range_succ, map_append, flatMap_append, ih (by omega)]
    simp only [map_cons, map_nil, flatMap_cons, flatMap_nil, append_nil]
    rw [be32_u32At (by omega), Nat.succ_mul, take_add, drop_drop]

inductive WireFields
  | data (conv : UInt16) (option : UInt8) (timestamp number sendingNext : UInt32) (payload : Bytes)
  | ack (conv : UInt16) (option : UInt8) (receivingWindow receivingNext timestamp : UInt32)
      (numberList : List UInt32)
  | cmd (conv : UInt16) (cmd : Command) (option : UInt8)
      (sendingNext receivingNext peerRto : UInt32)
  deriving DecidableEq

def SegmentKind.wire : SegmentKind → WireFields
  | .data s => .data s.conv s.option s.timestamp s.number s.sendingNext s.payloadBytes
  | .ack s =>
    .ack s.conv s.option s.receivingWindow s.receivingNext s.timestamp s.numberList
  | .cmd s => .cmd s.conv s.cmd s.option s.sendingNext s.receivingNext s.peerRto

/-- The segments the protocol sends: a payload that fits a pooled buffer, at most 255 numbers, a
command that has no segment kind of its own. -/
def SegmentKind.Valid : SegmentKind → Prop
  | .data s => s.payloadBytes.length ≤ DEFAULT_SIZE
  | .ack s => s.numberList.length ≤ 255
  | .cmd s => s.cmd = .ping ∨ s.cmd = .terminate

instance (s : SegmentKind) : Decidable s.Valid := by
  cases s <;> unfold SegmentKind.Valid <;> infer_instance

theorem readSegment_header (conv : UInt16) (cmd : Command) (opt : UInt8) (body : Bytes) :
    readSegment (header conv cmd opt ++ body) =
      (parseBody conv cmd opt body).map fun p => (p.1, 4 + p.2) := by
  have hc : u16At (header conv cmd opt ++ body) 0 = conv := by
    rw [header, append_assoc, u16At_be16]
  have hcm : byteAt (header conv cmd opt ++ body) 2 = cmd.toU8 := rfl
  have ho : byteAt (header conv cmd opt ++ body) 3 = opt := rfl
  have hb : (header conv cmd opt ++ body).drop 4 = body := drop_left' rfl
  have hl : ¬(header conv cmd opt ++ body).length < 4 := by simp
  simp only [readSegment, hl, ↓reduceIte, hc, hcm, ho, hb, Command.fromU8_toU8]
  cases h : parseBody conv cmd opt body <;> simp [h]

theorem u32At_words (h : b = be32 x ++ (be32 y ++ (be32 z ++ rest))) :
    u32At b 0 = x ∧ u32At b 4 = y ∧ u32At b 8 = z := by
  subst h
  simp

theorem DataSegment.parse_body (s : DataSegment) (rest : Bytes)
    (h : s.payloadBytes.length ≤ DEFAULT_SIZE) :
    ∃ t, DataSegment.new.parse s.conv s.option (s.body ++ rest) = some (t, s.body.length) ∧
      (data t).wire = (data s).wire := by
  have hsize : DEFAULT_SIZE < 2 ^ 16 := by decide
  have hl : (UInt16.ofNat s.payloadBytes.length).toNat = s.payloadBytes.length := by
    rw [UInt16.toNat_ofNat', Nat.mod_eq_of_lt (by omega)]
  have hb : s.body.length = 14 + s.payloadBytes.length := by
    simp [body]
    omega
  obtain ⟨hts, hnu, hn⟩ := u32At_words (show s.body ++ rest = _ by simp only [body, append_assoc]; rfl)
  have hc : u16At (s.body ++ rest) 12 = UInt16.ofNat s.payloadBytes.length := by
    simp [body]
  have hp : ((s.body ++ rest).drop 14).take s.payloadBytes.length = s.payloadBytes := by
    have : s.body ++ rest = (be32 s.timestamp ++ be32 s.number ++ be32 s.sendingNext ++
        be16 (UInt16.ofNat s.payloadBytes.length)) ++ (s.payloadBytes ++ rest) := by
      simp [body]
    rw [this, drop_left' (by simp), take_left' rfl]
  have hs : ¬(s.body ++ rest).length < 14 := by
    rw [length_append]; omega
  have hf : ¬(s.body ++ rest).length < 14 + s.payloadBytes.length := by
    rw [length_append]; omega
  simp only [parse, hs, ↓reduceIte, hc, hl, hf, hts, hnu, hn, hp, hb]
  refine ⟨_, rfl, ?_⟩
  simp only [wire, payloadBytes, DataSegment.new, Option.getD_none]
  congr 1
  show (Buffer.new.writeFrom s.payloadBytes).1.bytes = s.payloadBytes
  rw [Buffer.bytes_writeFrom, Buffer.bytes_new, Buffer.free_new, nil_append, take_of_length_le h]

theorem AckSegment.parse_body (s : AckSegment) (rest : Bytes) (h : s.numberList.length ≤ 255) :
    ∃ t, (AckSegment.new ACK_NUMBER_LIMIT).parse s.conv s.option (s.body ++ rest) =
        some (t, s.body.length) ∧ (ack t).wire = (ack s).wire := by
  have hl : (UInt8.ofNat s.numberList.length).toNat = s.numberList.length := by
    rw [UInt8.toNat_ofNat', Nat.mod_eq_of_lt (by omega)]
  have hn (l : List UInt32) : (l.flatMap be32).length = l.length * 4 := by
    simp
  have hb : s.body.length = 13 + s.numberList.length * 4 := by
    simp [body, hn]
    omega
  obtain ⟨hw, hne, hts⟩ := u32At_words (show s.body ++ rest = _ by simp only [body, append_assoc]; rfl)
  have hc : byteAt (s.body ++ rest) 12 = UInt8.ofNat s.numberList.length := by
    rfl
  have hnu (i : Nat) : u32At (s.body ++ rest) (13 + i * 4) =
      u32At (s.numberList.flatMap be32 ++ rest) (i * 4) := by
    have : s.body ++ rest = (be32 s.receivingWindow ++ be32 s.receivingNext ++ be32 s.timestamp ++
        [UInt8.ofNat s.numberList.length]) ++ (s.numberList.flatMap be32 ++ rest) := by
      simp [body]
    rw [this, u32At_append (by simp)]
    simp
  have hs : ¬(s.body ++ rest).length < 13 := by
    rw [length_append]; omega
  have hf : ¬(s.body ++ rest).length < 13 + s.numberList.length * 4 := by
    rw [length_append]; omega
  simp only [parse, hs, ↓reduceIte, hc, hl, hf, hw, hne, hts, hnu, hb, map_u32At_flatMap]
  exact ⟨_, rfl, rfl⟩

theorem CmdOnlySegment.parse_body (s : CmdOnlySegment) (rest : Bytes) :
    CmdOnlySegment.new.parse s.conv s.cmd s.option (s.body ++ rest) = some (s, s.body.length) := by
  obtain ⟨hs, hr, hrt⟩ := u32At_words (show s.body ++ rest = _ by simp only [body, append_assoc]; rfl)
  have hsh : ¬(s.body ++ rest).length < 12 := by
    simp [body]
    omega
  simp only [parse, hsh, ↓reduceIte, hs, hr, hrt]
  rfl

theorem readSegment_serialize (s : SegmentKind) (rest : Bytes) (h : s.Valid) :
    ∃ t, readSegment (s.serialize ++ rest) = some (t, s.serialize.length) ∧ t.wire = s.wire := by
  cases s with
  | data s =>
    obtain ⟨t, ht, hw⟩ := s.parse_body rest h
    refine ⟨.data t, ?_, hw⟩
    simp [serialize, DataSegment.serialize, readSegment_header, parseBody, ht]
  | ack s =>
    obtain ⟨t, ht, hw⟩ := s.parse_body rest h
    refine ⟨.ack t, ?_, hw⟩
    simp [serialize, AckSegment.serialize, readSegment_header, parseBody, ht]
  | cmd s =>
    have hp := s.parse_body rest
    refine ⟨.cmd s, ?_, rfl⟩
    have hc : parseBody s.conv s.cmd s.option (s.body ++ rest) = some (.cmd s, s.body.length) := by
      rcases h with h | h <;> rw [h] at hp ⊢ <;> simp [parseBody, hp]
    simp [serialize, CmdOnlySegment.serialize, readSegment_header, hc]

theorem length_serialize_pos (s : SegmentKind) : 0 < s.serialize.length := by
  cases s <;>
    simp only [serialize, DataSegment.serialize, AckSegment.serialize,
      CmdOnlySegment.serialize, length_append, length_header] <;>
    omega

theorem read_flatMap_serialize (segs : List SegmentKind) (h : ∀ s ∈ segs, s.Valid) :
    (KCPPacketReader.read (segs.flatMap serialize)).map wire = segs.map wire := by
  induction segs with
  | nil => simp [KCPPacketReader.read]
  | cons s segs ih =>
    have hs : s.Valid := h s (by simp)
    have hp := length_serialize_pos s
    obtain ⟨t, ht, hw⟩ := readSegment_serialize s (segs.flatMap serialize) hs
    have hne : s.serialize ++ segs.flatMap serialize ≠ [] := by
      intro hn
      rw [(append_eq_nil_iff.mp hn).1] at hp
      exact absurd hp (by simp)
    rw [flatMap_cons, KCPPacketReader.read, if_neg hne, ht]
    simp [ne_of_gt hp, ↓reduceIte, hw, ih (forall_mem_cons.mp h).2]

theorem readSegment_some (h : readSegment buf = some (seg, k)) :
    ∃ cmd n, 4 ≤ buf.length ∧ cmd.toU8 = byteAt buf 2 ∧
      parseBody (u16At buf 0) cmd (byteAt buf 3) (buf.drop 4) = some (seg, n) ∧ k = 4 + n := by
  unfold readSegment at h
  split at h
  · cases h
  · next hl =>
    simp only [Option.bind_eq_bind, Option.bind_eq_some_iff, Option.pure_def,
      Option.some.injEq, Prod.mk.injEq, Prod.exists] at h
    obtain ⟨cmd, hc, t, n, hb, rfl, rfl⟩ := h
    exact ⟨cmd, n, not_lt.mp hl, Command.toU8_of_fromU8 hc, hb, rfl⟩

theorem header_eq_take {cmd : Command} (h : 4 ≤ buf.length) (hc : cmd.toU8 = byteAt buf 2) :
    header (u16At buf 0) cmd (byteAt buf 3) = buf.take 4 := by
  have hp : [byteAt buf 2, byteAt buf 3] = (buf.drop 2).take 2 := by
    rw [drop_eq_byteAt_cons (show 2 < buf.length by omega),
      drop_eq_byteAt_cons (show 3 < buf.length by omega)]
    rfl
  rw [header, hc, hp, be16_u16At (show 0 + 2 ≤ buf.length by omega), drop_zero, ← take_add]

variable {conv : UInt16} {body : Bytes}

theorem DataSegment.parse_sound (h : DataSegment.new.parse conv opt body = some (s, n)) :
    14 ≤ n ∧ n ≤ body.length ∧ s.conv = conv ∧ s.option = opt ∧
      ((u16At body 12).toNat ≤ DEFAULT_SIZE → s.body = body.take n) := by
  unfold parse at h
  split at h
  · cases h
  next hs =>
  simp only at h
  split at h
  · cases h
  next hf =>
  cases h
  refine ⟨by omega, by omega, rfl, rfl, ?_⟩
  intro hsize
  have hl : ((body.drop 14).take (u16At body 12).toNat).length = (u16At body 12).toNat :=
    length_take_of_le (by rw [length_drop]; omega)
  have hp : (Buffer.new.writeFrom ((body.drop 14).take (u16At body 12).toNat)).1.bytes =
      (body.drop 14).take (u16At body 12).toNat := by
    rw [Buffer.bytes_writeFrom, Buffer.bytes_new, Buffer.free_new, nil_append,
      take_of_length_le (by rw [hl]; exact hsize)]
  show be32 (u32At body 0) ++ (be32 (u32At body 4) ++ (be32 (u32At body 8) ++
    (be16 (UInt16.ofNat (Buffer.new.writeFrom _).1.bytes.length) ++
      (Buffer.new.writeFrom _).1.bytes))) = _
  rw [hp, hl, UInt16.ofNat_toNat, be32_u32At (by omega), be32_u32At (by omega),
    be32_u32At (by omega), be16_u16At (by omega)]
  -- the fields are adjacent slices of the body
  rw [slice_append body 12 2, slice_append body 8 4, slice_append body 4 4, slice_append body 0 4,
    drop_zero]
  congr 1
  omega

theorem AckSegment.parse_sound
    (h : (AckSegment.new ACK_NUMBER_LIMIT).parse conv opt body = some (s, n)) :
    13 ≤ n ∧ n ≤ body.length ∧ s.conv = conv ∧ s.option = opt ∧ s.body = body.take n := by
  unfold parse at h
  split at h
  · cases h
  next hs =>
  simp only at h
  split at h
  · cases h
  next hf =>
  cases h
  refine ⟨by omega, by omega, rfl, rfl, ?_⟩
  have hc : UInt8.ofNat (byteAt body 12).toNat = byteAt body 12 := UInt8.ofNat_toNat
  show be32 (u32At body 0) ++ (be32 (u32At body 4) ++ (be32 (u32At body 8) ++
    (UInt8.ofNat (map _ _).length :: flatMap be32 _))) = _
  rw [length_map, length_range, hc, flatMap_be32_map_u32At body 13 (by omega),
    be32_u32At (by omega), be32_u32At (by omega), be32_u32At (by omega), ← singleton_append,
    byteAt_eq_take (by omega)]
  rw [slice_append body 12 1, slice_append body 8 4, slice_append body 4 4, slice_append body 0 4,
    drop_zero]
  congr 1
  omega

theorem CmdOnlySegment.parse_sound {cmd : Command}
    (h : CmdOnlySegment.new.parse conv cmd opt body = some (s, n)) :
    n = 12 ∧ n ≤ body.length ∧ s.conv = conv ∧ s.cmd = cmd ∧ s.option = opt ∧
      s.body = body.take n := by
  unfold parse at h
  split at h
  · cases h
  next hs =>
  cases h
  refine ⟨rfl, by omega, rfl, rfl, rfl, ?_⟩
  show be32 (u32At body 0) ++ (be32 (u32At body 4) ++ be32 (u32At body 8)) = _
  rw [be32_u32At (by omega), be32_u32At (by omega), be32_u32At (by omega)]
  rw [slice_append body 4 4, slice_append body 0 4, drop_zero]

theorem readSegment_sound (h : readSegment buf = some (seg, k)) : 16 ≤ k ∧ k ≤ buf.length ∧
      ((∀ s, seg = .data s → (u16At buf 16).toNat ≤ DEFAULT_SIZE) →
        seg.serialize = buf.take k) := by
  obtain ⟨cmd, n, hl, hcm, hb, rfl⟩ := readSegment_some h
  have hh := header_eq_take hl hcm
  have hd : (buf.drop 4).length = buf.length - 4 := length_drop
  have hcu : buf.take 4 ++ (buf.drop 4).take n = buf.take (4 + n) := take_add.symm
  -- one case for each segment kind; the two commands share theirs
  cases cmd with
  | data =>
    simp only [parseBody, Option.map_eq_some_iff, Prod.mk.injEq, Prod.exists] at hb
    obtain ⟨s, m, hp, rfl, rfl⟩ := hb
    obtain ⟨hmi, hm, hc, ho, hs⟩ := DataSegment.parse_sound hp
    refine ⟨by omega, by omega, ?_⟩
    intro hfits
    have hf : u16At (buf.drop 4) 12 = u16At buf 16 := by
      conv_rhs => rw [← take_append_drop 4 buf]
      rw [u16At_append (by rw [length_take]; omega), length_take_of_le hl]
    have hdata := hs (by rw [hf]; exact hfits s rfl)
    rw [serialize, DataSegment.serialize, hc, ho, hh, hdata, hcu]
  | ack =>
    simp only [parseBody, Option.map_eq_some_iff, Prod.mk.injEq, Prod.exists] at hb
    obtain ⟨s, m, hp, rfl, rfl⟩ := hb
    obtain ⟨hmi, hm, hc, ho, hs⟩ := AckSegment.parse_sound hp
    refine ⟨by omega, by omega, ?_⟩
    intro _
    rw [serialize, AckSegment.serialize, hc, ho, hh, hs, hcu]
  | terminate | ping =>
    simp only [parseBody, Option.map_eq_some_iff, Prod.mk.injEq, Prod.exists] at hb
    obtain ⟨s, m, hp, rfl, rfl⟩ := hb
    obtain ⟨rfl, hm, hc, hk, ho, hs⟩ := CmdOnlySegment.parse_sound hp
    refine ⟨by omega, by omega, ?_⟩
    intro _
    rw [serialize, CmdOnlySegment.serialize, hc, hk, ho, hh, hs, hcu]

/-- The codec in both directions. -/
theorem segment_codec : (∀ segs : List SegmentKind, (∀ s ∈ segs, s.Valid) →
      (KCPPacketReader.read (segs.flatMap serialize)).map wire = segs.map wire) ∧
    ∀ (buf : Bytes) (seg : SegmentKind) (k : Nat), readSegment buf = some (seg, k) →
      16 ≤ k ∧ k ≤ buf.length ∧ ((∀ s, seg = .data s → (u16At buf 16).toNat ≤ DEFAULT_SIZE) →
          seg.serialize = buf.take k) :=
  ⟨fun segs h => read_flatMap_serialize segs h, fun _ _ _ h => readSegment_sound h⟩

/-- A packet of a data segment, an acknowledgement and a ping, and the first
segment of the same packet read on its own. -/
theorem segment_codec_packet :
    let data : SegmentKind := .data { DataSegment.new with
        conv := 7, number := 3, payload := some (Buffer.new.writeFrom [10, 20]).1 }
    let ack : SegmentKind := .ack { AckSegment.new 128 with conv := 7, numberList := [3, 4] }
    let ping : SegmentKind := .cmd { CmdOnlySegment.new with conv := 7, receivingNext := 5 }
    let packet := [data, ack, ping].flatMap serialize
    (KCPPacketReader.read packet).map wire = [data, ack, ping].map wire ∧
      data.serialize = packet.take 20 := by
  refine ⟨segment_codec.1 _ (by decide), ?_⟩
  refine (segment_codec.2 _ _ 20 rfl).2.2 ?_
  intro s _
  decide

end XrayCore.Kcp
