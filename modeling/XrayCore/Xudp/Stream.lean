import XrayCore.Lib.Accumulate
import XrayCore.Xudp.RoundTrip

/-!
# Frames on a stream

`read_packet` on the front of a stream, as its consumers use it. What it says of an incomplete frame
it says as well of a frame without data that is not a keep-alive, so a consumer waits at such a
frame (`Blocks`).
-/

namespace XrayCore.Xudp

open Lib Net List PacketReader

def Settled : Except PacketError (Option PacketData) → Prop
  | .ok none => False
  | .error .io => False
  | _ => True

def Pass.Settled : Pass → Prop
  | .done result _ => Xudp.Settled result
  | .again _ => True

def Pass.extend (more : Bytes) : Pass → Pass
  | .done result rest => .done result (rest ++ more)
  | .again rest => .again (rest ++ more)

variable {b rest taken : Bytes} {n : Nat} {m : FrameMetadata}

theorem readExact_extend (more : Bytes) (h : readExact n b = some (taken, rest)) :
    readExact n (b ++ more) = some (taken, rest ++ more) := by
  unfold readExact at h ⊢
  split at h
  · cases h
  next hl =>
  cases h
  rw [not_lt] at hl
  rw [if_neg (by rw [length_append]; omega), take_append_of_le_length hl,
    drop_append_of_le_length hl]

namespace PacketReader

theorem withoutData_extend (more : Bytes) (h : (withoutData m b).Settled) :
    withoutData m (b ++ more) = (withoutData m b).extend more := by
  unfold withoutData at h ⊢
  split at h
  · next hk => rw [if_pos hk, if_pos hk, Pass.extend]
  · cases h

theorem readData_extend (more : Bytes) (h : (readData m b).Settled) :
    readData m (b ++ more) = (readData m b).extend more := by
  unfold readData at h ⊢
  split at h
  · next hdata =>
    rw [if_pos hdata, if_pos hdata]
    cases hl : readExact 2 b with
    | none => simp [hl, Pass.Settled, Settled] at h
    | some r =>
      obtain ⟨dl, b1⟩ := r
      simp only [hl, readExact_extend more hl] at h ⊢
      split at h
      · next hp =>
        rw [if_pos hp, if_pos hp]
        cases hr : readExact (u16At dl 0).toNat b1 with
        | none => simp [hr, Pass.Settled, Settled] at h
        | some r => simp [readExact_extend more hr, Pass.extend]
      · next hp =>
        rw [if_neg hp, if_neg hp]
        exact withoutData_extend more h
  · next hdata =>
    rw [if_neg hdata, if_neg hdata]
    exact withoutData_extend more h

theorem readFrame_extend (more : Bytes) (h : (readFrame b).Settled) :
    readFrame (b ++ more) = (readFrame b).extend more := by
  unfold readFrame at h ⊢
  cases hl : readExact 2 b with
  | none => simp [hl, Pass.Settled, Settled] at h
  | some r =>
    obtain ⟨lb, b1⟩ := r
    simp only [hl, readExact_extend more hl] at h ⊢
    split at h
    · next hs => rw [if_pos hs, if_pos hs, Pass.extend]
    · next hs =>
      rw [if_neg hs, if_neg hs]
      cases hb : readExact (u16At lb 0).toNat b1 with
      | none => simp [hb, Pass.Settled, Settled] at h
      | some r =>
        obtain ⟨body, b2⟩ := r
        simp only [hb, readExact_extend more hb] at h ⊢
        cases hm : FrameMetadata.fromBytes (lb ++ body) with
        | error e => simp only [Pass.extend]
        | ok r =>
          simp only [hm] at h ⊢
          exact readData_extend more h

theorem readPacket_extend (more : Bytes) (h : Settled (readPacket b).1) :
    readPacket (b ++ more) = ((readPacket b).1, (readPacket b).2 ++ more) := by
  induction hl : b.length using Nat.strongRecOn generalizing b with
  | ind n ih =>
    rw [readPacket_eq b] at h ⊢
    rw [readPacket_eq (b ++ more)]
    cases hp : readFrame b with
    | done r rest =>
      rw [hp] at h
      have hf : readFrame (b ++ more) = .done r (rest ++ more) := by
        rw [readFrame_extend more (by rw [hp]; exact h), hp, Pass.extend]
      simp [hf]
    | again rest =>
      rw [hp] at h
      have hf : readFrame (b ++ more) = .again (rest ++ more) := by
        rw [readFrame_extend more (by rw [hp]; trivial), hp, Pass.extend]
      simp only [hf]
      exact ih rest.length (hl ▸ length_of_readFrame hp) h rfl

variable {p : PacketData}

theorem length_of_readData_ok (h : readData m b = .done (.ok (some p)) rest) :
    rest.length ≤ b.length := by
  have hw : ∀ b', withoutData m b' ≠ .done (.ok (some p)) rest := by
    intro b'
    unfold withoutData
    split <;> simp
  unfold readData at h
  split at h
  · split at h
    · cases h
    next dl b1 hdl =>
    have hl := length_of_readExact hdl
    dsimp only at h
    split at h
    · split at h
      · cases h
      next hdata =>
      have := length_of_readExact hdata
      cases h
      omega
    · exact absurd h (hw _)
  · exact absurd h (hw _)

theorem length_of_readFrame_ok (h : readFrame b = .done (.ok (some p)) rest) :
    rest.length < b.length := by
  unfold readFrame at h
  split at h
  · cases h
  next lb b1 hl =>
  have h1 := length_of_readExact hl
  dsimp only at h
  split at h
  · cases h
  split at h
  · cases h
  next body b2 hb =>
  have h2 := length_of_readExact hb
  split at h
  · cases h
  · have h3 := length_of_readData_ok h
    omega

theorem length_of_readPacket (h : readPacket b = (.ok (some p), rest)) :
    rest.length < b.length := by
  induction hl : b.length using Nat.strongRecOn generalizing b with
  | ind n ih =>
    rw [readPacket_eq] at h
    cases hp : readFrame b with
    | done r rest' =>
      rw [hp] at h
      cases h
      exact hl ▸ length_of_readFrame_ok hp
    | again rest' =>
      rw [hp] at h
      have hs := length_of_readFrame hp
      exact (ih rest'.length (hl ▸ hs) h rfl).trans (hl ▸ hs)

/-- `read_packet` as its consumers take it: no packet and an end of the input mean that more is
needed. -/
def front (b : Bytes) : Front UInt8 PacketData PacketError :=
  match readPacket b with
  | (.ok (some p), rest) => .item p rest
  | (.ok none, _) => .wait
  | (.error .io, _) => .wait
  | (.error e, _) => .fail e

theorem front_eq_item : front b = .item p rest ↔ readPacket b = (.ok (some p), rest) := by
  unfold front
  split <;> simp_all

theorem front_eq_fail : front b = .fail e ↔ e ≠ .io ∧ ∃ rest, readPacket b = (.error e, rest) := by
  unfold front
  split <;> grind

def frontReader : FrontReader UInt8 PacketData PacketError where
  front := front
  shorter h := length_of_readPacket (front_eq_item.mp h)
  item_append more h := by
    rw [front_eq_item] at h ⊢
    rw [readPacket_extend more (by rw [h]; trivial), h]
  fail_append more h := by
    rw [front_eq_fail] at h ⊢
    obtain ⟨hio, rest, h⟩ := h
    refine ⟨hio, rest ++ more, ?_⟩
    rw [readPacket_extend more, h]
    rw [h]
    unfold Settled
    split <;> simp_all

end PacketReader

namespace Reads

variable {ps qs : List PacketData}

theorem congr (h : Reads b ps) (he : readPacket b = readPacket b') : Reads b' ps := by
  cases h with
  | done h => exact .done (he ▸ h)
  | next h hrest => exact .next (he ▸ h) hrest

theorem head (h : Reads b ps) : (readPacket b).1 = .ok ps.head? := by
  cases h with
  | done h | next h => rw [h]; rfl

theorem unique (hp : Reads b ps) (hq : Reads b qs) : ps = qs := by
  induction hp generalizing qs with
  | done h =>
    cases hq with
    | done => rfl
    | next h' => simp [h] at h'
  | next h _ ih =>
    cases hq with
    | done h' => simp [h] at h'
    | next h' hrest =>
      rw [h] at h'
      cases h'
      rw [ih hrest]

theorem drain (h : Reads b ps) : ∃ left, frontReader.drain b = (ps, .ok left) := by
  induction h with
  | done h =>
    refine ⟨_, FrontReader.drain_of_wait ?_⟩
    change front _ = _
    rw [front, h]
  | next h _ ih =>
    obtain ⟨left, ih⟩ := ih
    exact ⟨left, by rw [FrontReader.drain_of_item (front_eq_item.mpr h), ih]⟩

end Reads

/-- A frame on the wire: metadata that can be read, and the data that it announces. -/
structure StreamFrame where
  header : Bytes
  metadata : FrameMetadata
  parses : FrameMetadata.fromBytes header = .ok (metadata, header.length)
  data : Bytes
  data_lt : data.length < UInt16.size
  announced : metadata.hasData = false → data = []

namespace StreamFrame

def bytes (f : StreamFrame) : Bytes :=
  f.header ++ if f.metadata.hasData then be16 (UInt16.ofNat f.data.length) ++ f.data else []

def packet (f : StreamFrame) : PacketData := ⟨f.data, f.metadata.target⟩

def Blocks (f : StreamFrame) : Prop := f.data = [] ∧ f.metadata.status ≠ .keepAlive

def packets (frames : List StreamFrame) : List PacketData :=
  (frames.filter (·.data ≠ [])).map packet

section

variable (f : StreamFrame)

include f

theorem readFrame_header (rest : Bytes) :
    readFrame (f.header ++ rest) = readData f.metadata rest := by
  have hp := f.parses
  unfold FrameMetadata.fromBytes at hp
  split at hp
  · cases hp
  next ht =>
  dsimp only at hp
  split at hp
  · cases hp
  next hm =>
  split at hp
  · cases hp
  split at hp
  · cases hp
  split at hp
  · cases hp
  have hl : f.header.length = 2 + (u16At f.header 0).toNat := (congrArg Prod.snd (Except.ok.inj hp)).symm
  have hf : (f.header.take 2).length = 2 := by
    rw [length_take]
    omega
  have hu16 : u16At (f.header.take 2) 0 = u16At f.header 0 := by
    simp [u16At, byteAt]
  have hb : (f.header.drop 2).length = (u16At (f.header.take 2) 0).toNat := by
    rw [length_drop, hu16]
    omega
  have hs : f.header ++ rest = f.header.take 2 ++ (f.header.drop 2 ++ rest) := by
    rw [← append_assoc, take_append_drop]
  rw [hs, readFrame, readExact_append hf]
  dsimp only
  rw [if_neg (by rw [hu16]; exact hm), readExact_append hb]
  dsimp only
  rw [take_append_drop, f.parses]

theorem readData_bytes (rest : Bytes) : readData f.metadata
        ((if f.metadata.hasData then be16 (UInt16.ofNat f.data.length) ++ f.data else []) ++ rest) =
      if f.data ≠ [] then .done (.ok (some f.packet)) rest
      else withoutData f.metadata rest := by
  cases hdata : f.metadata.hasData with
  | false =>
    rw [f.announced hdata, readData, hdata]
    rfl
  | true =>
    by_cases hne : f.data = []
    · have hz : (u16At (be16 (UInt16.ofNat ([] : Bytes).length)) 0).toNat = 0 := by decide
      rw [readData, hdata, hne, if_pos rfl, if_pos rfl, append_nil,
        readExact_append (length_be16 _)]
      simp only [hz, lt_irrefl, ne_eq, not_true_eq_false, ↓reduceIte]
    · obtain ⟨hdr, ⟨s, hasData, t, gi⟩, p, data, hlt, ha⟩ := f
      obtain rfl : hasData = true := hdata
      rw [if_pos rfl, if_pos hne]
      exact readData_append hne hlt t gi rest

theorem readFrame_bytes (rest : Bytes) :
    readFrame (f.bytes ++ rest) = if f.data ≠ [] then .done (.ok (some f.packet)) rest
      else withoutData f.metadata rest := by
  rw [bytes, append_assoc, readFrame_header, readData_bytes]

theorem readPacket_packet (h : f.data ≠ []) (rest : Bytes) :
    readPacket (f.bytes ++ rest) = (.ok (some f.packet), rest) := by
  rw [readPacket_eq, readFrame_bytes, if_pos h]

theorem readPacket_blocks (h : f.Blocks) (rest : Bytes) :
    readPacket (f.bytes ++ rest) = (.ok none, rest) := by
  rw [readPacket_eq, readFrame_bytes, if_neg (not_not.mpr h.1), withoutData, if_neg h.2]

theorem readPacket_keepAlive (h : f.data = []) (hb : ¬ f.Blocks) (rest : Bytes) :
    readPacket (f.bytes ++ rest) = readPacket rest := by
  have hk : f.metadata.status = .keepAlive := not_not.mp fun hne => hb ⟨h, hne⟩
  rw [readPacket_eq, readFrame_bytes, if_neg (not_not.mpr h), withoutData, if_pos hk]

end

def reached : List StreamFrame → List PacketData
  | [] => []
  | f :: frames =>
    if f.data ≠ [] then f.packet :: reached frames
    else if f.metadata.status = .keepAlive then reached frames
    else []

theorem reads_reached (fs : List StreamFrame) : Reads (fs.flatMap bytes) (reached fs) := by
  induction fs with
  | nil => exact .done rfl
  | cons f fs ih =>
    rw [flatMap_cons, reached]
    by_cases hdata : f.data = []
    · rw [if_neg (not_not.mpr hdata)]
      by_cases hk : f.metadata.status = .keepAlive
      · rw [if_pos hk]
        exact ih.congr (f.readPacket_keepAlive hdata (fun hb => hb.2 hk) _).symm
      · rw [if_neg hk]
        exact .done (f.readPacket_blocks ⟨hdata, hk⟩ _)
    · rw [if_pos hdata]
      exact .next (f.readPacket_packet hdata _) ih

theorem drain_frames (fs : List StreamFrame) :
    ∃ left, frontReader.drain (fs.flatMap bytes) = (reached fs, .ok left) :=
  (reads_reached fs).drain

def NoneBehind (frames : List StreamFrame) : Prop :=
  ∀ front f rest, frames = front ++ f :: rest → f.Blocks → ∀ g ∈ rest, g.data = []

theorem noneBehind_cons :
    NoneBehind (f :: frames) ↔ (f.Blocks → ∀ g ∈ frames, g.data = []) ∧ NoneBehind frames := by
  constructor
  · intro h
    refine ⟨h [] f frames rfl, fun fr f' rest hs => h (f :: fr) f' rest ?_⟩
    rw [hs, cons_append]
  rintro ⟨hh, ht⟩ fr f' rest hs
  cases fr with
  | nil =>
    cases hs
    exact hh
  | cons x fr =>
    cases hs
    exact ht fr f' rest rfl

theorem packets_eq_nil_iff : packets frames = [] ↔ ∀ g ∈ frames, g.data = [] := by
  simp [packets]

theorem reached_prefix (frames : List StreamFrame) : reached frames <+: packets frames := by
  induction frames with
  | nil => exact prefix_rfl
  | cons f frames ih =>
    unfold reached packets
    split
    · next hdata => simpa [hdata, packets] using ih
    · next hdata =>
      split
      · simpa [not_not.mp hdata, packets] using ih
      · exact nil_prefix

theorem reached_eq_packets_iff (frames : List StreamFrame) :
    reached frames = packets frames ↔ NoneBehind frames := by
  induction frames with
  | nil => simp [reached, packets, NoneBehind]
  | cons f frames ih =>
    rw [noneBehind_cons, reached, ← ih]
    by_cases hdata : f.data = []
    · have hpackets : packets (f :: frames) = packets frames := by simp [packets, hdata]
      rw [hpackets, if_neg (not_not.mpr hdata)]
      by_cases hk : f.metadata.status = .keepAlive
      · simp [Blocks, hk]
      -- behind the frame nothing is reached, so there must be nothing to reach
      have hb : f.Blocks := ⟨hdata, hk⟩
      rw [if_neg hk, eq_comm, packets_eq_nil_iff, ih]
      refine ⟨fun hn => ⟨fun _ => hn, ?_⟩, fun h => h.1 hb⟩
      rintro fr f' rest rfl - g hg
      exact hn g (mem_append_right _ (mem_cons_of_mem _ hg))
    · have hpackets : packets (f :: frames) = f.packet :: packets frames := by
        simp [packets, hdata]
      simp [hpackets, hdata, Blocks]

theorem NoneBehind.suffix (h : NoneBehind (fs ++ gs)) : NoneBehind gs := by
  rintro fr f rest rfl
  exact h (fs ++ fr) f rest (append_assoc ..).symm

/-- All the data is read before the end is announced, and the end is announced only where no data
is left, exactly when none stands behind a frame that blocks. -/
theorem reads_to_end_iff (frames : List StreamFrame) :
    (Reads (frames.flatMap bytes) (packets frames) ↔ NoneBehind frames) ∧
    ((∀ front rest, frames = front ++ rest →
        (readPacket (rest.flatMap bytes)).1 = .ok none → packets rest = []) ↔
      NoneBehind frames) := by
  refine ⟨?_, fun h front f rest hf hb => ?_, ?_⟩
  · rw [← reached_eq_packets_iff]
    exact ⟨( reads_reached frames).unique, fun h => h ▸ reads_reached frames⟩
  · have hend := congrArg Prod.fst (f.readPacket_blocks hb (rest.flatMap bytes))
    have hnil := packets_eq_nil_iff.mp (h front (f :: rest) hf hend)
    exact (forall_mem_cons.mp hnil).2
  · rintro h front rest rfl hend
    rw [(reads_reached rest).head, (reached_eq_packets_iff rest).mpr (NoneBehind.suffix h)] at hend
    exact head?_eq_none_iff.mp (Except.ok.inj hend)

end StreamFrame

end XrayCore.Xudp
