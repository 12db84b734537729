import XrayCore.Lib.Chunks
import XrayCore.Lib.Slots
import XrayCore.Tuic.Packet

/-!
# Fragments of a TUIC packet

A payload that does not fit one datagram is cut into fragments, of which only the first carries the
address. The receiver collects the fragments of one packet at a time. They come back together
whatever their order, but a payload that fits one datagram is sent whole even if the receiver
refuses its size.
-/

namespace XrayCore.Tuic

open Lib List

/-- Data that fits the datagram is not checked against `MAX_PACKET_PAYLOAD`. -/
def buildNativeFragments (assocId pktId : UInt16) (target : Address) (data : Bytes)
    (fragPayload : Nat) : Except TuicError (List Packet) :=
  if data.length ≤ fragPayload then .ok [Packet.new assocId pktId target data]
  else if MAX_PACKET_PAYLOAD < data.length then .error (.packetTooLarge data.length)
  else
    let fragTotal := (data.length + fragPayload - 1) / fragPayload
    if 255 < fragTotal then .error (.packetTooLarge data.length)
    else
      .ok ((chunks fragPayload data).mapIdx fun i chunk =>
        ⟨assocId, pktId, UInt8.ofNat fragTotal, UInt8.ofNat i,
          if i = 0 then target else .none, chunk⟩)

structure FragmentAssembler where
  pktId : UInt16
  frags : List (Option Bytes)
  received : UInt8
  firstAddr : Option Address
  assocId : UInt16
  deriving DecidableEq

namespace FragmentAssembler

def new : FragmentAssembler := ⟨0, [], 0, none, 0⟩

def opened (a : FragmentAssembler) (pkt : Packet) : FragmentAssembler :=
  if pkt.pktId ≠ a.pktId ∨ a.frags.length ≠ pkt.fragTotal.toNat then
    { a with
      pktId := pkt.pktId, frags := replicate pkt.fragTotal.toNat none, received := 0,
      firstAddr := none }
  else a

def store (a : FragmentAssembler) (pkt : Packet) : FragmentAssembler :=
  if a.frags[pkt.fragId.toNat]? = some none then
    { a with
      firstAddr := if pkt.fragId = 0 then some pkt.addr else a.firstAddr
      frags := a.frags.set pkt.fragId.toNat (some pkt.data)
      received := satSucc a.received }
  else a

def completed (a : FragmentAssembler) : Packet :=
  ⟨a.assocId, a.pktId, 1, 0, a.firstAddr.getD .none, a.frags.reduceOption.flatten⟩

def feed (a : FragmentAssembler) (pkt : Packet) :
    Except TuicError (FragmentAssembler × Option Packet) :=
  if pkt.fragTotal ≤ 1 then .ok (a, some pkt)
  else if pkt.fragTotal = 0 ∨ pkt.fragTotal ≤ pkt.fragId then
    .error (.unsupportedFragment pkt.fragTotal pkt.fragId)
  else
    let a := store { a.opened pkt with assocId := pkt.assocId } pkt
    if a.received = pkt.fragTotal then
      .ok ({ a with frags := [], received := 0, firstAddr := none }, some a.completed)
    else .ok (a, none)

def outputs : FragmentAssembler → List Packet → Except TuicError (List Packet)
  | _, [] => .ok []
  | a, pkt :: arrivals => do
    let (a, out) ← a.feed pkt
    return out.toList ++ (← a.outputs arrivals)

theorem outputs_cons {a a' : FragmentAssembler} {pkt : Packet} {out : Option Packet}
    (h : a.feed pkt = .ok (a', out)) {arrs outs : List Packet}
    (hrest : a'.outputs arrs = .ok outs) : a.outputs (pkt :: arrs) = .ok (out.toList ++ outs) := by
  rw [outputs, h, ok_bind]
  change (a'.outputs arrs >>= fun outs => pure (out.toList ++ outs)) = _
  rw [hrest]
  rfl

end FragmentAssembler

structure Origin where
  assocId : UInt16
  pktId : UInt16
  addr : Address
  pieces : List Bytes
  fits : addr.Fits
  length_pos : 0 < pieces.length
  length_le : pieces.length ≤ 255
  piece_le : ∀ piece ∈ pieces, piece.length ≤ MAX_PACKET_PAYLOAD

namespace Origin

def piece (o : Origin) (i : Nat) : Bytes := o.pieces.getD i []

def fragment (o : Origin) (i : Nat) : Packet :=
  ⟨o.assocId, o.pktId, UInt8.ofNat o.pieces.length, UInt8.ofNat i,
    if i = 0 then o.addr else .none, o.piece i⟩

def fragments (o : Origin) : List Packet := (range o.pieces.length).map o.fragment

def whole (o : Origin) : Packet := Packet.new o.assocId o.pktId o.addr o.pieces.flatten

variable {o : Origin} {a : FragmentAssembler} {seen arrivals : List Nat} {i : Nat}

theorem map_piece (o : Origin) : (range o.pieces.length).map o.piece = o.pieces := by
  refine ext_getElem (by simp) fun i _ hi => ?_
  simp [piece, hi]

theorem toNat_fragTotal (o : Origin) (i : Nat) :
    (o.fragment i).fragTotal.toNat = o.pieces.length := by
  have := o.length_le
  rw [fragment, UInt8.toNat_ofNat', Nat.mod_eq_of_lt (by omega)]

theorem toNat_fragId (hi : i < o.pieces.length) : (o.fragment i).fragId.toNat = i := by
  have := o.length_le
  rw [fragment, UInt8.toNat_ofNat', Nat.mod_eq_of_lt (by omega)]

theorem fragId_eq_zero_iff (hi : i < o.pieces.length) : (o.fragment i).fragId = 0 ↔ i = 0 := by
  rw [← UInt8.toNat_inj, toNat_fragId hi]
  rfl

theorem readPayload_fragment (o : Origin) (hi : i < o.pieces.length) :
    Packet.readPayload (o.fragment i).writePayload = .ok (o.fragment i, []) := by
  have ha : (o.fragment i).addr.Fits := by
    by_cases hz : i = 0
    · simpa [fragment, hz] using o.fits
    · simp [fragment, hz, Address.Fits]
  have hdata : (o.fragment i).data.length ≤ MAX_PACKET_PAYLOAD := by
    refine o.piece_le _ ?_
    simp [fragment, piece, hi]
  simpa using Packet.readPayload_writePayload ha hdata []

def held (o : Origin) (seen : List Nat) : FragmentAssembler where
  pktId := o.pktId
  frags := slotsOf o.pieces.length o.piece seen
  received := UInt8.ofNat (filled (slotsOf o.pieces.length o.piece seen))
  firstAddr := if 0 ∈ seen then some o.addr else none
  assocId := o.assocId

def Collecting (o : Origin) (a : FragmentAssembler) (seen : List Nat) : Prop :=
  ∀ i < o.pieces.length,
    { a.opened (o.fragment i) with assocId := (o.fragment i).assocId } = o.held seen

open FragmentAssembler

theorem collecting_nil (ha : a.frags = []) : o.Collecting a [] := by
  intro i _
  have ho : (o.fragment i).pktId ≠ a.pktId ∨ a.frags.length ≠ (o.fragment i).fragTotal.toNat := by
    right
    rw [toNat_fragTotal, ha, length_nil]
    omega
  rw [opened, if_pos ho, toNat_fragTotal, held, slotsOf_nil, filled_replicate_none]
  rfl

theorem collecting_held (o : Origin) (seen : List Nat) : o.Collecting (o.held seen) seen := by
  intro i _
  have ho : ¬((o.fragment i).pktId ≠ (o.held seen).pktId ∨
      (o.held seen).frags.length ≠ (o.fragment i).fragTotal.toNat) := by
    rw [toNat_fragTotal]
    simp [held, fragment]
  rw [opened, if_neg ho]
  rfl

theorem store_held (hi : i < o.pieces.length) :
    (o.held seen).store (o.fragment i) = o.held (i :: seen) := by
  rw [store, toNat_fragId hi]
  by_cases hm : i ∈ seen
  · have hs : (o.held seen).frags[i]? ≠ some none := by
      rw [held, getElem?_slotsOf hi]
      simp [hm]
    have hz : 0 ∈ i :: seen ↔ 0 ∈ seen := by
      constructor
      · rintro (_ | ⟨_, h⟩)
        · exact hm
        · exact h
      · exact mem_cons_of_mem i
    rw [if_neg hs, held, held, slotsOf_cons_of_mem hm]
    simp [hz]
  · have hs : (slotsOf o.pieces.length o.piece seen)[i]? = some none := by
      rw [getElem?_slotsOf hi, if_neg hm]
    have hf := filled_set hs (o.piece i)
    have hle := filled_le_length ((slotsOf o.pieces.length o.piece seen).set i (some (o.piece i)))
    have hma := o.length_le
    rw [length_set, length_slotsOf] at hle
    rw [set_slotsOf] at hf hle
    have hsu := satSucc_ofNat (show filled (slotsOf o.pieces.length o.piece seen) < 255 by omega)
    rw [if_pos (show (o.held seen).frags[i]? = some none from hs)]
    simp only [held, fragId_eq_zero_iff hi]
    rw [hsu, hf]
    by_cases hz : i = 0
    · subst hz
      simp [fragment, set_slotsOf]
    · simp [fragment, set_slotsOf, hz, Ne.symm hz]

theorem feed_fragment (htw : 2 ≤ o.pieces.length) (ha : o.Collecting a seen)
    (hi : i < o.pieces.length) : a.feed (o.fragment i) =
      if ∀ j < o.pieces.length, j ∈ i :: seen then
        .ok (⟨o.pktId, [], 0, none, o.assocId⟩, some o.whole)
      else .ok (o.held (i :: seen), none) := by
  have ht := o.toNat_fragTotal i
  have ho : ¬(o.fragment i).fragTotal ≤ 1 := by
    rw [UInt8.le_iff_toNat_le, ht]
    exact not_le.mpr htw
  have hid : ¬((o.fragment i).fragTotal = 0 ∨ (o.fragment i).fragTotal ≤ (o.fragment i).fragId) := by
    rw [UInt8.le_iff_toNat_le, ht, toNat_fragId hi, ← UInt8.toNat_inj, ht]
    rintro (hz | hle)
    · have hn : (0 : UInt8).toNat = 0 := rfl
      omega
    · omega
  have hf : (o.held (i :: seen)).received = (o.fragment i).fragTotal ↔
      ∀ j < o.pieces.length, j ∈ i :: seen := ofNat_filled_eq_iff o.length_le
  rw [feed, if_neg ho, if_neg hid]
  simp only [ha i hi, store_held hi, hf]
  split
  · rename_i hall
    have hz : 0 ∈ i :: seen := hall 0 o.length_pos
    have hj : (o.held (i :: seen)).completed = o.whole := by
      rw [completed]
      simp only [held, slotsOf_full hall, reduceOption_map_some, map_piece, if_pos hz]
      rfl
    rw [hj]
    rfl
  · rfl

theorem feed_single (ho : o.pieces.length = 1) (a : FragmentAssembler) :
    a.feed (o.fragment 0) = .ok (a, some o.whole) := by
  obtain ⟨piece, hp⟩ := length_eq_one_iff.mp ho
  have hf : o.fragment 0 = o.whole := by
    simp [fragment, Origin.piece, whole, Packet.new, hp]
  rw [hf, feed, if_pos]
  exact UInt8.le_refl 1

theorem outputs_collecting (ht : 2 ≤ o.pieces.length)
    (h : Completing o.pieces.length seen arrivals) (ha : o.Collecting a seen) :
    a.outputs (arrivals.map o.fragment) = .ok [o.whole] := by
  induction h generalizing a with
  | last hi hall =>
    have hf := feed_fragment ht ha hi
    rw [if_pos hall] at hf
    exact outputs_cons hf rfl
  | more hi hmiss _ ih =>
    have hf := feed_fragment ht ha hi
    rw [if_neg hmiss] at hf
    exact outputs_cons hf (ih (o.collecting_held _))

theorem outputs_completing (h : Completing o.pieces.length [] arrivals) (ha : a.frags = []) :
    a.outputs (arrivals.map o.fragment) = .ok [o.whole] := by
  rcases lt_or_ge 1 o.pieces.length with ht | hle
  · exact outputs_collecting ht h (collecting_nil ha)
  have ho : o.pieces.length = 1 := le_antisymm hle o.length_pos
  rw [ho] at h
  cases h with
  | last hi _ =>
    obtain rfl := Nat.lt_one_iff.mp hi
    exact outputs_cons (feed_single ho a) rfl
  | more hi hmiss _ =>
    refine absurd (fun j hj => ?_) hmiss
    rw [Nat.lt_one_iff.mp hi, Nat.lt_one_iff.mp hj]
    exact mem_cons_self

end Origin

/-- Each frame parses as itself, and however the frames arrive until the last missing one, an empty
assembler gives back the one packet. -/
def RoundTrips (assocId pktId : UInt16) (target : Address) (data : Bytes)
    (frames : List Packet) : Prop :=
  (∀ f ∈ frames, Packet.readPayload f.writePayload = .ok (f, [])) ∧
    ∀ a : FragmentAssembler, a.frags = [] → ∀ arrivals, Completes frames arrivals →
      a.outputs arrivals = .ok [Packet.new assocId pktId target data]

section Build

variable {assocId pktId : UInt16} {target : Address} {data : Bytes} {fragPayload : Nat}
  {frames : List Packet}

theorem Origin.roundTrips (o : Origin) :
    RoundTrips o.assocId o.pktId o.addr o.pieces.flatten o.fragments := by
  constructor
  · intro f hf
    obtain ⟨i, hi, rfl⟩ := mem_map.mp hf
    exact o.readPayload_fragment (mem_range.mp hi)
  intro a ha ar h
  obtain ⟨hn, hm⟩ := h.completing o.length_pos (·.fragId.toNat) fun i => toNat_fragId
  rw [← hm]
  exact outputs_completing hn ha

theorem exists_origin (hta : target.Fits) (hl : 1 ≤ fragPayload)
    (hdata : data.length ≤ MAX_PACKET_PAYLOAD)
    (h : buildNativeFragments assocId pktId target data fragPayload = .ok frames) :
    ∃ o : Origin, o.assocId = assocId ∧ o.pktId = pktId ∧ o.addr = target ∧
      o.pieces.flatten = data ∧ o.fragments = frames := by
  rw [buildNativeFragments] at h
  by_cases hfits : data.length ≤ fragPayload
  · rw [if_pos hfits] at h
    cases h
    exact ⟨⟨assocId, pktId, target, [data], hta, one_pos, by simp, by simpa using hdata⟩,
      rfl, rfl, rfl, flatten_singleton, rfl⟩
  · rw [if_neg hfits, if_neg (not_lt.mpr hdata), ← length_chunks hl] at h
    by_cases ht : 255 < (chunks fragPayload data).length
    · rw [if_pos ht] at h
      cases h
    rw [if_neg ht] at h
    cases h
    have hpo : 0 < (chunks fragPayload data).length := by
      rw [length_chunks hl]
      exact Nat.div_pos (by omega) hl
    refine ⟨⟨assocId, pktId, target, chunks fragPayload data, hta, hpo,
      not_lt.mp ht, ?_⟩, rfl, rfl, rfl, flatten_chunks hl data, ?_⟩
    · intro piece hp
      have hle := (mem_chunks hp).2
      have hs := List.Sublist.length_le (sublist_flatten_of_mem hp)
      omega
    · refine ext_getElem (by simp [Origin.fragments]) fun i hi _ => ?_
      have hlt : i < (chunks fragPayload data).length := by simpa [Origin.fragments] using hi
      simp [Origin.fragments, Origin.fragment, Origin.piece, hlt]

/-- The frames that are built survive exactly if the data is of a size the receiver takes. -/
theorem native_fragments_round_trip_iff (htarget : target.Fits) (hlimit : 1 ≤ fragPayload)
    (h : buildNativeFragments assocId pktId target data fragPayload = .ok frames) :
    RoundTrips assocId pktId target data frames ↔ data.length ≤ MAX_PACKET_PAYLOAD := by
  constructor
  · intro hround
    by_contra hlarge
    have hlarge := not_le.mp hlarge
    rw [buildNativeFragments] at h
    by_cases hfits : data.length ≤ fragPayload
    · rw [if_pos hfits] at h
      cases h
      have hread := hround.1 _ (mem_singleton_self _)
      have hrefused := Packet.readPayload_oversized (p := Packet.new assocId pktId target data)
        hlarge []
      rw [append_nil, hread] at hrefused
      cases hrefused
    · rw [if_neg hfits, if_pos hlarge] at h
      cases h
  · intro hdata
    obtain ⟨o, rfl, rfl, rfl, rfl, rfl⟩ := exists_origin htarget hlimit hdata h
    exact o.roundTrips

end Build

def localTarget : Address := .ipv4 (Net.Ipv4Addr.new 127 0 0 1) 53

theorem native_fragments_round_trip_three : buildNativeFragments 7 9 localTarget [1, 2, 3, 4, 5] 2 =
        .ok [⟨7, 9, 3, 0, localTarget, [1, 2]⟩, ⟨7, 9, 3, 1, .none, [3, 4]⟩,
          ⟨7, 9, 3, 2, .none, [5]⟩] ∧ RoundTrips 7 9 localTarget [1, 2, 3, 4, 5]
        [⟨7, 9, 3, 0, localTarget, [1, 2]⟩, ⟨7, 9, 3, 1, .none, [3, 4]⟩,
          ⟨7, 9, 3, 2, .none, [5]⟩] := by
  have hbuild : buildNativeFragments 7 9 localTarget [1, 2, 3, 4, 5] 2 =
      .ok [⟨7, 9, 3, 0, localTarget, [1, 2]⟩, ⟨7, 9, 3, 1, .none, [3, 4]⟩,
        ⟨7, 9, 3, 2, .none, [5]⟩] := by decide +kernel
  have htarget : localTarget.Fits := trivial
  exact ⟨hbuild, (native_fragments_round_trip_iff htarget (by decide) hbuild).mpr (by decide)⟩

/-- With room for 20000 bytes in a datagram, 16385 are sent whole and refused. -/
theorem whole_datagram_refused : buildNativeFragments 7 9 localTarget (replicate 16385 0) 20000 =
        .ok [Packet.new 7 9 localTarget (replicate 16385 0)] ∧
      Packet.readPayload (Packet.new 7 9 localTarget (replicate 16385 0)).writePayload =
        .error (.packetTooLarge 16385) := by
  have hlen : (replicate 16385 (0 : UInt8)).length = 16385 := length_replicate
  have hlarge : MAX_PACKET_PAYLOAD <
      (Packet.new 7 9 localTarget (replicate 16385 0)).data.length := by
    rw [Packet.new, hlen]
    decide
  refine ⟨if_pos (by rw [hlen]; decide), ?_⟩
  have hrefused := Packet.readPayload_oversized hlarge []
  rw [append_nil] at hrefused
  rw [hrefused, Packet.new, hlen]
  rfl

end XrayCore.Tuic
