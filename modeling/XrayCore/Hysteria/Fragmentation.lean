import Mathlib.Data.List.Dedup
import XrayCore.Hysteria.Protocol
import XrayCore.Lib.Chunks
import XrayCore.Lib.Slots

/-!
# Fragments of a UDP message

A message that is too large is cut into fragments, which are numbered and counted in one byte.
The receiver collects the fragments of one packet at a time: a fragment of another packet id, or
with another count, drops what was there. The fragments of a message come back together whatever
their order, as long as their number fits the byte it is sent in.
-/

namespace XrayCore.Hysteria

open Lib Net List

def fragLoop (m : UdpMessage) (maxPayload : Nat) (fragCount : UInt8) (rest : Bytes)
    (fragId : UInt8) : List UdpMessage :=
  if rest.length = 0 ∨ maxPayload = 0 then []
  else
    { m with fragId := fragId, fragCount := fragCount, data := rest.take maxPayload } ::
      fragLoop m maxPayload fragCount (rest.drop maxPayload) (satSucc fragId)
termination_by rest.length
decreasing_by
  rename_i h
  rw [List.length_drop]
  omega

def fragUdpMessage (m : UdpMessage) (maxSize : Nat) : List UdpMessage :=
  if m.size ≤ maxSize then [m]
  else
    let maxPayload := maxSize - m.headerSize
    if maxPayload = 0 then []
    else
      fragLoop m maxPayload (UInt8.ofNat ((m.data.length + maxPayload - 1) / maxPayload)) m.data 0

structure Defragger where
  pktId : UInt16
  frags : List (Option UdpMessage)
  count : UInt8
  deriving DecidableEq

namespace Defragger

def new : Defragger := ⟨0, [], 0⟩

/-- A fragment of another packet, or with another count, starts over. -/
def opened (d : Defragger) (m : UdpMessage) : Defragger :=
  if m.packetId ≠ d.pktId ∨ m.fragCount.toNat ≠ d.frags.length then
    ⟨m.packetId, List.replicate m.fragCount.toNat none, 0⟩
  else d

def store (d : Defragger) (m : UdpMessage) : Defragger :=
  if d.frags[m.fragId.toNat]? = some none then
    { d with frags := d.frags.set m.fragId.toNat (some m), count := satSucc d.count }
  else d

def joined (parts : List UdpMessage) : String × Bytes :=
  parts.foldl (fun (addr, data) f => (if addr = "" then f.addr else addr, data ++ f.data)) ("", [])

def feed (d : Defragger) (m : UdpMessage) : Defragger × Option UdpMessage :=
  if m.fragCount ≤ 1 then (d, some m)
  else if m.fragCount ≤ m.fragId then (d, none)
  else
    let d := (d.opened m).store m
    if d.count = m.fragCount then
      let (addr, data) := joined d.frags.reduceOption
      ({ d with frags := [], count := 0 }, some ⟨m.sessionId, m.packetId, 0, 1, addr, data⟩)
    else (d, none)

def outputs : Defragger → List UdpMessage → List UdpMessage
  | _, [] => []
  | d, m :: arrivals => (d.feed m).2.toList ++ (d.feed m).1.outputs arrivals

end Defragger

theorem satSucc_clamped (k : Nat) :
    satSucc (UInt8.ofNat (min 255 k)) = UInt8.ofNat (min 255 (k + 1)) := by
  rcases lt_or_ge k 255 with h | h
  · rw [min_eq_right h.le, min_eq_right h, satSucc_ofNat h]
  · rw [min_eq_left h, min_eq_left (Nat.le_succ_of_le h)]
    rfl

def fragment (m : UdpMessage) (fragCount : UInt8) (i : Nat) (piece : Bytes) : UdpMessage :=
  { m with fragId := UInt8.ofNat (min 255 i), fragCount := fragCount, data := piece }

theorem fragLoop_eq (m : UdpMessage) (maxPayload : Nat) (fragCount : UInt8) (rest : Bytes)
    (k : Nat) : fragLoop m maxPayload fragCount rest (UInt8.ofNat (min 255 k)) =
      (chunks maxPayload rest).mapIdx fun i piece => fragment m fragCount (k + i) piece := by
  fun_induction chunks maxPayload rest generalizing k with
  | case1 rest h =>
    rw [fragLoop, if_pos h]
    rfl
  | case2 rest h ih =>
    rw [fragLoop, if_neg h, satSucc_clamped, ih, mapIdx_cons]
    congr 2
    funext i piece
    rw [add_right_comm, add_assoc]

section Collect

variable {n : Nat} {part : Nat → UdpMessage} {pid : UInt16} {d : Defragger} {seen : List Nat}

structure Numbered (n : Nat) (pid : UInt16) (part : Nat → UdpMessage) : Prop where
  two_le : 2 ≤ n
  le : n ≤ 255
  fragId : ∀ i < n, (part i).fragId = UInt8.ofNat i
  fragCount : ∀ i < n, (part i).fragCount = UInt8.ofNat n
  packetId : ∀ i < n, (part i).packetId = pid

def Collecting (n : Nat) (pid : UInt16) (part : Nat → UdpMessage) (d : Defragger)
    (seen : List Nat) : Prop :=
  ∀ i < n, d.opened (part i) =
    ⟨pid, slotsOf n part seen, UInt8.ofNat (filled (slotsOf n part seen))⟩

variable {i : Nat} (h : Numbered n pid part)

include h

theorem Numbered.toNat_fragCount (hi : i < n) : (part i).fragCount.toNat = n := by
  rw [h.fragCount i hi, UInt8.toNat_ofNat']
  have := h.le
  omega

theorem Numbered.toNat_fragId (hi : i < n) : (part i).fragId.toNat = i := by
  rw [h.fragId i hi, UInt8.toNat_ofNat']
  have := h.le
  omega

theorem Numbered.in_range (hi : i < n) :
    ¬(part i).fragCount ≤ 1 ∧ ¬(part i).fragCount ≤ (part i).fragId := by
  rw [UInt8.le_iff_toNat_le, UInt8.le_iff_toNat_le, h.toNat_fragCount hi, h.toNat_fragId hi]
  exact ⟨not_le.mpr h.two_le, not_le.mpr hi⟩

theorem Numbered.collecting_nil (hd : d.frags = []) : Collecting n pid part d [] := by
  intro i hi
  have hc := h.toNat_fragCount hi
  have ho : (part i).packetId ≠ d.pktId ∨ (part i).fragCount.toNat ≠ d.frags.length := by
    right
    rw [hc, hd, length_nil]
    omega
  rw [Defragger.opened, if_pos ho, hc, h.packetId i hi, slotsOf_nil, filled_replicate_none]
  rfl

theorem opened_of_open (hi : i < n) : (Defragger.mk pid (slotsOf n part seen) cnt).opened (part i) =
      ⟨pid, slotsOf n part seen, cnt⟩ := by
  rw [Defragger.opened, if_neg]
  rw [h.packetId i hi, h.toNat_fragCount hi, length_slotsOf]
  simp

theorem Collecting.store (hd : Collecting n pid part d seen)
    (hi : i < n) : (d.opened (part i)).store (part i) =
      ⟨pid, slotsOf n part (i :: seen), UInt8.ofNat (filled (slotsOf n part (i :: seen)))⟩ := by
  rw [hd i hi, Defragger.store]
  simp only [h.toNat_fragId hi]
  rw [getElem?_slotsOf hi]
  by_cases hm : i ∈ seen
  · rw [if_neg (by simp [hm]), slotsOf_cons_of_mem hm]
  have he : (slotsOf n part seen)[i]? = some none := by
    rw [getElem?_slotsOf hi, if_neg hm]
  have hf := filled_set he (part i)
  have hle := filled_le_length ((slotsOf n part seen).set i (some (part i)))
  rw [length_set, length_slotsOf] at hle
  rw [if_pos (by simp [hm]), set_slotsOf, satSucc_ofNat, ← hf, set_slotsOf]
  have := h.le
  omega

theorem feed_numbered (hd : Collecting n pid part d seen)
    (hi : i < n) : d.feed (part i) = if ∀ j < n, j ∈ i :: seen then
        let (addr, data) := Defragger.joined ((range n).map part)
        (⟨pid, [], 0⟩, some ⟨(part i).sessionId, pid, 0, 1, addr, data⟩) else
        (⟨pid, slotsOf n part (i :: seen), UInt8.ofNat (filled (slotsOf n part (i :: seen)))⟩,
          none) := by
  obtain ⟨ho, hid⟩ := h.in_range hi
  have hf : UInt8.ofNat (filled (slotsOf n part (i :: seen))) = (part i).fragCount ↔
      ∀ j < n, j ∈ i :: seen := by
    rw [h.fragCount i hi, ofNat_filled_eq_iff h.le]
  rw [Defragger.feed, if_neg ho, if_neg hid]
  simp only [hd.store h hi, hf, h.packetId i hi]
  split
  · rename_i hall
    rw [slotsOf_full hall, reduceOption_map_some]
  · rfl

theorem outputs_numbered  (hc : Completing n seen arrivals) (hd : Collecting n pid part d seen) :
    ∃ i ∈ arrivals, d.outputs (arrivals.map part) =
      [⟨(part i).sessionId, pid, 0, 1, (Defragger.joined ((range n).map part)).1,
        (Defragger.joined ((range n).map part)).2⟩] := by
  induction hc generalizing d with
  | @last seen i hi hall =>
    refine ⟨i, mem_singleton_self i, ?_⟩
    rw [map_singleton, Defragger.outputs, feed_numbered h hd hi, if_pos hall]
    rfl
  | @more seen arrivals i hi hmiss _ ih =>
    obtain ⟨j, hj, ho⟩ := ih fun j hj => opened_of_open h hj
    refine ⟨j, mem_cons_of_mem _ hj, ?_⟩
    rw [map_cons, Defragger.outputs, feed_numbered h hd hi, if_neg hmiss]
    exact ho

end Collect

theorem joined_eq (hne : parts ≠ []) (ha : addr ≠ "") (h : ∀ f ∈ parts, f.addr = addr) :
    Defragger.joined parts = (addr, (parts.map (·.data)).flatten) := by
  have hfo : ∀ data : Bytes, parts.foldl (fun (addr, data) f =>
      (if addr = "" then f.addr else addr, data ++ f.data)) (addr, data) =
        (addr, data ++ (parts.map (·.data)).flatten) := by
    clear h hne
    induction parts with
    | nil => simp
    | cons f parts ih => simp [ha, ih]
  cases parts with
  | nil => exact absurd rfl hne
  | cons f parts =>
    have hf := h f mem_cons_self
    simpa [Defragger.joined, ha, hf] using hfo []

section Split

variable (m : UdpMessage) (maxSize : Nat)

def pieces : List Bytes := chunks (maxSize - m.headerSize) m.data

def fragmentAt (i : Nat) : UdpMessage :=
  fragment m (UInt8.ofNat (pieces m maxSize).length) i ((pieces m maxSize).getD i [])

variable {m maxSize}

theorem fragUdpMessage_split (hroom : m.headerSize < maxSize) (hsize : maxSize < m.size) :
    fragUdpMessage m maxSize = (range (pieces m maxSize).length).map (fragmentAt m maxSize) := by
  have hp : 0 < maxSize - m.headerSize := by omega
  have hl := fragLoop_eq m (maxSize - m.headerSize) (UInt8.ofNat (pieces m maxSize).length) m.data 0
  have hc : (pieces m maxSize).length =
      (m.data.length + (maxSize - m.headerSize) - 1) / (maxSize - m.headerSize) :=
    length_chunks hp m.data
  rw [fragUdpMessage, if_neg (by omega)]
  rw [if_neg (by omega), ← hc]
  refine Eq.trans hl (ext_getElem? fun i => ?_)
  rw [getElem?_mapIdx, getElem?_map, ← pieces]
  rcases lt_or_ge i (pieces m maxSize).length with hi | hi
  · simp [fragmentAt, hi]
  · rw [getElem?_eq_none hi, getElem?_eq_none (by simpa using hi)]
    rfl

theorem flatten_pieces (hroom : m.headerSize < maxSize) : (pieces m maxSize).flatten = m.data :=
  flatten_chunks (by omega) m.data

theorem two_le_length_pieces (hroom : m.headerSize < maxSize) (hsize : maxSize < m.size) :
    2 ≤ (pieces m maxSize).length := by
  have hp : 0 < maxSize - m.headerSize := by omega
  rw [pieces, length_chunks hp, Nat.le_div_iff_mul_le hp]
  unfold UdpMessage.size at hsize
  omega

theorem fragmentAt_data (hi : i < (pieces m maxSize).length) :
    (fragmentAt m maxSize i).data ∈ pieces m maxSize := by
  simp [fragmentAt, fragment, hi]

theorem map_data_fragmentAt (k : Nat) (hk : k ≤ (pieces m maxSize).length) :
    ((range k).map (fragmentAt m maxSize)).map (·.data) = (pieces m maxSize).take k := by
  refine ext_getElem? fun i => ?_
  rw [map_map, getElem?_map, getElem?_take]
  rcases lt_or_ge i k with hi | hi
  · have hlt : i < (pieces m maxSize).length := by omega
    rw [if_pos hi, getElem?_range hi, getElem?_eq_getElem hlt]
    simp [fragmentAt, fragment, hlt]
  · rw [if_neg (by omega), getElem?_eq_none (by simpa using hi)]
    rfl

theorem numbered_fragmentAt (ht : 2 ≤ k) (hle : k ≤ 255)
    (hc : UInt8.ofNat (pieces m maxSize).length = UInt8.ofNat k) :
    Numbered k m.packetId (fragmentAt m maxSize) := by
  refine ⟨ht, hle, fun i hi => ?_, fun i _ => hc, fun i _ => rfl⟩
  rw [fragmentAt, fragment, min_eq_right (by omega)]

theorem joined_fragmentAt (hp : 0 < k) (hk : k ≤ (pieces m maxSize).length)
    (ha : m.addr ≠ "") : Defragger.joined ((range k).map (fragmentAt m maxSize)) =
      (m.addr, ((pieces m maxSize).take k).flatten) := by
  rw [← map_data_fragmentAt k hk]
  refine joined_eq ?_ ha ?_
  · simpa using pos_iff_ne_zero.mp hp
  · simp [fragmentAt, fragment]

theorem fragment_wire (hroom : m.headerSize < maxSize) (ha : asBytes m.addr ≠ [])
    (hm : (asBytes m.addr).length ≤ MAX_ADDRESS_LENGTH) (hi : i < (pieces m maxSize).length) :
    (fragmentAt m maxSize i).size ≤ maxSize ∧
      UdpMessage.parse ((fragmentAt m maxSize i).serialize (fragmentAt m maxSize i).size) =
        .ok (fragmentAt m maxSize i) := by
  obtain ⟨hne, hl⟩ := mem_chunks (fragmentAt_data hi)
  refine ⟨?_, UdpMessage.parse_serialize _ le_rfl ha hm hne⟩
  have hh : (fragmentAt m maxSize i).headerSize = m.headerSize := rfl
  rw [UdpMessage.size, hh]
  omega

end Split

/-- The fragments arrive in any order and any number of times, until the last one that was
missing. -/
structure Completes (frags arrivals : List UdpMessage) : Prop where
  of_frags : ∀ x ∈ arrivals, x ∈ frags
  all : ∀ f ∈ frags, f ∈ arrivals
  last : ∀ pre, pre <+: arrivals → pre ≠ arrivals → ∃ f ∈ frags, f ∉ pre

theorem completes_of_nodup (hnd : arrivals.Nodup)
    (hm : ∀ x, x ∈ arrivals ↔ x ∈ frags) : Completes frags arrivals := by
  refine ⟨fun x => (hm x).mp, fun f => (hm f).mpr, ?_⟩
  rintro pre ⟨rest, rfl⟩ hne
  cases rest with
  | nil => exact absurd (append_nil pre).symm hne
  | cons y rest =>
    refine ⟨y, (hm y).mp (by simp), fun hy => ?_⟩
    exact (nodup_append.mp hnd).2.2 y hy y mem_cons_self rfl

/-- The fragments of the message, if there are any, fit, survive the wire, and give one message
with the identity, address and data of the original. -/
def Survives (m : UdpMessage) (maxSize : Nat) : Prop :=
  fragUdpMessage m maxSize = [] ∨ (∀ f ∈ fragUdpMessage m maxSize,
        f.size ≤ maxSize ∧ UdpMessage.parse (f.serialize f.size) = .ok f) ∧
      ∀ d : Defragger, d.frags = [] → ∀ arrivals, Completes (fragUdpMessage m maxSize) arrivals →
        ∃ w, d.outputs arrivals = [w] ∧ w.sessionId = m.sessionId ∧ w.packetId = m.packetId ∧
          w.addr = m.addr ∧ w.data = m.data

/-- A message sent whole is not itself a fragment, and one that is cut has at most 255
pieces. -/
def CountFits (m : UdpMessage) (maxSize : Nat) : Prop :=
  (m.size ≤ maxSize → m.fragCount ≤ 1) ∧ (m.headerSize < maxSize → maxSize < m.size →
      (m.data.length + (maxSize - m.headerSize) - 1) / (maxSize - m.headerSize) ≤ 255)

section Survives

variable {m : UdpMessage} {maxSize : Nat}

theorem addr_ne_empty (h : asBytes m.addr ≠ []) : m.addr ≠ "" := by
  intro heq
  rw [heq] at h
  exact h rfl

theorem survives_split (hroom : m.headerSize < maxSize) (hsize : maxSize < m.size)
    (ha : asBytes m.addr ≠ []) (hm : (asBytes m.addr).length ≤ MAX_ADDRESS_LENGTH)
    (hle : (pieces m maxSize).length ≤ 255) : Survives m maxSize := by
  have hfr := fragUdpMessage_split hroom hsize
  have ht := two_le_length_pieces hroom hsize
  have hnu : Numbered (pieces m maxSize).length m.packetId (fragmentAt m maxSize) :=
    numbered_fragmentAt ht hle rfl
  have hid (x : UdpMessage) (hx : x ∈ fragUdpMessage m maxSize) :
      x.fragId.toNat < (pieces m maxSize).length ∧ fragmentAt m maxSize x.fragId.toNat = x := by
    rw [hfr] at hx
    obtain ⟨i, hi, rfl⟩ := mem_map.mp hx
    rw [mem_range] at hi
    rw [hnu.toNat_fragId hi]
    exact ⟨hi, rfl⟩
  refine .inr ⟨?_, ?_⟩
  · intro f hf
    obtain ⟨hlt, heq⟩ := hid f hf
    exact heq ▸ fragment_wire hroom ha hm hlt
  intro d hd arrivals hc
  have hp : Lib.Completes ((range (pieces m maxSize).length).map (fragmentAt m maxSize))
      arrivals := hfr ▸ ⟨hc.of_frags, hc.all, hc.last⟩
  obtain ⟨hn, hma⟩ := hp.completing (by omega) (·.fragId.toNat) fun i hi => hnu.toNat_fragId hi
  obtain ⟨i, -, ho⟩ := outputs_numbered hnu hn (hnu.collecting_nil hd)
  rw [hma] at ho
  refine ⟨_, ho, rfl, rfl, ?_⟩
  rw [joined_fragmentAt (by omega) le_rfl (addr_ne_empty ha), take_length, flatten_pieces hroom]
  exact ⟨rfl, rfl⟩

theorem outputs_append (d : Defragger) (first second : List UdpMessage) :
    ∃ d', d.outputs (first ++ second) = d.outputs first ++ Defragger.outputs d' second := by
  induction first generalizing d with
  | nil => exact ⟨d, rfl⟩
  | cons x first ih =>
    obtain ⟨d', h⟩ := ih (d.feed x).1
    refine ⟨d', ?_⟩
    rw [cons_append, Defragger.outputs, h, Defragger.outputs, append_assoc]

theorem outputs_whole (d : Defragger) (arrivals : List UdpMessage)
    (h : ∀ x ∈ arrivals, x.fragCount ≤ 1) : d.outputs arrivals = arrivals := by
  induction arrivals generalizing d with
  | nil => rfl
  | cons x arrivals ih =>
    obtain ⟨hx, hrest⟩ := forall_mem_cons.mp h
    rw [Defragger.outputs, Defragger.feed, if_pos hx, ih _ hrest]
    rfl

theorem outputs_beyond (d : Defragger) (arrs : List UdpMessage)
    (h : ∀ x ∈ arrs, ¬x.fragCount ≤ 1 ∧ x.fragCount ≤ x.fragId) : d.outputs arrs = [] := by
  induction arrs generalizing d with
  | nil => rfl
  | cons x arrs ih =>
    obtain ⟨⟨ho, hid⟩, hrest⟩ := forall_mem_cons.mp h
    rw [Defragger.outputs, Defragger.feed, if_neg ho, if_pos hid, ih _ hrest]
    rfl

theorem outputs_single (hon : ¬m.fragCount ≤ 1) : Defragger.new.outputs [m] = [] := by
  have hc : ¬m.fragCount.toNat ≤ 1 := fun h => hon (UInt8.le_iff_toNat_le.mpr h)
  rw [Defragger.outputs, Defragger.feed, if_neg hon]
  split
  · rfl
  rename_i hid
  have hlt : m.fragId.toNat < m.fragCount.toNat := by
    rw [UInt8.le_iff_toNat_le] at hid
    omega
  have ho : Defragger.new.opened m = ⟨m.packetId, replicate m.fragCount.toNat none, 0⟩ := by
    rw [Defragger.opened, if_pos]
    right
    change m.fragCount.toNat ≠ 0
    omega
  have hne : (satSucc 0 : UInt8) ≠ m.fragCount := by
    intro heq
    rw [← heq] at hc
    exact hc (by decide)
  simp [ho, Defragger.store, hlt, hne, Defragger.outputs]

theorem Completes.singleton (h : Completes [m] arrivals) : arrivals = [m] := by
  obtain ⟨x, rest, rfl⟩ := exists_cons_of_ne_nil (ne_nil_of_mem (h.all m (by simp)))
  obtain rfl := mem_singleton.mp (h.of_frags x mem_cons_self)
  by_contra hne
  obtain ⟨f, hf, hn⟩ := h.last [x] ⟨rest, rfl⟩ (Ne.symm hne)
  exact hn hf

theorem survives_whole (hsize : m.size ≤ maxSize) (ha : asBytes m.addr ≠ [])
    (hm : (asBytes m.addr).length ≤ MAX_ADDRESS_LENGTH) (hdata : m.data ≠ []) :
    Survives m maxSize ↔ m.fragCount ≤ 1 := by
  have hfr : fragUdpMessage m maxSize = [m] := by rw [fragUdpMessage, if_pos hsize]
  rw [Survives, hfr]
  constructor
  · rintro (hn | ⟨-, h⟩)
    · cases hn
    obtain ⟨w, hou, -⟩ := h .new rfl [m] (completes_of_nodup (by simp) (by simp))
    by_contra ho
    rw [outputs_single ho] at hou
    cases hou
  · intro ho
    refine .inr ⟨?_, fun d _ a hc => ⟨m, ?_, rfl, rfl, rfl, rfl⟩⟩
    · intro f hf
      obtain rfl := mem_singleton.mp hf
      exact ⟨hsize, UdpMessage.parse_serialize _ le_rfl ha hm hdata⟩
    · rw [hc.singleton, outputs_whole d [m] (by simpa using ho)]

variable {k : Nat}

theorem fragmentAt_injOn (hk : k ≤ 255) (hi : i < k) (hj : j < k)
    (h : fragmentAt m maxSize i = fragmentAt m maxSize j) : i = j := by
  have hid : (UInt8.ofNat (min 255 i)).toNat = (UInt8.ofNat (min 255 j)).toNat :=
    congrArg (fun f : UdpMessage => f.fragId.toNat) h
  rw [UInt8.toNat_ofNat', UInt8.toNat_ofNat'] at hid
  omega

theorem mem_fragUdpMessage (hroom : m.headerSize < maxSize) (hsize : maxSize < m.size)
    : x ∈ fragUdpMessage m maxSize ↔
      ∃ i < (pieces m maxSize).length, fragmentAt m maxSize i = x := by
  simp [fragUdpMessage_split hroom hsize]

theorem not_survives_passed (hroom : m.headerSize < maxSize) (hsize : maxSize < m.size)
    (hc : UInt8.ofNat (pieces m maxSize).length ≤ 1) : ¬Survives m maxSize := by
  have ht := two_le_length_pieces hroom hsize
  have hm (i : Nat) (hi : i < 2) : fragmentAt m maxSize i ∈ (fragUdpMessage m maxSize).dedup :=
    mem_dedup.mpr ((mem_fragUdpMessage hroom hsize).mpr ⟨i, by omega, rfl⟩)
  rintro (hn | ⟨-, h⟩)
  · exact absurd (hm 0 two_pos) (by simp [hn])
  obtain ⟨w, ho, -⟩ := h .new rfl (fragUdpMessage m maxSize).dedup
    (completes_of_nodup (nodup_dedup _) fun x => mem_dedup)
  rw [outputs_whole] at ho
  · have hf := hm 0 two_pos
    have hs := hm 1 one_lt_two
    rw [ho, mem_singleton] at hf hs
    exact absurd (fragmentAt_injOn (show 2 ≤ 255 by decide) two_pos one_lt_two
      (hf.trans hs.symm)) zero_ne_one
  · intro x hx
    obtain ⟨i, -, rfl⟩ := (mem_fragUdpMessage hroom hsize).mp (mem_dedup.mp hx)
    exact hc

theorem outputs_first (ht : 2 ≤ k) (hle : k ≤ 255)
    (hc : UInt8.ofNat (pieces m maxSize).length = UInt8.ofNat k)
    (hk : k ≤ (pieces m maxSize).length) (ha : m.addr ≠ "") :
    ∃ w, Defragger.new.outputs ((range k).map (fragmentAt m maxSize)) = [w] ∧
      w.data = ((pieces m maxSize).take k).flatten := by
  have hn := numbered_fragmentAt ht hle hc
  have hnew : Collecting k m.packetId (fragmentAt m maxSize) .new [] := hn.collecting_nil rfl
  obtain ⟨i, -, ho⟩ := outputs_numbered hn (completing_range (by omega)) hnew
  refine ⟨_, ho, ?_⟩
  rw [joined_fragmentAt (by omega) hk ha]

theorem le_toNat_fragId (m : UdpMessage) (maxSize : Nat) (hk : k ≤ 255) (hi : k ≤ i) :
    k ≤ (fragmentAt m maxSize i).fragId.toNat := by
  rw [fragmentAt, fragment, UInt8.toNat_ofNat']
  omega

def laterFragments (m : UdpMessage) (maxSize k : Nat) : List UdpMessage :=
  ((range' k ((pieces m maxSize).length - k)).map (fragmentAt m maxSize)).dedup

theorem mem_laterFragments : x ∈ laterFragments m maxSize k ↔
    ∃ i, k ≤ i ∧ i < (pieces m maxSize).length ∧ fragmentAt m maxSize i = x := by
  rw [laterFragments, mem_dedup, mem_map]
  refine exists_congr fun i => ?_
  rw [mem_range'_1, ← and_assoc]
  refine and_congr_left fun _ => ?_
  omega

section

variable (hroom : m.headerSize < maxSize) (hsize : maxSize < m.size)

include hroom hsize

theorem completes_first_later
    (hle : k ≤ 255) (hk : k ≤ (pieces m maxSize).length) : Completes (fragUdpMessage m maxSize)
      ((range k).map (fragmentAt m maxSize) ++ laterFragments m maxSize k) := by
  refine completes_of_nodup (nodup_append.mpr ⟨?_, nodup_dedup _, ?_⟩) ?_
  · refine List.Nodup.map_on (fun i hi j hj => ?_) nodup_range
    exact fragmentAt_injOn hle (mem_range.mp hi) (mem_range.mp hj)
  · rintro x hx y hy rfl
    obtain ⟨i, hi, rfl⟩ := mem_map.mp hx
    obtain ⟨j, hj, -, heq⟩ := mem_laterFragments.mp hy
    have hge := le_toNat_fragId m maxSize hle hj
    rw [heq, fragmentAt, fragment, UInt8.toNat_ofNat'] at hge
    rw [mem_range] at hi
    omega
  · intro x
    rw [mem_fragUdpMessage hroom hsize, mem_append, mem_laterFragments, mem_map]
    constructor
    · rintro (⟨i, hi, rfl⟩ | ⟨i, -, hi, rfl⟩)
      · exact ⟨i, (mem_range.mp hi).trans_le hk, rfl⟩
      · exact ⟨i, hi, rfl⟩
    rintro ⟨i, hi, rfl⟩
    rcases lt_or_ge i k with hlt | hge
    · exact .inl ⟨i, mem_range.mpr hlt, rfl⟩
    · exact .inr ⟨i, hge, hi, rfl⟩

theorem not_survives_joined (ha : asBytes m.addr ≠ []) (ht : 2 ≤ k) (hle : k ≤ 255)
    (hc : UInt8.ofNat (pieces m maxSize).length = UInt8.ofNat k)
    (hk : k < (pieces m maxSize).length) : ¬Survives m maxSize := by
  rintro (hn | ⟨-, h⟩)
  · have hz := (mem_fragUdpMessage hroom hsize).mpr ⟨0, by omega, rfl⟩
    simp [hn] at hz
  obtain ⟨w, ho, -, -, -, hdata⟩ := h .new rfl _ (completes_first_later hroom hsize hle hk.le)
  obtain ⟨w', hf, hdata'⟩ := outputs_first ht hle hc hk.le (addr_ne_empty ha)
  obtain ⟨d', hap⟩ := outputs_append .new ((range k).map (fragmentAt m maxSize))
    (laterFragments m maxSize k)
  have hb : d'.outputs (laterFragments m maxSize k) = [] := by
    refine outputs_beyond d' _ fun x hx => ?_
    obtain ⟨i, hi, -, rfl⟩ := mem_laterFragments.mp hx
    have hid := le_toNat_fragId m maxSize hle hi
    have hfr : (fragmentAt m maxSize i).fragCount.toNat = k := by
      rw [fragmentAt, fragment, hc, UInt8.toNat_ofNat']
      omega
    rw [UInt8.le_iff_toNat_le, UInt8.le_iff_toNat_le, hfr]
    exact ⟨not_le.mpr ht, hid⟩
  rw [hb, hf, append_nil, ho, singleton_inj] at hap
  -- the data of the message is that of the first `k` pieces, and more follow
  have hp : (pieces m maxSize).flatten = ((pieces m maxSize).take k).flatten := by
    rw [flatten_pieces hroom, ← hdata, hap, hdata']
  rw [← take_append_drop k (pieces m maxSize)] at hp
  rw [flatten_append, take_left' (by simp; omega), append_right_eq_self] at hp
  have hpi := flatten_eq_nil_iff.mp hp (pieces m maxSize)[k]
    (mem_drop_iff_getElem.mpr ⟨0, by simpa using hk, by simp⟩)
  exact (mem_chunks (getElem_mem hk)).1 hpi

theorem not_survives
    (ha : asBytes m.addr ≠ []) (hm : 255 < (pieces m maxSize).length) : ¬Survives m maxSize := by
  rcases lt_or_ge ((pieces m maxSize).length % 256) 2 with ho | ht
  · refine not_survives_passed hroom hsize ?_
    exact Nat.le_of_lt_succ ho
  · refine not_survives_joined hroom hsize ha ht (by omega) ?_ (by omega)
    rw [← UInt8.toNat_inj, UInt8.toNat_ofNat', UInt8.toNat_ofNat']
    omega

end

end Survives

/-- The round trip of a message, exactly: its fragments must be countable in a byte. -/
theorem survives_iff (m : UdpMessage) (maxSize : Nat) (haddr : asBytes m.addr ≠ [])
    (hmax : (asBytes m.addr).length ≤ MAX_ADDRESS_LENGTH) (hdata : m.data ≠ []) :
    Survives m maxSize ↔ CountFits m maxSize := by
  rcases lt_or_ge maxSize m.size with hsize | hsize
  · rcases lt_or_ge m.headerSize maxSize with hroom | hroom
    · have hcount : (pieces m maxSize).length =
          (m.data.length + (maxSize - m.headerSize) - 1) / (maxSize - m.headerSize) :=
        length_chunks (by omega) m.data
      constructor
      · intro h
        refine ⟨fun hle => absurd hle (by omega), fun _ _ => ?_⟩
        by_contra hmany
        exact not_survives hroom hsize haddr (by omega) h
      · intro h
        exact survives_split hroom hsize haddr hmax (hcount ▸ h.2 hroom hsize)
    · -- no room for data: nothing is sent
      refine iff_of_true (.inl ?_) ⟨fun hle => absurd hle (by omega), fun h => absurd h (by omega)⟩
      rw [fragUdpMessage, if_neg (by omega)]
      rw [if_pos (by omega)]
  · rw [survives_whole hsize haddr hmax hdata]
    exact ⟨fun h => ⟨fun _ => h, fun _ hlt => absurd hlt (by omega)⟩, fun h => h.1 hsize⟩

def zeros (length : Nat) : UdpMessage := ⟨7, 9, 0, 1, "a:1", replicate length 0⟩

theorem survives_zeros : Survives (zeros 40) 30 :=
  (survives_iff (zeros 40) 30 (by decide +kernel) (by decide +kernel) (by decide +kernel)).mpr
    ⟨fun _ => by decide, fun _ _ => by decide +kernel⟩

/-- 256 pieces are counted as 0 and come out as 256 messages; 300 are counted as 44, and a
message of the first 44 comes out. -/
theorem narrowed_count : (Defragger.new.outputs (fragUdpMessage (zeros 256) 13)).length = 256 ∧
      (Defragger.new.outputs (fragUdpMessage (zeros 300) 13)).map (·.data.length) = [44] := by
  decide +kernel

end XrayCore.Hysteria
