import XrayCore.Hysteria.Fragmentation

/-!
# UDP packets of a session under loss

Both the outbound and the inbound send every packet with packet id 0. The receiver tells packets
apart by that id and the number of fragments, and any of the datagrams may be lost, come again or
come in another order.
-/

namespace XrayCore.Hysteria

open Lib Net List

def MAX_DATAGRAM_PAYLOAD : Nat := 1200 - 4 - 9

structure Packet where
  addr : String
  data : Bytes
  addr_ne_nil : asBytes addr ≠ []
  addr_le : (asBytes addr).length ≤ MAX_ADDRESS_LENGTH
  data_le : data.length ≤ 0xFFFF

def Packet.message (p : Packet) : UdpMessage := ⟨0, 0, 0, 1, p.addr, p.data⟩

def writeUdpMessage (msg : UdpMessage) : List Bytes :=
  let frags :=
    if msg.size > MAX_DATAGRAM_PAYLOAD then fragUdpMessage msg MAX_DATAGRAM_PAYLOAD else [msg]
  frags.filterMap fun frag =>
    let wire := frag.serialize frag.size
    if wire.length = 0 then none else some (wire.drop 4)

/-- The receiver puts four bytes in front for the session id that was taken off. -/
def parseBody (body : Bytes) : Except ParseError UdpMessage :=
  UdpMessage.parse ([0, 0, 0, 0] ++ body)

def Defragger.receive (d : Defragger) (body : Bytes) : Defragger × Option UdpMessage :=
  match parseBody body with
  | .error _ => (d, none)
  | .ok m => d.feed m

def Defragger.received : Defragger → List Bytes → List UdpMessage
  | _, [] => []
  | d, body :: arrivals => (d.receive body).2.toList ++ (d.receive body).1.received arrivals

/-- The defragger, and beside it of which packet each stored fragment is. -/
structure Tagged where
  defragger : Defragger
  owners : List (Option Nat)

namespace Tagged

def new : Tagged := ⟨.new, []⟩

def stored (t : Tagged) (k : Nat) (m : UdpMessage) : List (Option Nat) :=
  let owners :=
    if m.packetId ≠ t.defragger.pktId ∨ m.fragCount.toNat ≠ t.defragger.frags.length then
      List.replicate m.fragCount.toNat none
    else t.owners
  if owners[m.fragId.toNat]? = some none then owners.set m.fragId.toNat (some k) else owners

def feed (t : Tagged) (k : Nat) (m : UdpMessage) : Tagged × Option (UdpMessage × List Nat) :=
  let (d, out) := t.defragger.feed m
  if m.fragCount ≤ 1 then (⟨d, t.owners⟩, out.map (·, [k]))
  else if m.fragCount ≤ m.fragId then (⟨d, t.owners⟩, none)
  else
    match out with
    | some w => (⟨d, []⟩, some (w, (t.stored k m).reduceOption))
    | none => (⟨d, t.stored k m⟩, none)

def receive (t : Tagged) (arrival : Nat × Bytes) : Tagged × Option (UdpMessage × List Nat) :=
  match parseBody arrival.2 with
  | .error _ => (t, none)
  | .ok m => t.feed arrival.1 m

def received : Tagged → List (Nat × Bytes) → List (UdpMessage × List Nat)
  | _, [] => []
  | t, a :: arrivals => (t.receive a).2.toList ++ (t.receive a).1.received arrivals

theorem feed_erase (t : Tagged) (k : Nat) (m : UdpMessage) :
    (t.feed k m).1.defragger = (t.defragger.feed m).1 ∧
      (t.feed k m).2.map Prod.fst = (t.defragger.feed m).2 := by
  unfold feed
  dsimp only
  split
  · simp [Function.comp_def]
  split
  · rename_i ho hid
    simp [Defragger.feed, ho, hid]
  · split <;> simp [*]

theorem received_erase (t : Tagged) (arrs : List (Nat × Bytes)) :
    (t.received arrs).map Prod.fst = t.defragger.received (arrs.map Prod.snd) := by
  induction arrs generalizing t with
  | nil => rfl
  | cons a arrs ih =>
    have hs : (t.receive a).1.defragger = (t.defragger.receive a.2).1 ∧
        (t.receive a).2.map Prod.fst = (t.defragger.receive a.2).2 := by
      unfold receive Defragger.receive
      split
      · exact ⟨rfl, rfl⟩
      · exact feed_erase t a.1 _
    rw [received, map_append, ih, map_cons, Defragger.received, ← hs.1, ← hs.2]
    cases (t.receive a).2 <;> rfl

end Tagged

def Packet.fragments (p : Packet) : Nat := (writeUdpMessage p.message).length

def Sent (packets : List Packet) (arrival : Nat × Bytes) : Prop :=
  ∃ p, packets[arrival.1]? = some p ∧ arrival.2 ∈ writeUdpMessage p.message

/-- Whatever arrives, each message that comes out is a packet that was sent, and its fragments
are of one packet. -/
def Intact (packets : List Packet) : Prop :=
  ∀ arrivals, (∀ a ∈ arrivals, Sent packets a) → ∀ out ∈ Tagged.new.received arrivals,
    (∃ p ∈ packets, out.1.addr = p.addr ∧ out.1.data = p.data) ∧ ∀ i ∈ out.2, ∀ j ∈ out.2, i = j

def NoTwins (packets : List Packet) : Prop :=
  ∀ (i j : Nat) (p q : Packet), packets[i]? = some p → packets[j]? = some q → 2 ≤ p.fragments →
    p.fragments = q.fragments → i = j

section Datagrams

variable (p : Packet)

def bodyOf (m : UdpMessage) : Bytes := (m.serialize m.size).drop 4

theorem parseBody_bodyOf (hs : m.sessionId = 0)
    (ha : asBytes m.addr ≠ []) (hm : (asBytes m.addr).length ≤ MAX_ADDRESS_LENGTH) :
    parseBody (bodyOf m) = if m.data = [] then .error .messageLength else .ok m := by
  have hw : [0, 0, 0, 0] ++ bodyOf m = m.serialize m.size := by
    rw [bodyOf, UdpMessage.serialize, if_neg (lt_irrefl _), hs]
    simp [be32]
  rw [parseBody, hw, UdpMessage.parse_wire m le_rfl ha hm]

theorem writeUdpMessage_eq (msg : UdpMessage) : writeUdpMessage msg =
    (if msg.size > MAX_DATAGRAM_PAYLOAD then fragUdpMessage msg MAX_DATAGRAM_PAYLOAD
      else [msg]).map bodyOf := by
  rw [writeUdpMessage, ← filterMap_eq_map]
  refine filterMap_congr fun m _ => ?_
  have hl := m.length_serialize le_rfl
  have hp : 0 < m.size := by
    unfold UdpMessage.size UdpMessage.headerSize
    omega
  rw [if_neg (by omega)]
  rfl

theorem Packet.headerSize_le : p.message.headerSize ≤ 281 := by
  have ha := p.addr_le
  unfold MAX_ADDRESS_LENGTH at ha
  have hv : varintLen (asBytes p.addr).length ≤ 2 := by
    unfold varintLen
    split
    · omega
    · rw [if_pos (by omega)]
  change 4 + 2 + 1 + 1 + varintLen (asBytes p.addr).length + (asBytes p.addr).length ≤ 281
  omega

theorem Packet.write_whole (h : p.message.size ≤ MAX_DATAGRAM_PAYLOAD) :
    writeUdpMessage p.message = [bodyOf p.message] := by
  rw [writeUdpMessage_eq, if_neg (by omega)]
  rfl

section

variable (h : MAX_DATAGRAM_PAYLOAD < p.message.size)

include h

theorem Packet.write_split : writeUdpMessage p.message = (List.range p.fragments).map
          (fun i => bodyOf (fragmentAt p.message MAX_DATAGRAM_PAYLOAD i)) ∧
      p.fragments = (pieces p.message MAX_DATAGRAM_PAYLOAD).length ∧
      2 ≤ p.fragments ∧ p.fragments ≤ 255 := by
  have hh := p.headerSize_le
  have hdata := p.data_le
  have hroom : p.message.headerSize < MAX_DATAGRAM_PAYLOAD := by
    unfold MAX_DATAGRAM_PAYLOAD
    omega
  have hw : writeUdpMessage p.message =
      (List.range (pieces p.message MAX_DATAGRAM_PAYLOAD).length).map
        (fun i => bodyOf (fragmentAt p.message MAX_DATAGRAM_PAYLOAD i)) := by
    rw [writeUdpMessage_eq, if_pos h, fragUdpMessage_split hroom h, map_map]
    rfl
  have hc : p.fragments = (pieces p.message MAX_DATAGRAM_PAYLOAD).length := by
    rw [Packet.fragments, hw, length_map, length_range]
  refine ⟨hc ▸ hw, hc, hc ▸ two_le_length_pieces hroom h, ?_⟩
  have hp : 0 < MAX_DATAGRAM_PAYLOAD - p.message.headerSize := by omega
  rw [hc, pieces, length_chunks hp, Nat.div_le_iff_le_mul_add_pred hp]
  change p.data.length + _ - 1 ≤ _
  unfold MAX_DATAGRAM_PAYLOAD at hp hroom ⊢
  omega

theorem fragmentAt_parse (hi : i < p.fragments) :
    parseBody (bodyOf (fragmentAt p.message MAX_DATAGRAM_PAYLOAD i)) =
      .ok (fragmentAt p.message MAX_DATAGRAM_PAYLOAD i) := by
  obtain ⟨-, hc, -, -⟩ := p.write_split h
  obtain ⟨hne, -⟩ := mem_chunks (fragmentAt_data (hc ▸ hi))
  rw [parseBody_bodyOf rfl p.addr_ne_nil p.addr_le, if_neg hne]

theorem numbered_fragments :
    Numbered p.fragments 0 (fragmentAt p.message MAX_DATAGRAM_PAYLOAD) := by
  obtain ⟨-, hc, ht, hle⟩ := p.write_split h
  exact numbered_fragmentAt ht hle (by rw [hc])

end

end Datagrams

def FragmentOf (packets : List Packet) (n k i : Nat) (f : UdpMessage) : Prop :=
  ∃ p, packets[k]? = some p ∧ MAX_DATAGRAM_PAYLOAD < p.message.size ∧ p.fragments = n ∧
    f = fragmentAt p.message MAX_DATAGRAM_PAYLOAD i

/-- What is stored, each fragment with its packet. All packets have as many fragments as there
are slots. -/
structure Tracks (packets : List Packet) (t : Tagged) (parts : List (Option (Nat × UdpMessage))) :
    Prop where
  frags : t.defragger.frags = parts.map (·.map Prod.snd)
  owners : t.owners = parts.map (·.map Prod.fst)
  count : t.defragger.count = UInt8.ofNat (filled parts)
  of_packet : ∀ (i k : Nat) (f : UdpMessage), parts[i]? = some (some (k, f)) →
    FragmentOf packets parts.length k i f

section Tracks

variable {packets : List Packet} {t : Tagged} {parts : List (Option (Nat × UdpMessage))} {p : Packet}
  {k i : Nat}

theorem Tracks.opened (h : Tracks packets t parts) (hc : m.fragCount.toNat = n) :
    ∃ parts' : List (Option (Nat × UdpMessage)), ∃ pid, parts'.length = n ∧
      t.defragger.opened m = ⟨pid, parts'.map (·.map Prod.snd), UInt8.ofNat (filled parts')⟩ ∧
      (if m.packetId ≠ t.defragger.pktId ∨ m.fragCount.toNat ≠ t.defragger.frags.length then
        List.replicate m.fragCount.toNat none else t.owners) = parts'.map (·.map Prod.fst) ∧
      ∀ (i k : Nat) (f : UdpMessage), parts'[i]? = some (some (k, f)) →
        FragmentOf packets n k i f := by
  by_cases hnew : m.packetId ≠ t.defragger.pktId ∨ m.fragCount.toNat ≠ t.defragger.frags.length
  · refine ⟨List.replicate n none, m.packetId, length_replicate, ?_, ?_, ?_⟩
    · rw [Defragger.opened, if_pos hnew, hc, filled_replicate_none, map_replicate]
      rfl
    · rw [if_pos hnew, hc, map_replicate]
      rfl
    · intro i k f hf
      rw [List.getElem?_replicate] at hf
      split at hf <;> cases hf
  · have hl : parts.length = n := by
      rw [not_or, not_not, not_not, h.frags, length_map, hc] at hnew
      exact hnew.2.symm
    refine ⟨parts, t.defragger.pktId, hl, ?_, ?_, hl ▸ h.of_packet⟩
    · rw [Defragger.opened, if_neg hnew, ← h.frags, ← h.count]
    · rw [if_neg hnew, h.owners]

theorem getElem?_map_eq_none_iff {α β : Type} {parts : List (Option α)} {g : α → β} :
    (parts.map (·.map g))[i]? = some none ↔ parts[i]? = some none := by
  rw [List.getElem?_map]
  cases parts[i]? with
  | none => simp
  | some o => cases o <;> simp

theorem Tracks.stored (h : Tracks packets t parts) (hk : packets[k]? = some p)
    (hsize : MAX_DATAGRAM_PAYLOAD < p.message.size) (hi : i < p.fragments) :
    ∃ parts' : List (Option (Nat × UdpMessage)), ∃ pid, parts'.length = p.fragments ∧
      (t.defragger.opened (fragmentAt p.message MAX_DATAGRAM_PAYLOAD i)).store
          (fragmentAt p.message MAX_DATAGRAM_PAYLOAD i) =
        ⟨pid, parts'.map (·.map Prod.snd), UInt8.ofNat (filled parts')⟩ ∧
      t.stored k (fragmentAt p.message MAX_DATAGRAM_PAYLOAD i) = parts'.map (·.map Prod.fst) ∧
      ∀ (i k : Nat) (f : UdpMessage), parts'[i]? = some (some (k, f)) →
        FragmentOf packets p.fragments k i f := by
  have hn := numbered_fragments p hsize
  have hid := hn.toNat_fragId hi
  obtain ⟨base, pid, hl, ho, how, hof⟩ := h.opened (hn.toNat_fragCount hi)
  unfold Tagged.stored Defragger.store
  rw [how, ho, hid]
  simp only [getElem?_map_eq_none_iff]
  by_cases he : base[i]? = some none
  · have hfi := filled_set he (k, fragmentAt p.message MAX_DATAGRAM_PAYLOAD i)
    have hfl := filled_le_length
      (base.set i (some (k, fragmentAt p.message MAX_DATAGRAM_PAYLOAD i)))
    have hle := hn.le
    rw [length_set, hl] at hfl
    refine ⟨base.set i (some (k, fragmentAt p.message MAX_DATAGRAM_PAYLOAD i)), pid, ?_, ?_, ?_, ?_⟩
    · rw [length_set, hl]
    · rw [if_pos he, satSucc_ofNat (by omega), hfi, map_set]
      rfl
    · rw [if_pos he, map_set]
      rfl
    · intro i' k' f hf
      rcases eq_or_ne i i' with rfl | hne
      · rw [List.getElem?_set_self (by omega)] at hf
        cases hf
        exact ⟨p, hk, hsize, rfl, rfl⟩
      · rw [List.getElem?_set_ne hne] at hf
        exact hof i' k' f hf
  · exact ⟨base, pid, hl, by rw [if_neg he], by rw [if_neg he], hof⟩

/-- What may come out: a packet that was sent whole, or a join of fragments with the same
number of slots. -/
inductive Joins (packets : List Packet) : UdpMessage × List Nat → Prop
  | whole (k : Nat) (p : Packet) (hk : packets[k]? = some p) : Joins packets (p.message, [k])
  | parts (full : List (Nat × UdpMessage)) (session : UInt32) (pid : UInt16)
      (hof : ∀ (i k : Nat) (f : UdpMessage), full[i]? = some (k, f) →
        FragmentOf packets full.length k i f) (hne : full ≠ []) :
      Joins packets (⟨session, pid, 0, 1, (Defragger.joined (full.map Prod.snd)).1,
        (Defragger.joined (full.map Prod.snd)).2⟩, full.map Prod.fst)

theorem Tracks.feed_fragment (h : Tracks packets t parts) (hk : packets[k]? = some p)
    (hsize : MAX_DATAGRAM_PAYLOAD < p.message.size) (hi : i < p.fragments) :
    (∃ parts', Tracks packets (t.feed k (fragmentAt p.message MAX_DATAGRAM_PAYLOAD i)).1 parts') ∧
      ∀ out, (t.feed k (fragmentAt p.message MAX_DATAGRAM_PAYLOAD i)).2 = some out →
        Joins packets out := by
  have hn := numbered_fragments p hsize
  have hc := hn.toNat_fragCount hi
  have hle := hn.le
  obtain ⟨hon, hid⟩ := hn.in_range hi
  obtain ⟨parts', pid, hl, hs, ho, hof⟩ := h.stored hk hsize hi
  have hfl := filled_le_length parts'
  have hfu : UInt8.ofNat (filled parts') =
      (fragmentAt p.message MAX_DATAGRAM_PAYLOAD i).fragCount ↔ filled parts' = parts'.length := by
    rw [← UInt8.toNat_inj, hc, UInt8.toNat_ofNat', Nat.mod_eq_of_lt (by omega), hl]
  simp only [Tagged.feed, Defragger.feed, if_neg hon, if_neg hid, hs, ho, hfu]
  by_cases hd : filled parts' = parts'.length
  · obtain ⟨full, rfl⟩ := filled_eq_length_iff.mp hd
    simp only [if_pos hd]
    refine ⟨⟨[], rfl, rfl, rfl, fun i k f hf => (by simp at hf)⟩, ?_⟩
    rintro out hou
    obtain rfl := Option.some.inj hou
    have hm {β : Type} (g : Nat × UdpMessage → β) :
        ((full.map some).map (Option.map g)).reduceOption = full.map g := by
      rw [map_map, ← reduceOption_map_some (full.map g), map_map]
      rfl
    rw [hm, hm]
    rw [length_map] at hl
    refine .parts full _ _ (fun i k f hf => hl ▸ hof i k f ?_) ?_
    · rw [List.getElem?_map, hf]
      rfl
    · rintro rfl
      rw [length_nil] at hl
      omega
  · simp only [if_neg hd]
    exact ⟨⟨parts', rfl, rfl, rfl, hl ▸ hof⟩, fun out ho => by cases ho⟩

theorem Tracks.receive (h : Tracks packets t parts) (ha : Sent packets a) :
    (∃ parts', Tracks packets (t.receive a).1 parts') ∧
      ∀ out, (t.receive a).2 = some out → Joins packets out := by
  obtain ⟨p, hk, hb⟩ := ha
  rcases lt_or_ge MAX_DATAGRAM_PAYLOAD p.message.size with hsize | hsize
  · rw [(p.write_split hsize).1] at hb
    obtain ⟨i, hi, hb⟩ := mem_map.mp hb
    have hp := fragmentAt_parse p hsize (mem_range.mp hi)
    rw [hb] at hp
    simp only [Tagged.receive, hp]
    exact h.feed_fragment hk hsize (mem_range.mp hi)
  · rw [p.write_whole hsize, mem_singleton] at hb
    have hp : parseBody a.2 = if p.data = [] then .error .messageLength else .ok p.message := by
      rw [hb]
      exact parseBody_bodyOf rfl p.addr_ne_nil p.addr_le
    by_cases hdata : p.data = []
    · rw [if_pos hdata] at hp
      simp only [Tagged.receive, hp]
      exact ⟨⟨parts, h⟩, nofun⟩
    rw [if_neg hdata] at hp
    have hf : t.feed a.1 p.message = (t, some (p.message, [a.1])) := rfl
    simp only [Tagged.receive, hp, hf]
    refine ⟨⟨parts, h⟩, ?_⟩
    rintro out ho
    obtain rfl := Option.some.inj ho
    exact .whole a.1 p hk

theorem Tracks.received (h : Tracks packets t parts) (arrs : List (Nat × Bytes))
    (hs : ∀ a ∈ arrs, Sent packets a) : ∀ out ∈ t.received arrs, Joins packets out := by
  induction arrs generalizing t parts with
  | nil => exact nofun
  | cons a arrs ih =>
    obtain ⟨ha, hrest⟩ := forall_mem_cons.mp hs
    obtain ⟨⟨p', hn⟩, ho⟩ := h.receive ha
    intro out hm
    rw [Tagged.received, mem_append, Option.mem_toList] at hm
    obtain hf | hl := hm
    · exact ho out hf
    · exact ih hn hrest out hl

theorem tracks_new : Tracks packets .new [] := ⟨rfl, rfl, rfl, fun i k f hf => by simp at hf⟩

theorem Joins.intact (ht : NoTwins packets) (h : Joins packets out) :
    (∃ p ∈ packets, out.1.addr = p.addr ∧ out.1.data = p.data) ∧
      ∀ i ∈ out.2, ∀ j ∈ out.2, i = j := by
  cases h with
  | whole k p hk =>
    refine ⟨⟨p, mem_of_getElem? hk, rfl, rfl⟩, ?_⟩
    rintro i hi j hj
    rw [mem_singleton] at hi hj
    rw [hi, hj]
  | parts full s pid hof hne =>
    obtain ⟨k0, f0, rest, rfl⟩ : ∃ k0 f0 rest, full = (k0, f0) :: rest := by
      obtain ⟨⟨k0, f0⟩, rest, rfl⟩ := exists_cons_of_ne_nil hne
      exact ⟨k0, f0, rest, rfl⟩
    obtain ⟨p, hp, hsize, hc, -⟩ := hof 0 k0 f0 rfl
    obtain ⟨-, hpi, htw, -⟩ := p.write_split hsize
    have he (i : Nat) (x : Nat × UdpMessage) (hx : ((k0, f0) :: rest)[i]? = some x) :
        x = (k0, fragmentAt p.message MAX_DATAGRAM_PAYLOAD i) := by
      obtain ⟨k, f⟩ := x
      obtain ⟨q, hq, -, hc', rfl⟩ := hof i k f hx
      obtain rfl := ht k k0 q p hq hp (by omega) (by omega)
      obtain rfl := Option.some.inj (hq.symm.trans hp)
      rfl
    have hf : (k0, f0) :: rest = (List.range p.fragments).map
        (fun i => (k0, fragmentAt p.message MAX_DATAGRAM_PAYLOAD i)) := by
      refine ext_getElem? fun i => ?_
      rcases lt_or_ge i p.fragments with hi | hi
      · have hlt : i < ((k0, f0) :: rest).length := by omega
        rw [List.getElem?_eq_getElem hlt, List.getElem?_map, List.getElem?_range hi,
          he i _ (List.getElem?_eq_getElem hlt)]
        rfl
      · rw [List.getElem?_eq_none (by omega), List.getElem?_eq_none (by simpa using hi)]
    have ha : p.message.addr ≠ "" := addr_ne_empty p.addr_ne_nil
    have hroom : p.message.headerSize < MAX_DATAGRAM_PAYLOAD := by
      have := p.headerSize_le
      unfold MAX_DATAGRAM_PAYLOAD
      omega
    rw [hf, map_map, map_map]
    refine ⟨⟨p, mem_of_getElem? hp, ?_⟩, ?_⟩
    · have hjo : Defragger.joined ((List.range p.fragments).map
          (fragmentAt p.message MAX_DATAGRAM_PAYLOAD)) = (p.addr, p.data) := by
        rw [joined_fragmentAt (by omega) hpi.le ha, hpi, take_length, flatten_pieces hroom]
        rfl
      exact ⟨congrArg Prod.fst hjo, congrArg Prod.snd hjo⟩
    · intro i hi j hj
      simp only [mem_map, mem_range, Function.comp_apply] at hi hj
      obtain ⟨-, -, rfl⟩ := hi
      obtain ⟨-, -, rfl⟩ := hj
      rfl

end Tracks

section Twins

variable {n : Nat} {pid : UInt16} {part : Nat → UdpMessage} {tag : Nat → Nat} {t : Tagged}

theorem stored_slots (h : Numbered n pid part) (hi : i < n)
    (ho : (if (part i).packetId ≠ t.defragger.pktId ∨
        (part i).fragCount.toNat ≠ t.defragger.frags.length then
      List.replicate (part i).fragCount.toNat none else t.owners) = slotsOf n tag seen)
    (hm : i ∉ seen) : t.stored (tag i) (part i) = slotsOf n tag (i :: seen) := by
  unfold Tagged.stored
  rw [ho, h.toNat_fragId hi, if_pos, set_slotsOf]
  rw [getElem?_slotsOf hi, if_neg hm]

-- The fragments before `l` are stored, with their tags; those from `l` on arrive in order.
theorem received_in_order (tag : Nat → Nat) (h : Numbered n pid part) {body : Nat → Bytes}
    (hb : ∀ i < n, parseBody (body i) = .ok (part i)) (left l : Nat) (hl : l + (left + 1) = n)
    (t : Tagged) (seen : List Nat) (hs : ∀ x, x ∈ seen ↔ x < l)
    (hd : Collecting n pid part t.defragger seen)
    (ho : ∀ i < n, (if (part i).packetId ≠ t.defragger.pktId ∨
        (part i).fragCount.toNat ≠ t.defragger.frags.length then
      List.replicate (part i).fragCount.toNat none else t.owners) = slotsOf n tag seen) :
    ∃ out ∈ t.received ((List.range' l (left + 1)).map fun i => (tag i, body i)),
      out.2 = (List.range n).map tag := by
  have hlt : l < n := by omega
  obtain ⟨hon, hid⟩ := h.in_range hlt
  have hst := stored_slots h hlt (ho l hlt) (by simp [hs])
  have hall : (∀ j < n, j ∈ l :: seen) ↔ left = 0 := by
    simp only [mem_cons, hs]
    constructor
    · intro hj
      have := hj (n - 1) (by omega)
      omega
    · rintro rfl j hj
      omega
  rw [range'_succ, map_cons, Tagged.received]
  have hr : t.receive (tag l, body l) = t.feed (tag l) (part l) := by
    simp [Tagged.receive, hb l hlt]
  rw [hr]
  simp only [Tagged.feed, feed_numbered h hd hlt, if_neg hon, if_neg hid, hst]
  cases left with
  | zero =>
    have hdo := hall.mpr rfl
    simp only [if_pos hdo]
    refine ⟨_, mem_append_left _ (Option.mem_toList.mpr rfl), ?_⟩
    dsimp only
    rw [slotsOf_full hdo, reduceOption_map_some]
  | succ left =>
    have hmore : ¬∀ j < n, j ∈ l :: seen := fun hj => absurd (hall.mp hj) (Nat.succ_ne_zero left)
    simp only [if_neg hmore]
    have hop (i : Nat) (hi : i < n) : ¬((part i).packetId ≠ pid ∨
        (part i).fragCount.toNat ≠ (slotsOf n part (l :: seen)).length) := by
      rw [h.packetId i hi, h.toNat_fragCount hi, length_slotsOf]
      simp
    obtain ⟨out, hm, hou⟩ := received_in_order tag h hb left (l + 1) (by omega)
      ⟨⟨pid, slotsOf n part (l :: seen), UInt8.ofNat (filled (slotsOf n part (l :: seen)))⟩,
        slotsOf n tag (l :: seen)⟩ (l :: seen)
      (fun x => by simp only [mem_cons, hs]; omega) (fun i hi => opened_of_open h hi)
      (fun i hi => if_neg (hop i hi))
    exact ⟨out, mem_append_right _ hm, hou⟩

theorem twins_join {pks : List Packet} {i j : Nat} {p q : Packet} (hp : pks[i]? = some p)
    (hq : pks[j]? = some q) (ht : 2 ≤ p.fragments) (heq : p.fragments = q.fragments) :
    ∃ arrivals, (∀ a ∈ arrivals, Sent pks a) ∧ ∃ out ∈ Tagged.new.received arrivals,
      i ∈ out.2 ∧ j ∈ out.2 := by
  have hs (r : Packet) (hr : 2 ≤ r.fragments) : MAX_DATAGRAM_PAYLOAD < r.message.size := by
    by_contra hsize
    rw [Packet.fragments, r.write_whole (by omega), length_singleton] at hr
    omega
  have hps := hs p ht
  have hqs := hs q (by omega)
  have hpn := numbered_fragments p hps
  have hqn := numbered_fragments q hqs
  rw [← heq] at hqn
  let part := fun l => fragmentAt (if l = 0 then p else q).message MAX_DATAGRAM_PAYLOAD l
  let tag := fun l => if l = 0 then i else j
  have hn : Numbered p.fragments 0 part := by
    refine ⟨hpn.two_le, hpn.le, fun l hl => ?_, fun l hl => ?_, fun l hl => rfl⟩
    · dsimp only [part]
      split
      · exact hpn.fragId l hl
      · exact hqn.fragId l hl
    · dsimp only [part]
      split
      · exact hpn.fragCount l hl
      · exact hqn.fragCount l hl
  have hpa (l : Nat) (hl : l < p.fragments) : parseBody (bodyOf (part l)) = .ok (part l) := by
    dsimp only [part]
    split
    · exact fragmentAt_parse p hps hl
    · exact fragmentAt_parse q hqs (heq ▸ hl)
  have hf (l : Nat) (hl : l < p.fragments) : (part l).packetId ≠ Tagged.new.defragger.pktId ∨
        (part l).fragCount.toNat ≠ Tagged.new.defragger.frags.length := by
    right
    rw [hn.toNat_fragCount hl]
    change p.fragments ≠ 0
    omega
  obtain ⟨left, hle⟩ : ∃ left, 0 + (left + 1) = p.fragments := ⟨p.fragments - 1, by omega⟩
  obtain ⟨out, hm, ho⟩ := received_in_order tag hn hpa left 0 hle .new []
    (by simp) (hn.collecting_nil rfl) fun l hl => by
      rw [if_pos (hf l hl), hn.toNat_fragCount hl, slotsOf_nil]
  refine ⟨_, ?_, out, hm, ?_, ?_⟩
  · intro a ha
    obtain ⟨l, hl, rfl⟩ := mem_map.mp ha
    rw [mem_range'_1] at hl
    have hl' : l < p.fragments := by omega
    by_cases hz : l = 0
    · refine ⟨p, by simpa [tag, hz] using hp, ?_⟩
      rw [(p.write_split hps).1]
      exact mem_map.mpr ⟨l, mem_range.mpr hl', by simp [part, hz]⟩
    · refine ⟨q, by simpa [tag, hz] using hq, ?_⟩
      rw [(q.write_split hqs).1]
      exact mem_map.mpr ⟨l, mem_range.mpr (heq ▸ hl'), by simp [part, hz]⟩
  · rw [ho]
    exact mem_map.mpr ⟨0, mem_range.mpr (by omega), rfl⟩
  · rw [ho]
    exact mem_map.mpr ⟨1, mem_range.mpr (by omega), rfl⟩

end Twins

/-- A session keeps its packets apart exactly if no two of them are cut into the same number of
fragments. -/
theorem intact_iff (packets : List Packet) : Intact packets ↔ NoTwins packets := by
  constructor
  · intro h i j p q hp hq htwo heq
    obtain ⟨arrivals, hsent, out, hout, hi, hj⟩ := twins_join hp hq htwo heq
    exact (h arrivals hsent out hout).2 i hi j hj
  · intro h arrivals hsent out hout
    exact (tracks_new.received arrivals hsent out hout).intact h

theorem short_addr : asBytes "a:1" ≠ [] ∧ (asBytes "a:1").length ≤ MAX_ADDRESS_LENGTH := by
  decide +kernel

theorem length_twin (b : UInt8) : (List.replicate 1200 b).length ≤ 0xFFFF := by
  rw [length_replicate]
  decide

def twin (b : UInt8) : Packet :=
  ⟨"a:1", List.replicate 1200 b, short_addr.1, short_addr.2, length_twin b⟩

/-- The second fragment of one packet and the first of the next are lost. What comes out begins with
the one and ends with the other. -/
theorem twins_are_joined : ((Defragger.new.received
        ((writeUdpMessage (twin 1).message).take 1 ++ (writeUdpMessage (twin 2).message).drop 1)).map
      fun w => (w.addr, w.data.head?, w.data.getLast?)) = [("a:1", some 1, some 2)] := by
  decide +kernel

end XrayCore.Hysteria
