import XrayCore.Xdns.Answers
import XrayCore.Xdns.Client
import XrayCore.Xdns.ServerLaws

/-!
# From the server to the client

The server frames the packets for a client and answers a query with them, within the size that both
sides have announced. The client gets the packets out of the response, whatever order its answers
are in. Fragments without the first one are not always recognised as incomplete (`Misread`).
-/

namespace XrayCore.Xdns

open Lib List Resp

theorem or_mark (h : n < 0x4000) : n ||| 0xc000 = n + 0xc000 := by
  have := Nat.shiftLeft_add_eq_or_of_lt (show n < 2 ^ 14 from h) 3
  rw [Nat.or_comm, add_comm]
  exact this.symm

theorem length_frames (ps : List Bytes) :
    (frames ps).length = (ps.map fun p => 2 + p.length).sum := by
  induction ps with
  | nil => rfl
  | cons p ps ih =>
    simp only [frames, length_append, length_be16, map_cons, sum_cons, ih]

theorem frame_header (h : n < 0x4000) (last : Bool) :
    ∃ high low : UInt8, be16 (UInt16.ofNat (if last then n ||| 0xc000 else n)) = [high, low] ∧
      (high &&& 0xc0 = 0xc0 ↔ last = true) ∧ (high &&& 0x3f).toNat <<< 8 ||| low.toNat = n := by
  have hm : ∀ m < 64, (UInt8.ofNat (m + 192) &&& 0xc0 = 0xc0 ∧
      (UInt8.ofNat (m + 192) &&& 0x3f).toNat = m) ∧
      UInt8.ofNat m &&& 0xc0 ≠ 0xc0 ∧ (UInt8.ofNat m &&& 0x3f).toNat = m := by decide +kernel
  obtain ⟨⟨hl, hle⟩, hmore, hl'⟩ := hm (n / 256) (by omega)
  have hj : (n / 256) <<< 8 ||| n % 256 = n := by
    have hlo : n % 256 < 2 ^ 8 := Nat.mod_lt n (by decide)
    rw [← Nat.shiftLeft_add_eq_or_of_lt hlo, Nat.shiftLeft_eq]
    exact Nat.div_add_mod' n 256
  refine ⟨_, _, rfl, ?_⟩
  cases last with
  | true =>
    have hn : (UInt16.ofNat (n ||| 0xc000)).toNat = n + 0xc000 := by
      rw [or_mark h, UInt16.toNat_ofNat']
      omega
    have hh : (n + 0xc000) / 256 = n / 256 + 192 := by omega
    have hlo : (UInt8.ofNat (n + 0xc000)).toNat = n % 256 := by
      rw [UInt8.toNat_ofNat']
      omega
    simp only [↓reduceIte, hn, hh, hlo, hl, hle, hj, and_self]
  | false =>
    have hn : (UInt16.ofNat n).toNat = n := by
      rw [UInt16.toNat_ofNat']
      omega
    have hlo : (UInt8.ofNat n).toNat = n % 256 := UInt8.toNat_ofNat'
    simp [↓reduceIte, hn, hlo, hmore, hl', hj]

theorem unframe_frames (hne : ps ≠ []) (hps : ∀ p ∈ ps, p.length ≤ 4096)
    (bs : List Bytes) (tail : Bytes) : ClientState.unframe bs (frames ps ++ tail) = bs ++ ps := by
  induction ps generalizing bs with
  | nil => exact absurd rfl hne
  | cons p ps ih =>
    obtain ⟨hp, hps⟩ := forall_mem_cons.mp hps
    obtain ⟨high, low, hb, hl, hle⟩ :=
      frame_header (show p.length < 0x4000 by omega) (decide (ps = []))
    simp only [decide_eq_true_eq] at hb hl
    rw [frames, hb]
    simp only [cons_append, nil_append, append_assoc]
    rw [ClientState.unframe]
    simp only [hle, hl, length_append, take_left, drop_left]
    rw [if_neg (by omega)]
    cases ps with
    | nil => rfl
    | cons p' ps =>
      have hlo : ¬ (frames (p' :: ps)).length + tail.length < 2 := by
        simp [frames]
        omega
      rw [if_neg (by simp), if_neg hlo, ih (by simp) hps]
      simp

theorem frames_ne_nil (hne : ps ≠ []) : frames ps ≠ [] := by
  obtain ⟨p, ps, rfl⟩ := exists_cons_of_ne_nil hne
  simp [frames, be16]

variable {d : Domain} {q : Question} {msg : Message} {edns0 : UInt16} {rds : List Bytes}

def response (msg : Message) (q : Question) (edns0 : UInt16) (rds : List Bytes) : Message :=
  { msg with
    flags := 0x8000 ||| 0x0400
    answer := rds.map (answer q)
    authority := []
    additional := if edns0 > 0 then [optRR edns0] else [] }

theorem mem_additional (h : rr ∈ (response msg q edns0 rds).additional) : rr = optRR edns0 := by
  simp only [response] at h
  split at h
  · exact mem_singleton.mp h
  · exact absurd h not_mem_nil

theorem length_additional (msg : Message) (q : Question) (edns0 : UInt16) (rds : List Bytes) :
    (response msg q edns0 rds).additional.length ≤ 1 := by
  simp only [response]
  split <;> simp

theorem size_eq (hd : d.Sound) (hedns0 : edns0 = 0 ∨ 512 ≤ edns0 ∧ edns0 ≤ 4096) :
    size d edns0 = (min (max edns0.toNat 512) (max d.edns0.toNat 512) : Nat) := by
  have hl : ∀ n : UInt16, n.toNat ≤ 4096 → asI16 (max n 512) = (max n.toNat 512 : Nat) := by
    intro n hn
    have hm : (max n 512).toNat = max n.toNat 512 := by
      have h512 : (512 : UInt16).toNat = 512 := rfl
      change (if n ≤ 512 then (512 : UInt16) else n).toNat = _
      split <;> rename_i hle <;> rw [UInt16.le_iff_toNat_le] at hle <;> omega
    rw [asI16, hm, if_pos (by omega)]
  have hze : (0 : UInt16).toNat = 0 := rfl
  have hq : edns0.toNat ≤ 4096 := by
    rcases hedns0 with rfl | ⟨-, hle⟩
    · exact Nat.zero_le _
    · exact UInt16.le_iff_toNat_le.mp hle
  have ho : d.edns0.toNat ≤ 4096 := by
    rcases hd.edns0 with hz | ⟨-, hle⟩
    · rw [hz]
      exact Nat.zero_le _
    · exact hle
  rw [size, hl edns0 hq, hl d.edns0 ho]
  omega

theorem mem_length_le (h : rr ∈ rrs) : rr.data.length ≤ recordsLength 2 rrs := by
  have := single_le_sum (l := rrs.map fun rr => 2 + 10 + rr.data.length) (by simp) _
    (mem_map_of_mem h)
  rw [recordsLength]
  omega

theorem response_wire (hd : d.Sound) (hquestion : msg.question = [q]) (hna : q.name.labels ≠ [])
    (hedns0 : edns0 = 0 ∨ 512 ≤ edns0 ∧ edns0 ≤ 4096) (hc : rds.length ≤ 255)
    (hroom : (recordsLength 2 (rds.map (answer q)) : Int) ≤ room d edns0 q)
    (hp : ∀ rdata ∈ rds, (answer q rdata).PlainCname) :
    ∃ bytes, (response msg q edns0 rds).wireFormat = .ok bytes ∧
      messageFromWireFormat bytes = .ok (response msg q edns0 rds) ∧
      bytes.length ≤ min (max edns0.toNat 512) (max d.edns0.toNat 512) := by
  have hsize := size_eq hd hedns0
  have hli : room d edns0 q ≤ size d edns0 := by
    rw [room]
    split <;> omega
  have hb : size d edns0 ≤ 0xffff := by
    have := UInt16.toNat_lt edns0
    omega
  have hre : (response msg q edns0 rds).records =
      (response msg q edns0 rds).answer ++ (response msg q edns0 rds).additional := by
    rw [Message.records, show (response msg q edns0 rds).authority = [] from rfl, append_nil]
  have ht : TunnelMessage (response msg q edns0 rds) q := by
    refine ⟨hquestion, hna, fun rr hrr => ?_, rfl, fun rr hrr => by rw [mem_additional hrr]; rfl,
      ⟨fun n hn => ?_, fun rr hrr => ?_⟩, fun rr hrr => ?_⟩
    · obtain ⟨rdata, -, rfl⟩ := mem_map.mp hrr
      rfl
    · simp only [Message.counts, mem_cons, not_mem_nil, or_false] at hn
      rcases hn with rfl | rfl | rfl | rfl
      · exact (congrArg length hquestion).trans_le (show 1 ≤ 0xffff by decide)
      · exact (length_map ..).trans_le (hc.trans (by decide))
      · exact Nat.zero_le _
      · exact (length_additional msg q edns0 rds).trans (by decide)
    · rw [hre] at hrr
      rcases mem_append.mp hrr with hrr | hrr
      · have : rr.data.length ≤ recordsLength 2 (rds.map (answer q)) := mem_length_le hrr
        omega
      · rw [mem_additional hrr]
        exact Nat.zero_le _
    · rw [hre] at hrr
      rcases mem_append.mp hrr with hrr | hrr
      · obtain ⟨rdata, hr, rfl⟩ := mem_map.mp hrr
        exact hp rdata hr
      · rw [mem_additional hrr]
        exact fun htype => absurd htype (show RR_TYPE_OPT ≠ RR_TYPE_CNAME by decide)
  obtain ⟨bytes, hw, hra, hl⟩ := ht.wire
  refine ⟨bytes, hw, hra, ?_⟩
  have ho : (recordsLength 1 (response msg q edns0 rds).additional : Int) =
      if edns0 > 0 then 11 else 0 := by
    simp only [response]
    split <;> rfl
  have ha : recordsLength 2 (response msg q edns0 rds).answer =
      recordsLength 2 (rds.map (answer q)) := rfl
  rw [room, ← ho] at hroom
  rw [ha] at hl
  omega

open ClientState (unframe)

variable {c : ClientState} {buf : Bytes} {answers kept : List RR} {frags : List Bytes}
  {unit single : Nat} {data : Bytes}

def ClientState.Serves (c : ClientState) (d : Domain) : Prop :=
  ∀ name, d.under name = true → c.domains.find? (·.under name) = some d

theorem clientRead_response (hserves : c.Serves d) (hunder : d.under q.name = true)
    (htype : q.qtype ∈ d.types) (hquestion : msg.question = [q])
    (hr : messageFromWireFormat buf = .ok { response msg q edns0 rds with answer := answers }) :
    c.clientRead buf = (decode ⟨{ response msg q edns0 rds with answer := answers }, d, 0, 0⟩
      >>= fun payload => .ok (unframe [] payload)) := by
  have hf : ¬ ((0x8000 ||| 0x0400 : UInt16) &&& 0x8000 = 0 ∨
      (0x8000 ||| 0x0400 : UInt16) &&& 0x0200 ≠ 0 ∨ (0x8000 ||| 0x0400 : UInt16) &&& 0x000f ≠ 0 ∨
      msg.question.length ≠ 1) := by
    rw [hquestion]
    simp only [length_singleton, ne_eq, not_true_eq_false, or_false]
    decide
  have hh : d.hasType q.qtype = true := decide_eq_true htype
  rw [ClientState.clientRead, hr]
  dsimp only [response]
  rw [if_neg hf, hquestion, Checked.index_of_some rfl, ok_bind, findM?_isDomain, ok_bind,
    hserves q.name hunder]
  dsimp only
  rw [if_pos hh, new, if_pos (show (0x8000 ||| 0x0400 : UInt16) &&& 0x8000 ≠ 0 by decide)]
  rfl

theorem unframe_nil : unframe [] [] = [] := by
  simp [unframe]

theorem decode_txt (hq : q.qtype = TYPE_TXT) (hunder : d.under q.name = true)
    (hquestion : msg.question = [q]) (data : Bytes) : decode ⟨{ response msg q edns0 rds with
      answer := [answer q (txtData data)] }, d, 0, 0⟩ = .ok data := by
  simp only [decode, response, hquestion]
  rw [Checked.index_of_some rfl, ok_bind, if_pos hq, Domain.isDomain_eq, ok_bind]
  simp [answer, hunder, hq, ↓reduceIte, txtLoop_txtData]

theorem decode_records (hq : q.qtype ≠ TYPE_TXT) (hquestion : msg.question = [q])
    (hp : (answers.filterMap (found d q.qtype)).Perm frags)
    (hsorted : frags.Pairwise fun x y => byteAt x 0 < byteAt y 0) :
    decode ⟨{ response msg q edns0 rds with answer := answers }, d, 0, 0⟩ = join frags := by
  simp only [decode, response, hquestion]
  rw [Checked.index_of_some rfl, ok_bind, if_neg hq, filterMapM_fragOf, ok_bind,
    sortFrags_eq hp hsorted]

/-- Fragments without the first one that pass for a whole: the first byte of data is taken for
their number, and there are as many. -/
def Misread (frags : List Bytes) : Prop :=
  ∃ number count rest others, frags = (number :: count :: rest) :: others ∧ number ≠ 0 ∧
    count.toNat ≤ frags.length ∧ unframe [] (rest ++ others.flatMap (·.drop 1)) ≠ []

theorem join_whole (h : Numbered unit data frags) (hu : 2 ≤ unit) (hc : frags.length ≤ 255) :
    ∃ tail, join frags = .ok (if data = [] then [] else data ++ tail) := by
  by_cases hdata : data = []
  · have hni : frags = [] := by
      refine eq_nil_of_length_eq_zero ?_
      rw [h.length, hdata, length_nil, fragCount_zero unit hu]
      rfl
    refine ⟨[], ?_⟩
    rw [hni, if_pos hdata]
    rfl
  · obtain ⟨rest, o, tail, hf, hdata'⟩ := h.head hu hdata
    have hsorted := h.sorted (hc.trans (by decide))
    have hl : o.length + 1 = frags.length := by rw [hf, length_cons]
    have hn : (UInt8.ofNat frags.length).toNat = frags.length := by
      rw [UInt8.toNat_ofNat']
      omega
    refine ⟨tail, ?_⟩
    rw [hf] at hsorted
    have hne : ∀ frag ∈ o, frag ≠ [] := by
      intro frag hfr
      obtain ⟨n, b, rest, rfl⟩ := h.two_le_length (by rw [hf]; exact .tail _ hfr)
      simp
    rw [if_neg hdata, ← hdata']
    conv_lhs => rw [hf]
    rw [join_eq hne hsorted, if_neg (by omega)]

theorem join_some {found : List Bytes} (h : Numbered unit data frags) (hu : 2 ≤ unit)
    (hc : frags.length ≤ 255) (hs : found.Sublist frags) (hm : found.length < frags.length) :
    ∃ payload, join found = .ok payload ∧ (unframe [] payload = [] ↔ ¬ Misread found) := by
  have hsorted := h.sorted (hc.trans (by decide))
  cases found with
  | nil =>
    refine ⟨[], rfl, iff_of_true unframe_nil ?_⟩
    rintro ⟨_, _, _, _, hn, -⟩
    cases hn
  | cons frag o =>
    obtain ⟨n, c, rest, rfl⟩ := h.two_le_length (hs.subset (mem_cons_self ..))
    have hne : ∀ frag ∈ o, frag ≠ [] := by
      intro frag hfr
      obtain ⟨_, _, _, rfl⟩ := h.two_le_length (hs.subset (.tail _ hfr))
      simp
    refine ⟨_, join_eq hne (hsorted.sublist hs), ?_⟩
    -- the first fragment of all says how many there are, which is more than these
    have hfi : n = 0 → c.toNat = frags.length := by
      rintro rfl
      have hdata : data ≠ [] := by
        intro hn
        rw [h.length, hn, length_nil, fragCount_zero unit hu] at hm
        exact absurd hm (Nat.not_lt_zero _)
      obtain ⟨rest', ot', -, hfa, -⟩ := h.head hu hdata
      have hme := hs.subset (mem_cons_self ..)
      rw [hfa] at hme hsorted
      rcases mem_cons.mp hme with heq | hme
      · cases heq
        rw [UInt8.toNat_ofNat']
        omega
      · exact absurd ((pairwise_cons.mp hsorted).1 _ hme) (by simp [byteAt])
    have hl : ((n :: c :: rest) :: o).length = o.length + 1 := rfl
    split
    · next hgt =>
      refine iff_of_true unframe_nil ?_
      rintro ⟨_, _, _, _, heq, -, hle, -⟩
      cases heq
      omega
    · next hle =>
      have hze : n ≠ 0 := fun hz => by
        have := hfi hz
        omega
      rw [← not_iff_not, not_not]
      refine ⟨fun hf => ⟨_, _, _, _, rfl, hze, by omega, hf⟩, ?_⟩
      rintro ⟨_, _, _, _, heq, -, -, hf⟩
      cases heq
      exact hf

theorem unframe_payload (hpackets : ∀ p ∈ packets, p.length ≤ 4096) (tail : Bytes) :
    unframe [] (if frames packets = [] then [] else frames packets ++ tail) = packets := by
  by_cases hne : packets = []
  · rw [hne]
    exact unframe_nil
  · rw [if_neg (frames_ne_nil hne), unframe_frames hne hpackets, nil_append]

theorem clientRead_records
    (h : Carried d q (frames packets) unit single rds frags) (hq : q.qtype ≠ TYPE_TXT)
    (hserves : c.Serves d) (hunder : d.under q.name = true) (htype : q.qtype ∈ d.types)
    (hquestion : msg.question = [q]) (hpackets : ∀ p ∈ packets, p.length ≤ 4096)
    (hc : rds.length ≤ 255) (hs : kept.Sublist (rds.map (answer q)))
    (hp : answers.Perm kept) (hr : messageFromWireFormat buf =
      .ok { response msg q edns0 rds with answer := answers }) :
    (kept = rds.map (answer q) → c.clientRead buf = .ok packets) ∧
    (kept ≠ rds.map (answer q) →
      (c.clientRead buf = .ok [] ↔ ¬ Misread (kept.filterMap (found d q.qtype)))) := by
  have hl : frags.length = rds.length := by rw [h.numbered.length, h.length]
  have hf := hs.filterMap (found d q.qtype)
  rw [h.filterMap] at hf
  have hsorted := (h.numbered.sorted (by omega)).sublist hf
  rw [clientRead_response hserves hunder htype hquestion hr,
    decode_records hq hquestion (hp.filterMap _) hsorted]
  constructor
  · rintro rfl
    obtain ⟨tail, hj⟩ := join_whole h.numbered h.unit_ge (by omega)
    rw [h.filterMap, hj, ok_bind, unframe_payload hpackets]
  intro hm
  have hsome : ∀ rr ∈ kept, (found d q.qtype rr).isSome := fun rr hrr => h.isSome (hs.subset hrr)
  have hlt : (kept.filterMap (found d q.qtype)).length < frags.length := by
    rw [filterMap_length_eq_length.mpr hsome, hl]
    refine lt_of_le_of_ne (hs.length_le.trans_eq (length_map ..)) fun heq => hm ?_
    exact hs.eq_of_length (heq.trans (length_map ..).symm)
  obtain ⟨pa, hj, hi⟩ := join_some h.numbered h.unit_ge (by omega) hf hlt
  rw [hj, ok_bind, ← hi, Except.ok.injEq]

theorem le_room (hd : d.Sound) (q : Question) (hedns0 : edns0 = 0 ∨ 512 ≤ edns0 ∧ edns0 ≤ 4096) :
    12 ≤ room d edns0 q := by
  have hsize := size_eq hd hedns0
  have hn := q.name.valid.2
  rw [room, hsize]
  split <;> omega

theorem encode_response {cap : Int} {data : Bytes} (hquestion : msg.question = [q])
    (hok : rdatas d q.qtype data = .ok rds) :
    encode ⟨msg, d, edns0, cap⟩ data = .ok (response msg q edns0 rds).wireFormat := by
  rw [encode, hquestion, Checked.index_of_some rfl, ok_bind, respond, hok]
  rfl

/-- The client gets these packets out of the response with its answers in any order. -/
def ClientState.ReadsInAnyOrder (c : ClientState) (m : Message) (packets : List Bytes) : Prop :=
  ∀ answers buf, answers.Perm m.answer →
    messageFromWireFormat buf = .ok { m with answer := answers } → c.clientRead buf = .ok packets

/-- The client gets nothing out of the response when some of its answers are missing. -/
def ClientState.IgnoresPartOf (c : ClientState) (m : Message) : Prop :=
  ∀ kept answers buf, kept.Sublist m.answer → kept ≠ m.answer → answers.Perm kept →
    messageFromWireFormat buf = .ok { m with answer := answers } → c.clientRead buf = .ok []

def Recognizable (d : Domain) (q : Question) (m : Message) : Prop :=
  ∀ kept, kept.Sublist m.answer → kept ≠ m.answer → ¬ Misread (kept.filterMap (found d q.qtype))

theorem labels_ne_nil (hunder : d.under q.name = true) : q.name.labels ≠ [] := by
  intro hn
  simp [Domain.under, hn] at hunder

section
variable {packets : List Bytes} (hd : d.Sound) (hserves : c.Serves d)
  (hunder : d.under q.name = true) (htype : q.qtype ∈ d.types) (hquestion : msg.question = [q])
  (hedns0 : edns0 = 0 ∨ 512 ≤ edns0 ∧ edns0 ≤ 4096) (hpackets : ∀ p ∈ packets, p.length ≤ 4096)
  (hcap : ((frames packets).length : Int) ≤ capacity d q.qtype (room d edns0 q))
include hd hserves hunder htype hquestion hedns0 hpackets hcap

theorem downlink_records (h : Carried d q (frames packets) unit single rds frags)
    (hq : q.qtype ≠ TYPE_TXT) : (∃ bytes, (response msg q edns0 rds).wireFormat = .ok bytes ∧
      messageFromWireFormat bytes = .ok (response msg q edns0 rds) ∧
      bytes.length ≤ min (max edns0.toNat 512) (max d.edns0.toNat 512)) ∧
    c.ReadsInAnyOrder (response msg q edns0 rds) packets ∧
    (c.IgnoresPartOf (response msg q edns0 rds) ↔ Recognizable d q (response msg q edns0 rds)) := by
  have hn := labels_ne_nil hunder
  obtain ⟨hc, hroom⟩ := h.fits (by have := le_room hd q hedns0; omega) hcap
  refine ⟨response_wire hd hquestion hn hedns0 hc hroom h.plain,
    fun a buf hp hre => ?_, fun hno kept hs hne => ?_,
    fun hco kept a buf hs hne hp hre => ?_⟩
  · exact (clientRead_records h hq hserves hunder htype hquestion hpackets hc (.refl _) hp
      hre).1 rfl
  · -- the response without these records can be written as well
    obtain ⟨rds', hs', rfl⟩ := sublist_map_iff.mp hs
    have hsu : recordsLength 2 (rds'.map (answer q)) ≤ recordsLength 2 (rds.map (answer q)) :=
      (hs.map _).sum_le_sum fun _ _ => Nat.zero_le _
    obtain ⟨buf, -, hre, -⟩ := response_wire hd hquestion hn hedns0
      (hs'.length_le.trans hc) (by omega) fun r hr => h.plain r (hs'.subset hr)
    exact ((clientRead_records h hq hserves hunder htype hquestion hpackets hc hs (.refl _)
      hre).2 hne).mp (hno _ _ buf hs hne (.refl _) hre)
  · exact ((clientRead_records h hq hserves hunder htype hquestion hpackets hc hs hp
      hre).2 hne).mpr (hco kept hs hne)

theorem downlink_txt (hq : q.qtype = TYPE_TXT) :
    (∃ bytes, (response msg q edns0 [txtData (frames packets)]).wireFormat = .ok bytes ∧
      messageFromWireFormat bytes = .ok (response msg q edns0 [txtData (frames packets)]) ∧
      bytes.length ≤ min (max edns0.toNat 512) (max d.edns0.toNat 512)) ∧
    c.ReadsInAnyOrder (response msg q edns0 [txtData (frames packets)]) packets := by
  have hc : capacity d q.qtype (room d edns0 q) = txtCapacity (room d edns0 q - 12) := by
    rw [hq]
    rfl
  rw [hc] at hcap
  have hfits := txtData_fits (le_room hd q hedns0) hcap
  refine ⟨response_wire hd hquestion (labels_ne_nil hunder) hedns0 (by simp) hfits
    fun _ _ hcn => absurd (hq.symm.trans hcn) (by decide), fun a buf hp hr => ?_⟩
  obtain rfl : a = [answer q (txtData (frames packets))] := perm_singleton.mp hp
  rw [clientRead_response hserves hunder htype hquestion hr,
    decode_txt hq hunder hquestion, ok_bind]
  have := unframe_payload hpackets []
  rw [append_nil, ite_eq_right_iff.mpr Eq.symm] at this
  rw [this]

end

/-- A response is within the announced sizes, and the client gets the packets out of it. It ignores
a response with missing fragments exactly if no part of it passes for a whole. -/
theorem downlink_iff (hd : d.Accepted) (hflags : msg.flags &&& 0x8000 = 0)
    (hquestion : msg.question = [q]) (hunder : d.under q.name = true) (htype : q.qtype ∈ d.types)
    (hedns0 : edns0 = 0 ∨ 512 ≤ edns0 ∧ edns0 ≤ 4096) {r : Resp}
    (hr : new msg d edns0 = .ok r) {packets : List Bytes}
    (hpackets : ∀ p ∈ packets, 1 ≤ p.length ∧ p.length ≤ 4096)
    (hcap : (((packets.map fun p => 2 + p.length).sum : Nat) : Int) ≤ r.cap) (hserves : c.Serves d) :
    ∃ bytes m, r.encode (frames packets) = .ok (.ok bytes) ∧ messageFromWireFormat bytes = .ok m ∧
      bytes.length ≤ min (max edns0.toNat 512) (max d.edns0.toNat 512) ∧
      c.ReadsInAnyOrder m packets ∧
      (q.qtype ≠ TYPE_TXT → (c.IgnoresPartOf m ↔ Recognizable d q m)) := by
  obtain rfl := Except.ok.inj (hr.symm.trans (new_eq hd.sound hflags hquestion edns0))
  replace hpackets : ∀ p ∈ packets, p.length ≤ 4096 := fun p hp => (hpackets p hp).2
  rw [← length_frames] at hcap
  by_cases hq : q.qtype = TYPE_TXT
  · have hok : rdatas d q.qtype (frames packets) = .ok [txtData (frames packets)] := by
      rw [hq]
      rfl
    obtain ⟨⟨bytes, hwire, hread, hlength⟩, hany⟩ :=
      downlink_txt hd.sound hserves hunder htype hquestion hedns0 hpackets hcap hq
    exact ⟨bytes, _, by rw [encode_response hquestion hok, hwire], hread, hlength, hany,
      fun hnot => absurd hq hnot⟩
  · obtain ⟨unit, single, rds, frags, h⟩ : ∃ unit single rds frags,
        Carried d q (frames packets) unit single rds frags := by
      rcases hd.sound.types _ htype with ht | ht | ht | ht
      · exact ⟨_, _, _, _, carried_a ht hunder _⟩
      · obtain ⟨names, h⟩ := carried_cname ht hunder hd.sound (frames packets)
        exact ⟨_, _, _, _, h⟩
      · exact absurd ht hq
      · exact ⟨_, _, _, _, carried_aaaa ht hunder _⟩
    obtain ⟨⟨bytes, hwire, hread, hlength⟩, hany, hiff⟩ :=
      downlink_records hd.sound hserves hunder htype hquestion hedns0 hpackets hcap h hq
    exact ⟨bytes, _, by rw [encode_response hquestion h.ok, hwire], hread, hlength, hany,
      fun _ => hiff⟩

def addresses : Except DomainError Domain := Domain.new [116] 255 63 [TYPE_A] 0

theorem host_valid : ValidLabels [[97], [116]] := by decide

def hostQuestion : Question := ⟨⟨[[97], [116]], host_valid⟩, TYPE_A, CLASS_IN⟩

def hostQuery : Message := ⟨1, 0x0100, [hostQuestion], [], [], []⟩

def readerOf (d : Domain) : ClientState := ⟨noClient, [d], [], [], 0, 0⟩

theorem readerOf_serves (d : Domain) : (readerOf d).Serves d := by
  intro name hunder
  simp [readerOf, hunder]

def trap : Bytes := [1, 0xc0, 1, 7]

theorem downlink_trap : ∃ d r bytes m, addresses = .ok d ∧ new hostQuery d 0 = .ok r ∧
    r.encode (frames [trap]) = .ok (.ok bytes) ∧ messageFromWireFormat bytes = .ok m ∧
    (readerOf d).ReadsInAnyOrder m [trap] ∧
    ((readerOf d).IgnoresPartOf m ↔ Recognizable d hostQuestion m) := by
  have hcheck : (addresses.toOption.any fun d => d.under hostQuestion.name &&
      decide (TYPE_A ∈ d.types) && (new hostQuery d 0).toOption.any fun r =>
        decide (6 ≤ r.cap)) = true := by decide +kernel
  obtain ⟨d, hd, hcheck⟩ := (Option.any_eq_true _ _).mp hcheck
  obtain ⟨hfirst, hcheck⟩ := Bool.and_eq_true_iff.mp hcheck
  obtain ⟨hunder, htype⟩ := Bool.and_eq_true_iff.mp hfirst
  obtain ⟨r, hr, hcap⟩ := (Option.any_eq_true _ _).mp hcheck
  replace hd := toOption_eq_some.mp hd
  replace hr := toOption_eq_some.mp hr
  obtain ⟨bytes, m, hencode, hread, -, hany, hiff⟩ := downlink_iff ⟨_, _, _, _, _, hd⟩
    (show hostQuery.flags &&& 0x8000 = 0 by decide) (show hostQuery.question = [hostQuestion] from rfl)
    hunder (of_decide_eq_true htype) (.inl rfl) hr (show ∀ p ∈ [trap], _ by simp [trap])
    (of_decide_eq_true hcap) (readerOf_serves d)
  exact ⟨d, r, bytes, m, hd, hr, hencode, hread, hany, hiff (by decide)⟩

def trapAnswers : List Bytes := [[0, 3, 0xc0, 4], [1, 1, 0xc0, 1], [2, 7, 0, 0]]

/-- Without the first answer, the client delivers a packet that nobody sent. -/
theorem missing_first_fragment : ∃ d r bytes m buf, addresses = .ok d ∧
    new hostQuery d 0 = .ok r ∧ r.encode (frames [trap]) = .ok (.ok bytes) ∧
    messageFromWireFormat bytes = .ok m ∧ m.answer = trapAnswers.map (answer hostQuestion) ∧
    messageFromWireFormat buf = .ok { m with answer := m.answer.drop 1 } ∧
    (readerOf d).clientRead buf = .ok [[7]] := by
  have hcheck : (addresses.toOption.any fun d => (new hostQuery d 0).toOption.any fun r =>
      (r.encode (frames [trap])).toOption.any fun e => e.toOption.any fun bytes =>
      decide ((messageFromWireFormat bytes).toOption =
        some (response hostQuery hostQuestion 0 trapAnswers)) &&
      (response hostQuery hostQuestion 0 (trapAnswers.drop 1)).wireFormat.toOption.any fun buf =>
        decide ((messageFromWireFormat buf).toOption =
          some (response hostQuery hostQuestion 0 (trapAnswers.drop 1))) &&
        d.under hostQuestion.name && decide (TYPE_A ∈ d.types) &&
        decide (((trapAnswers.drop 1).map (answer hostQuestion)).filterMap
          (found d TYPE_A) = trapAnswers.drop 1)) = true := by decide +kernel
  obtain ⟨d, hd, hcheck⟩ := (Option.any_eq_true _ _).mp hcheck
  obtain ⟨r, hr, hcheck⟩ := (Option.any_eq_true _ _).mp hcheck
  obtain ⟨e, he, hcheck⟩ := (Option.any_eq_true _ _).mp hcheck
  obtain ⟨bytes, hbytes, hcheck⟩ := (Option.any_eq_true _ _).mp hcheck
  obtain ⟨hm, hcheck⟩ := Bool.and_eq_true_iff.mp hcheck
  obtain ⟨buf, -, hcheck⟩ := (Option.any_eq_true _ _).mp hcheck
  simp only [Bool.and_eq_true, decide_eq_true_eq, toOption_eq_some] at hcheck hd hr he hbytes hm
  obtain ⟨⟨⟨hbuf, hunder⟩, htype⟩, hfound⟩ := hcheck
  refine ⟨d, r, bytes, _, buf, hd, hr, by rw [he, hbytes], hm, rfl, hbuf, ?_⟩
  have hjoin : join (trapAnswers.drop 1) = .ok [0xc0, 1, 7, 0, 0] := rfl
  have hframes : unframe [] [0xc0, 1, 7, 0, 0] = [[7]] := by decide +kernel
  have hread : messageFromWireFormat buf = .ok { response hostQuery hostQuestion 0 trapAnswers with
      answer := (trapAnswers.drop 1).map (answer hostQuestion) } := hbuf
  rw [clientRead_response (readerOf_serves d) hunder htype rfl hread,
    decode_records (by decide) rfl (.of_eq hfound) (by decide), hjoin, ok_bind, hframes]

end XrayCore.Xdns
