import Mathlib.Data.List.Chain
import XrayCore.Xdns.Client
import XrayCore.Xdns.FragCollect
import XrayCore.Xdns.ServerLaws
import XrayCore.Xdns.TunnelMessage

/-!
# From the client to the server

`Carries d t data buf` says that a datagram is a query of type `t` whose name holds `data` under
the domain `d`. The client makes such datagrams of a packet, and the server makes the packet of
them, whatever order they come in.
-/

namespace XrayCore.Xdns

open Lib List ServerState
open Net (SocketAddr)

variable {d : Domain} {t : UInt16} {data buf p : Bytes} {c : ClientState} {draws : Draws}

structure Carries (d : Domain) (t : UInt16) (data buf : Bytes) (msg : Message) (q : Question)
    (edns0 : UInt16) : Prop where
  reads : messageFromWireFormat buf = .ok msg
  flags : msg.flags &&& 0x8000 = 0
  opcode : msg.opcode = 0
  question : msg.question = [q]
  opt : optLoop msg none msg.additional = .ok edns0
  qtype : q.qtype = t
  under : d.under q.name = true
  payload : d.payload q.name = data

def IsQueryFor (d : Domain) (t : UInt16) (data buf : Bytes) : Prop :=
  ∃ msg q edns0, Carries d t data buf msg q edns0

namespace ClientState

theorem nextResolver_ok (h : c.resolvers ≠ []) :
    ∃ c' r, c.nextResolver = .ok (c', r) ∧ c'.resolvers = c.resolvers := by
  have hlt : c.index.toNat % c.resolvers.length < c.resolvers.length :=
    Nat.mod_lt _ (length_pos_of_ne_nil h)
  rw [nextResolver, getElem?_eq_getElem hlt]
  exact ⟨_, _, rfl, rfl⟩

theorem queryMessage_tunnel (id : UInt32) (d : Domain) (t : UInt16) (hna : name.labels ≠ []) :
    TunnelMessage (queryMessage id d t name) ⟨name, t, CLASS_IN⟩ := by
  have ha : ∀ rr ∈ (queryMessage id d t name).additional,
      rr = ⟨Name.root, RR_TYPE_OPT, d.edns0, 0, []⟩ := by
    intro rr hrr
    simp only [queryMessage] at hrr
    split at hrr
    · exact mem_singleton.mp hrr
    · exact absurd hrr (by simp)
  have hl : (queryMessage id d t name).additional.length ≤ 1 := by
    simp only [queryMessage]
    split <;> simp
  have hr : (queryMessage id d t name).records = (queryMessage id d t name).additional := rfl
  refine ⟨rfl, hna, by simp [queryMessage], rfl, fun rr hrr => by rw [ha rr hrr],
    ⟨fun n hn => ?_, fun rr hrr => ?_⟩, fun rr hrr htype => ?_⟩
  · simp only [Message.counts, mem_cons, not_mem_nil, or_false] at hn
    rcases hn with rfl | rfl | rfl | rfl
    · exact show 1 ≤ 0xffff by decide
    · exact Nat.zero_le _
    · exact Nat.zero_le _
    · exact hl.trans (by decide)
  · rw [ha rr (hr ▸ hrr)]
    exact Nat.zero_le _
  · rw [ha rr (hr ▸ hrr)] at htype
    exact absurd htype (show RR_TYPE_OPT ≠ RR_TYPE_CNAME by decide)

theorem optLoop_queryMessage (id : UInt32) (d : Domain) (t : UInt16) (name : Name) :
    ∃ edns0, optLoop (queryMessage id d t name) none (queryMessage id d t name).additional =
      .ok edns0 := by
  simp only [queryMessage]
  split
  · simp [optLoop]
  · exact ⟨_, rfl⟩

theorem sendMsg_ok (data : Bytes) (hd : d.Sound) (hne : data ≠ []) (hle : data.length ≤ d.cap)
    (hr : c.resolvers ≠ []) (id : UInt32) (t : UInt16) :
    ∃ c' query, c.sendMsg id data d t = .ok (c', query) ∧ IsQueryFor d t data query.1 ∧
      c'.resolvers = c.resolvers := by
  obtain ⟨name, he, hl, -⟩ := hd.encode_ok hle
  obtain ⟨hunder, hp⟩ := Domain.payload_of_encode hd hne hl
  have hn : name.labels ≠ [] := by
    intro hni
    simp [Domain.under, hni] at hunder
  obtain ⟨b, hw, hre, -⟩ := (queryMessage_tunnel id d t hn).wire
  obtain ⟨e, ho⟩ := optLoop_queryMessage id d t name
  obtain ⟨c', r, hnx, hrs⟩ := nextResolver_ok hr
  refine ⟨c', (b, r), ?_, ⟨_, _, e, hre, show (0x0100 : UInt16) &&& 0x8000 = 0 by decide,
    show ((0x0100 : UInt16) >>> 11) &&& 0xf = 0 by decide, rfl, ho, rfl, hunder, hp⟩,
    hrs⟩
  rw [sendMsg, he]
  simp [Except.mapError, hw, hnx]

def fragData (front : Bytes) (fragId : UInt8) (fragN : Nat) (part : Nat → Bytes) (i : Nat) :
    Bytes :=
  front ++ [fragId, UInt8.ofNat i, UInt8.ofNat fragN] ++ part i

theorem sendFrags_ok (draws : Draws) (t : UInt16) (p front : Bytes) (hd : d.Sound)
    (hf : front.length = 12) (fragId : UInt8) (fragN i k : Nat) (hr : c.resolvers ≠ []) :
    ∃ c' qs, sendFrags draws d t front fragId fragN (d.cap - 15) c i k
        (p.drop (i * (d.cap - 15))) = .ok (c', qs) ∧ List.Forall₂ (fun query j => IsQueryFor d t
        (fragData front fragId fragN (piece (d.cap - 15) p) j) query) (qs.map Prod.fst)
        (range' i k) := by
  have hcap := hd.cap_ge
  generalize hu : d.cap - 15 = unit
  induction k generalizing c i with
  | zero => exact ⟨c, [], rfl, .nil⟩
  | succ k ih =>
    have hp : (piece unit p i).length ≤ unit := length_take_le _ _
    obtain ⟨c1, query, hs, hq, hr1⟩ := sendMsg_ok
      (fragData front fragId fragN (piece unit p) i) hd (by simp [fragData])
      (by simp only [fragData, length_append, hf, length_cons, length_nil]; omega) hr (draws.ids i) t
    obtain ⟨c2, qs, hrest, hqu⟩ := ih (i + 1) (hr1 ▸ hr)
    refine ⟨c2, query :: qs, ?_, .cons hq hqu⟩
    rw [sendFrags, take_min_length, drop_min_length, drop_drop, ← Nat.succ_mul]
    change (c.sendMsg (draws.ids i) (fragData front fragId fragN (piece unit p) i) d t >>= _) = _
    rw [hs, ok_bind]
    dsimp only
    rw [hrest, ok_bind]

def layout (id : ClientID) (mark : UInt8) (draws : Draws) (rest : Bytes) : Bytes :=
  id.1 ++ [mark] ++ draws.fill.1 ++ rest

theorem fragData_layout (id : ClientID) (mark : UInt8) (draws : Draws) (fragId : UInt8)
    (fragN : Nat) (part : Nat → Bytes) (i : Nat) :
    fragData (id.1 ++ [mark] ++ draws.fill.1) fragId fragN part i =
      layout id mark draws (fragId :: UInt8.ofNat i :: UInt8.ofNat fragN :: part i) := by
  simp [fragData, layout]

def fragCount (d : Domain) (p : Bytes) : Nat := (p.length + (d.cap - 15) - 1) / (d.cap - 15)

def payloads (d : Domain) (draws : Draws) (id : ClientID) (fragId : UInt8) (p : Bytes) :
    List Bytes :=
  if p.length ≤ d.cap - 12 then [layout id 3 draws p]
  else (range (fragCount d p)).map fun i =>
    layout id 0xc3 draws (fragId :: UInt8.ofNat i :: UInt8.ofNat (fragCount d p) ::
      piece (d.cap - 15) p i)

theorem sendOnce_ok (hpi : c.pick draws = .ok (d, t))
    (hb : typeMap t = .ok bits) (hd : d.Sound) (hr : c.resolvers ≠ []) (hp : p ≠ [])
    (hl : p.length ≤ 255 * (d.cap - 15)) : ∃ c' qs fragId, c.sendOnce draws p = .ok (c', qs) ∧
      List.Forall₂ (fun query data => IsQueryFor d t data query) (qs.map Prod.fst)
        (payloads d draws (markId c.clientId bits) fragId p) := by
  have hcap := hd.cap_ge
  have hid := (markId c.clientId bits).2
  have hf := draws.fill.2
  rw [sendOnce, hpi, ok_bind]
  dsimp only
  rw [hb]
  simp only [Except.mapError, ok_bind, if_neg hp]
  by_cases hsm : p.length ≤ d.cap - 12
  · obtain ⟨c', query, hs, hqu, -⟩ := sendMsg_ok
      (layout (markId c.clientId bits) 3 draws p) hd (by simp [layout])
      (by simp only [layout, length_append, hid, hf, length_singleton]; omega) hr (draws.ids 0) t
    rw [layout] at hs
    simp only [if_pos hsm, hs, ok_bind]
    refine ⟨c', [query], 0, rfl, ?_⟩
    rw [payloads, if_pos hsm]
    exact .cons hqu .nil
  · obtain ⟨c', qs, hs, hq⟩ := sendFrags_ok draws t p
      ((markId c.clientId bits).1 ++ [3 ||| 0xc0] ++ draws.fill.1)
      (c := { c with fragId := c.fragId + 1 }) hd
      (by simp [hid, hf])
      (UInt8.ofNat (c.fragId + 1).toNat) (fragCount d p) 0 (fragCount d p) hr
    simp only [if_neg hsm, if_pos hl]
    rw [zero_mul, drop_zero] at hs
    refine ⟨c', qs, UInt8.ofNat (c.fragId + 1).toNat, hs, ?_⟩
    rw [payloads, if_neg hsm, forall₂_map_right_iff, range_eq_range']
    simp only [fragData_layout] at hq
    exact hq

end ClientState

section
open ClientState (layout)

variable {s : ServerState} {id : ClientID} {mark : UInt8} {rest : Bytes}
  {it : Iteration FragKey} {now : Instant} {addr : SocketAddr}

theorem layout_eq (id : ClientID) (mark : UInt8) (draws : Draws) (rest : Bytes) :
    layout id mark draws rest = (id.1 ++ mark :: draws.fill.1) ++ rest := by
  simp [layout]

theorem length_layout_front (id : ClientID) (mark : UInt8) (draws : Draws) :
    (id.1 ++ mark :: draws.fill.1).length = 12 := by
  rw [length_append, length_cons, id.2, draws.fill.2]

theorem length_layout : (layout id mark draws rest).length = 12 + rest.length := by
  rw [layout_eq, length_append, length_layout_front]

theorem take_layout : (layout id mark draws rest).take 8 = id.1 := by
  rw [layout_eq, append_assoc, take_append_of_le_length (le_of_eq id.2.symm)]
  exact take_of_length_le (le_of_eq id.2)

theorem drop_layout (k : Nat) : (layout id mark draws rest).drop (12 + k) = rest.drop k := by
  rw [layout_eq, ← drop_drop, drop_left' (length_layout_front id mark draws)]

theorem byteAt_layout_mark : byteAt (layout id mark draws rest) 8 = mark := by
  rw [layout_eq, append_assoc, byteAt_append (le_of_eq id.2), id.2]
  rfl

theorem byteAt_layout_rest (k : Nat) :
    byteAt (layout id mark draws rest) (12 + k) = byteAt rest k := by
  rw [layout_eq, byteAt_append (by rw [length_layout_front]; omega), length_layout_front,
    Nat.add_sub_cancel_left]

theorem deliver_packet (s : ServerState) (it : Iteration FragKey) (now : Instant) (id : ClientID)
    (draws : Draws) (p : Bytes) : s.deliver it now id (layout id 3 draws p) =
      .ok { s with read := s.read ++ [⟨p, clientIdToAddr id⟩] } := by
  have hl : (layout id 3 draws p).length = 12 + p.length := length_layout
  rw [deliver, index_byteAt (by omega), ok_bind, byteAt_layout_mark,
    if_neg (by decide), if_neg (by decide), Checked.slice_of_le (by omega) le_rfl, ok_bind,
    take_length, drop_layout 0, drop_zero]

theorem deliver_fragment (s : ServerState) (it : Iteration FragKey) (now : Instant) (id : ClientID)
    (draws : Draws) (fragId fragIdx fragN : UInt8) (part : Bytes) :
    s.deliver it now id (layout id 0xc3 draws (fragId :: fragIdx :: fragN :: part)) =
      s.frag.feed it now ⟨id, fragId⟩ fragIdx fragN part >>= fun r =>
        .ok { s with
          frag := r.1
          read := s.read ++ if r.2 = [] then [] else [⟨r.2, clientIdToAddr id⟩] } := by
  have hl : (layout id 0xc3 draws (fragId :: fragIdx :: fragN :: part)).length =
      15 + part.length := by
    rw [length_layout]
    simp
    omega
  rw [deliver, index_byteAt (by omega), ok_bind, byteAt_layout_mark,
    if_neg (by decide), if_pos (by decide), index_byteAt (by omega), ok_bind,
    index_byteAt (by omega), ok_bind, index_byteAt (by omega), ok_bind,
    Checked.slice_of_le (by omega) le_rfl, ok_bind, take_length, drop_layout 3,
    byteAt_layout_rest 0, byteAt_layout_rest 1, byteAt_layout_rest 2]
  refine bind_congr fun r => ?_
  dsimp only
  split <;> simp_all

theorem typeMap_mark (ht : typeMap t = .ok bits) (hb : b &&& 3 = 0) :
    typeMap_ ((b ||| bits) &&& 3) = t := by
  have hbi : ∀ n < 256, ∀ m < 4, UInt8.ofNat n &&& 3 = 0 →
      (UInt8.ofNat n ||| UInt8.ofNat m) &&& 3 = UInt8.ofNat m := by decide +kernel
  have hma : ∀ m < 4, (b ||| UInt8.ofNat m) &&& 3 = UInt8.ofNat m := by
    intro m hm
    have := hbi b.toNat b.toNat_lt m hm
    rw [UInt8.ofNat_toNat] at this
    exact this hb
  rcases Domain.typeMap_ok ht with rfl | rfl | rfl | rfl <;> obtain rfl := Except.ok.inj ht
  · exact congrArg typeMap_ (hma 0 (by decide))
  · exact congrArg typeMap_ (hma 1 (by decide))
  · exact congrArg typeMap_ (hma 2 (by decide))
  · exact congrArg typeMap_ (hma 3 (by decide))

theorem formed_layout (hm : mark &&& 0x3f = 3) (hrest : rest ≠ [])
    (htype : typeMap_ (byteAt id.1 0 &&& 3) = t) : Formed t (layout id mark draws rest) := by
  have hp := length_pos_of_ne_nil hrest
  have hf : byteAt (layout id mark draws rest) 0 = byteAt id.1 0 := by
    have hid := id.2
    rw [layout_eq, append_assoc, byteAt, getD_append _ _ _ _ (by omega)]
    rfl
  refine ⟨by rw [hf, htype], .inl ⟨by rw [byteAt_layout_mark, hm], ?_⟩⟩
  rw [length_layout]
  omega

/-- A datagram that reaches the server. Before that, the loop that sends the responses has taken
some of the records that wait for one. -/
structure Arrival where
  buf : Bytes
  addr : SocketAddr
  now : Instant
  it : Iteration FragKey
  taken : Nat

namespace ServerState

def take (s : ServerState) (n : Nat) : ServerState := { s with recQueue := s.recQueue.drop n }

def arrive (s : ServerState) (a : Arrival) : Checked ServerState :=
  (s.take a.taken).serverRead a.it a.now a.buf a.addr

def Admits : ServerState → List Arrival → Prop
  | _, [] => True
  | s, a :: as => (s.take a.taken).HasRoom ∧ ∀ s', s.arrive a = .ok s' → Admits s' as

def Serves (s : ServerState) (d : Domain) : Prop :=
  ∀ name, d.under name = true → s.domains.find? (·.under name) = some d

end ServerState

theorem arrive_layout (hserves : s.Serves d) (hd : d.Sound) (ht : t ∈ d.types)
    (hroom : (s.take a.taken).HasRoom) (hq : IsQueryFor d t (layout id mark draws rest) a.buf)
    (hm : mark &&& 0x3f = 3) (hrest : rest ≠ []) (htype : typeMap_ (byteAt id.1 0 &&& 3) = t) :
    ∃ recs, s.arrive a = ({ s with recQueue := recs } : ServerState).deliver a.it a.now id
      (layout id mark draws rest) := by
  obtain ⟨msg, q, e, hq⟩ := hq
  have hqu : Query (s.take a.taken) a.buf msg q e d :=
    ⟨hq.reads, hq.flags, hq.opcode, hq.question, hq.opt, hserves q.name hq.under,
      by rw [Domain.hasType, hq.qtype]; exact decide_eq_true ht⟩
  have hf : Formed q.qtype (d.payload q.name) := by
    rw [hq.payload, hq.qtype]
    exact formed_layout hm hrest htype
  obtain ⟨r, hr⟩ := hqu.serveQuery_taken hd hroom hf a.it a.now a.addr
  refine ⟨s.recQueue.drop a.taken ++ [r], ?_⟩
  rw [arrive, hqu.serverRead, hr]
  simp only [hq.payload, take_layout]
  rfl

variable {n : Nat} {part : Nat → Bytes} {fragId : UInt8}

def fragment (id : ClientID) (draws : Draws) (fragId : UInt8) (n : Nat) (part : Nat → Bytes)
    (i : Nat) : Bytes :=
  layout id 0xc3 draws (fragId :: UInt8.ofNat i :: UInt8.ofNat n :: part i)

theorem arrive_fragment {a : Arrival} {i : Nat} {g : Inner} {out : Bytes} (hserves : s.Serves d)
    (hd : d.Sound) (ht : t ∈ d.types) (htype : typeMap_ (byteAt id.1 0 &&& 3) = t)
    (hroom : (s.take a.taken).HasRoom)
    (hq : IsQueryFor d t (fragment id draws fragId n part i) a.buf)
    (hf : s.frag.feed a.it a.now ⟨id, fragId⟩ (UInt8.ofNat i) (UInt8.ofNat n) (part i) =
      .ok (g, out)) :
    ∃ recs, s.arrive a = .ok { s with
      recQueue := recs
      frag := g
      read := s.read ++ if out = [] then [] else [⟨out, clientIdToAddr id⟩] } := by
  obtain ⟨recs, hr⟩ := arrive_layout hserves hd ht hroom hq (by decide) (by simp) htype
  refine ⟨recs, ?_⟩
  rw [hr, deliver_fragment]
  exact bind_ok.mpr ⟨_, hf, rfl⟩

def Gap (a b : Arrival) : Prop := b.now < a.now + FRAG_TTL

theorem arrivals_collect (hd : d.Sound) (ht : t ∈ d.types)
    (htype : typeMap_ (byteAt id.1 0 &&& 3) = t) (hs : Inner.Sizes n part)
    (hw : ((range n).map part).flatten ≠ []) {missing seen : List Nat}
    (hp : (seen ++ missing).Perm (range n)) (hm : missing ≠ [])
    {s : ServerState} {arrs : List Arrival} (hserves : s.Serves d)
    (ha : List.Forall₂ (fun a i => IsQueryFor d t (fragment id draws fragId n part i) a.buf)
      arrs missing) (hg : arrs.IsChain Gap) (had : s.Admits arrs)
    (haw : ∀ a ∈ arrs.head?, s.frag.Awaits ⟨id, fragId⟩ n part a.now seen) :
    ∃ s', arrs.foldlM arrive s = .ok s' ∧
      s'.read = s.read ++ [⟨((range n).map part).flatten, clientIdToAddr id⟩] := by
  induction missing generalizing seen s arrs with
  | nil => exact absurd rfl hm
  | cons i missing ih =>
    cases ha with
    | @cons a _ arrs _ hq ha =>
      obtain ⟨hroom, had⟩ := had
      obtain ⟨hne, hg⟩ := isChain_cons.mp hg
      have hn : (seen ++ i :: missing).Nodup := hp.nodup_iff.mpr nodup_range
      have hi : i < n := mem_range.mp (hp.mem_iff.mp (by simp))
      have hnew : i ∉ seen := fun hme =>
        (nodup_append.mp hn).2.2 i hme i (by simp) rfl
      obtain ⟨hl, hmore⟩ := (haw a rfl).feed hs hi hnew a.it
      rw [foldlM_cons]
      cases missing with
      | nil =>
        cases ha
        have hall : ∀ j < n, j ∈ i :: seen := by
          intro j hj
          have := hp.mem_iff.mpr (mem_range.mpr hj)
          simpa [or_comm] using this
        obtain ⟨g', hf⟩ := hl hall
        obtain ⟨recs, hr⟩ := arrive_fragment hserves hd ht htype hroom hq hf
        rw [if_neg hw] at hr
        exact ⟨_, bind_ok.mpr ⟨_, hr, rfl⟩, rfl⟩
      | cons j missing =>
        have hno : ¬ ∀ k < n, k ∈ i :: seen := by
          intro hall
          have hj : j < n := mem_range.mp (hp.mem_iff.mp (by simp))
          rcases mem_cons.mp (hall j hj) with hji | hj
          · exact (nodup_cons.mp (nodup_append.mp hn).2.1).1 (by simp [hji])
          · exact (nodup_append.mp hn).2.2 j hj j (by simp) rfl
        obtain ⟨g', hf, ha'⟩ := hmore hno
        obtain ⟨recs, hr⟩ := arrive_fragment hserves hd ht htype hroom hq hf
        have hp' : ((i :: seen) ++ j :: missing).Perm (range n) := perm_middle.symm.trans hp
        obtain ⟨s', hru, hfi⟩ := ih hp' (by simp) (by exact hserves) ha hg
          (had _ hr) fun b hb => ha' b.now (le_of_lt (hne b hb))
        refine ⟨s', bind_ok.mpr ⟨_, hr, hru⟩, ?_⟩
        rw [hfi, if_pos rfl, append_nil]

open ClientState (fragCount payloads markId)

theorem fragCount_sizes (hcap : 17 ≤ d.cap) (hl : ¬ p.length ≤ d.cap - 12)
    (hsize : p.length ≤ FRAG_SIZE) (hln : p.length ≤ 255 * (d.cap - 15)) :
    ((range (fragCount d p)).map (piece (d.cap - 15) p)).flatten = p ∧
      Inner.Sizes (fragCount d p) (piece (d.cap - 15) p) := by
  have hu : 0 < d.cap - 15 := by omega
  have hle : fragCount d p ≤ 255 := by
    rw [fragCount, Nat.div_le_iff_le_mul_add_pred hu]
    rw [mul_comm]
    omega
  have ht : 2 ≤ fragCount d p := by
    rw [fragCount, Nat.le_div_iff_mul_le hu]
    omega
  have hw : ((range (fragCount d p)).map (piece (d.cap - 15) p)).flatten = p := by
    rw [flatten_piece]
    refine take_of_length_le ?_
    have := Nat.lt_mul_div_succ (p.length + (d.cap - 15) - 1) hu
    rw [Nat.mul_succ, mul_comm] at this
    rw [fragCount]
    omega
  refine ⟨hw, ht, hle, ?_⟩
  have hs := congrArg length hw
  rw [length_flatten, map_map] at hs
  exact hs.trans_le hsize

/-- A server that serves the domain and has no fragments of the client. -/
structure ServerState.ReadyFor (s : ServerState) (d : Domain) (id : ClientID) : Prop where
  serves : s.Serves d
  reachable : s.frag.Reachable
  isOpen : s.frag.closed = false
  count : s.frag.m.keys.length < FRAG_COUNT
  client : ∀ k ∈ s.frag.m, k.clientId ≠ id

theorem arrivals_payloads (hd : d.Sound)
    (ht : t ∈ d.types) (htype : typeMap_ (byteAt id.1 0 &&& 3) = t) (hp : p ≠ [])
    (hsize : p.length ≤ FRAG_SIZE) (hln : p.length ≤ 255 * (d.cap - 15))
    (hq : List.Forall₂ (fun query data => IsQueryFor d t data query) queries
      (payloads d draws id fragId p))
    (hpe : (arrivals.map Arrival.buf).Perm queries) (hg : arrivals.IsChain Gap)
    (hr : s.ReadyFor d id) (ha : s.Admits arrivals) :
    ∃ s', arrivals.foldlM arrive s = .ok s' ∧ s'.read = s.read ++ [⟨p, clientIdToAddr id⟩] := by
  rw [payloads] at hq
  split at hq
  · obtain ⟨query, _, hqu, hn, rfl⟩ := forall₂_cons_right_iff.mp hq
    obtain rfl := forall₂_nil_right_iff.mp hn
    obtain ⟨a, rfl, rfl⟩ := map_eq_singleton_iff.mp (perm_singleton.mp hpe)
    obtain ⟨recs, hre⟩ := arrive_layout hr.serves hd ht ha.1 hqu (by decide) hp htype
    rw [deliver_packet] at hre
    exact ⟨_, bind_ok.mpr ⟨_, hre, rfl⟩, rfl⟩
  · rename_i hl
    obtain ⟨hw, hs⟩ := fragCount_sizes hd.cap_ge hl hsize hln
    rw [forall₂_map_right_iff] at hq
    obtain ⟨m, har, hm⟩ := perm_comp_forall₂ hpe hq
    rw [forall₂_map_left_iff] at har
    have hne : m ≠ [] := by
      rintro rfl
      have hle := hm.length_eq
      have htw := hs.two_le
      rw [length_nil, length_range] at hle
      omega
    have := arrivals_collect hd ht htype hs (by rwa [hw])
      (show ([] ++ m).Perm _ from hm) hne hr.serves
      har hg ha fun a _ => Inner.awaits_first hr.reachable.spec.1 hr.isOpen
        hr.count hr.client hs a.now
    rwa [hw] at this

theorem clientIdFromAddr_toAddr (id : ClientID) : clientIdFromAddr (clientIdToAddr id) = id := rfl

theorem mem_types_of_pick (h : c.pick draws = .ok (d, t)) : t ∈ d.types := by
  unfold ClientState.pick at h
  dsimp only at h
  split at h
  · cases h
  split at h
  · cases h
  · next ht =>
    cases h
    exact mem_of_getElem? ht

/-- The queries of a packet, in any order and each before the fragments expire, make the server hand
up this packet and nothing else, from an address with the id of the client, provided that each query
finds room for its response. -/
theorem uplink_delivers (hpick : c.pick draws = .ok (d, t)) (hd : d.Accepted)
    (hresolvers : c.resolvers ≠ []) (hid : byteAt c.clientId.1 0 &&& 3 = 0) (hp : 1 ≤ p.length)
    (hlen : p.length ≤ min 4096 (255 * (d.cap - 15))) :
    ∃ c' queries bits, c.sendOnce draws p = .ok (c', queries) ∧ typeMap t = .ok bits ∧
      ∀ (s : ServerState) (arrivals : List Arrival),
        (arrivals.map Arrival.buf).Perm (queries.map Prod.fst) → arrivals.IsChain Gap →
        s.ReadyFor d (markId c.clientId bits) → s.Admits arrivals →
        ∃ s' addr, arrivals.foldlM arrive s = .ok s' ∧
          s'.read = s.read ++ [⟨p, addr⟩] ∧ clientIdFromAddr addr = markId c.clientId bits := by
  have ht := mem_types_of_pick hpick
  obtain ⟨bits, hbits⟩ : ∃ bits, typeMap t = .ok bits := by
    rcases hd.sound.types t ht with rfl | rfl | rfl | rfl <;> exact ⟨_, rfl⟩
  have hne : p ≠ [] := ne_nil_of_length_pos hp
  obtain ⟨hsize, hlen⟩ := Nat.le_min.mp hlen
  obtain ⟨c', queries, fragId, hsend, hqueries⟩ :=
    ClientState.sendOnce_ok hpick hbits hd.sound hresolvers hne hlen
  refine ⟨c', queries, bits, hsend, hbits, fun s arrivals hperm hgap hready hadmits => ?_⟩
  have htype : typeMap_ (byteAt (markId c.clientId bits).1 0 &&& 3) = t := typeMap_mark hbits hid
  obtain ⟨s', hrun, hread⟩ := arrivals_payloads hd.sound ht htype hne hsize hlen hqueries hperm hgap
    hready hadmits
  exact ⟨s', _, hrun, hread, clientIdFromAddr_toAddr _⟩

def narrow : Except DomainError Domain := Domain.new [116] 40 63 [TYPE_TXT] 0

def clientAt (d : Domain) : ClientState := ⟨noClient, [d], [localhost], [0], 0, 0⟩

theorem length_noFill : (replicate 3 (0 : UInt8)).length = 3 := rfl

def zeros : Draws :=
  ⟨0, 0, ⟨replicate 8 0, length_noClient⟩, ⟨replicate 3 0, length_noFill⟩, fun _ => 0⟩

def tenBytes : Bytes := [0, 1, 2, 3, 4, 5, 6, 7, 8, 9]

def arrivalOf (buf : Bytes) : Arrival := ⟨buf, localhost, 0, .asIs, 0⟩

theorem readyFor_serverAt (d : Domain) (id : ClientID) (recs : List Rec) :
    ({ serverAt d with recQueue := recs } : ServerState).ReadyFor d id := by
  refine ⟨fun name hunder => ?_, reachable_new, rfl,
    show Inner.new.m.keys.length < FRAG_COUNT by decide, fun k hk => ?_⟩
  · simp [serverAt, hunder]
  · simp [serverAt, Inner.new] at hk

/-- Two fragments, the second of which comes first. -/
theorem uplink_delivers_swapped : ∃ d c' q₀ q₁ s' addr, narrow = .ok d ∧
    (clientAt d).sendOnce zeros tenBytes = .ok (c', [q₀, q₁]) ∧
    [arrivalOf q₁.1, arrivalOf q₀.1].foldlM arrive (serverAt d) = .ok s' ∧
    s'.read = [⟨tenBytes, addr⟩] ∧ clientIdFromAddr addr = markId noClient 2 := by
  have hcheck : (narrow.toOption.any fun d =>
      decide ((clientAt d).pick zeros = .ok (d, TYPE_TXT)) && decide (d.cap = 21) &&
      ((clientAt d).sendOnce zeros tenBytes).toOption.any fun r => decide (r.2.length = 2) &&
        r.2[1]?.any fun q₁ => ((serverAt d).arrive (arrivalOf q₁.1)).toOption.any fun s =>
          s.recOpen && decide (s.recQueue.length < REC_QUEUE_CAP)) = true := by decide +kernel
  obtain ⟨d, hd, hcheck⟩ := (Option.any_eq_true _ _).mp hcheck
  obtain ⟨hfirst, hcheck⟩ := Bool.and_eq_true_iff.mp hcheck
  obtain ⟨hpick, hcap⟩ := Bool.and_eq_true_iff.mp hfirst
  obtain ⟨r, hr, hcheck⟩ := (Option.any_eq_true _ _).mp hcheck
  replace hd := toOption_eq_some.mp hd
  replace hcap := of_decide_eq_true hcap
  obtain ⟨c', queries, bits, hsend, hbits, hdeliver⟩ := uplink_delivers (p := tenBytes)
    (of_decide_eq_true hpick) ⟨_, _, _, _, _, hd⟩ (by simp [clientAt])
    (show byteAt noClient.1 0 &&& 3 = 0 by decide) (by decide)
    (by rw [hcap]; decide)
  obtain rfl := Except.ok.inj hbits
  obtain rfl := Except.ok.inj (hsend.symm.trans (toOption_eq_some.mp hr))
  obtain ⟨htwo, hcheck⟩ := Bool.and_eq_true_iff.mp hcheck
  obtain ⟨q₀, q₁, rfl⟩ := length_eq_two.mp (of_decide_eq_true htwo)
  obtain ⟨q, hq, hcheck⟩ := (Option.any_eq_true _ _).mp hcheck
  obtain rfl : q₁ = q := Option.some.inj hq
  obtain ⟨s₁, hs₁, hroom⟩ := (Option.any_eq_true _ _).mp hcheck
  obtain ⟨hopen, hroom⟩ := Bool.and_eq_true_iff.mp hroom
  have hadmits : (serverAt d).Admits [arrivalOf q₁.1, arrivalOf q₀.1] := by
    refine ⟨⟨rfl, show 0 < REC_QUEUE_CAP by decide⟩, fun s' hs' => ?_⟩
    obtain rfl := Except.ok.inj (hs'.symm.trans (toOption_eq_some.mp hs₁))
    exact ⟨⟨hopen, of_decide_eq_true hroom⟩, fun _ _ => trivial⟩
  obtain ⟨s', addr, hrun, hread, haddr⟩ := hdeliver (serverAt d)
    [arrivalOf q₁.1, arrivalOf q₀.1] (.swap q₀.1 q₁.1 [])
    (by simp [Gap, arrivalOf, FRAG_TTL]) (readyFor_serverAt d _ []) hadmits
  exact ⟨d, c', q₀, q₁, s', addr, hd, hsend, hrun, hread, haddr⟩

def busy (d : Domain) : ServerState :=
  let waiting : Rec := ⟨⟨⟨0, 0, [], [], [], []⟩, d, 0, 0⟩, noClient, localhost⟩
  { serverAt d with recQueue := replicate REC_QUEUE_CAP waiting }

/-- It loses the packet. -/
theorem busy_server_drops : ∃ d c' queries s', narrow = .ok d ∧
    (clientAt d).sendOnce zeros [1] = .ok (c', queries) ∧ (busy d).ReadyFor d (markId noClient 2) ∧
    (queries.map fun q => arrivalOf q.1).foldlM arrive (busy d) = .ok s' ∧ s'.read = [] := by
  have hcheck : (narrow.toOption.any fun d =>
      ((clientAt d).sendOnce zeros [1]).toOption.any fun r =>
        ((r.2.map fun q => arrivalOf q.1).foldlM arrive (busy d)).toOption.any
          fun s => decide (s.read = [])) = true := by decide +kernel
  obtain ⟨d, hd, hcheck⟩ := (Option.any_eq_true _ _).mp hcheck
  obtain ⟨r, hr, hcheck⟩ := (Option.any_eq_true _ _).mp hcheck
  obtain ⟨s', hs', hread⟩ := (Option.any_eq_true _ _).mp hcheck
  exact ⟨d, r.1, r.2, s', toOption_eq_some.mp hd, toOption_eq_some.mp hr, readyFor_serverAt d _ _,
    toOption_eq_some.mp hs', of_decide_eq_true hread⟩

end

end XrayCore.Xdns
