import XrayCore.Xdns.FragBudgets
import XrayCore.Xdns.Server

/-!
# What the server makes of a datagram

A datagram is a query for a domain of the server, or it is answered at once or dropped. The data
of a query is of one of the three forms, or it is answered at once too, as it is when there is no
room for one more response.

The form of the data is checked once for all forms: a packet needs 13 bytes, and so does a
fragment, of which 15 are then read. A fragment of 13 or 14 bytes is the only datagram on which
`server_read` panics, provided that the query is otherwise one that the server takes.
-/

namespace XrayCore.Xdns

open Lib List
open Net (SocketAddr)

variable {s : ServerState} {it : Iteration FragKey} {now : Instant} {buf decoded : Bytes}
  {addr : SocketAddr} {clientId : ClientID} {msg : Message} {q : Question} {edns0 : UInt16}
  {d : Domain}

theorem index_byteAt (h : i < b.length) :
    Checked.index b i = .ok (byteAt b i) := Domain.index_getD h 0

theorem findM?_ok {α : Type} {p : α → Checked Bool} {f : α → Bool} {xs : List α}
    (h : ∀ x ∈ xs, p x = .ok (f x)) : xs.findM? p = .ok (xs.find? f) := by
  induction xs with
  | nil => rfl
  | cons x xs ih =>
    obtain ⟨hx, hxs⟩ := forall_mem_cons.mp h
    rw [List.findM?, hx, ok_bind, List.find?_cons]
    cases f x with
    | true => rfl
    | false => exact ih hxs

theorem findM?_isDomain (ds : List Domain) (name : Name) :
    (ds.findM? fun d => d.isDomain name) = .ok (ds.find? (·.under name)) :=
  findM?_ok fun d _ => Domain.isDomain_eq d name

structure Query (s : ServerState) (buf : Bytes) (msg : Message) (q : Question) (edns0 : UInt16)
    (d : Domain) : Prop where
  reads : messageFromWireFormat buf = .ok msg
  flags : msg.flags &&& 0x8000 = 0
  opcode : msg.opcode = 0
  question : msg.question = [q]
  opt : optLoop msg none msg.additional = .ok edns0
  domain : s.domains.find? (·.under q.name) = some d
  hasType : d.hasType q.qtype = true

theorem Query.serverRead (h : Query s buf msg q edns0 d) :
    s.serverRead it now buf addr = s.serveQuery it now msg addr edns0 q d := by
  have ho : ¬ msg.question.length ≠ 1 := by simp [h.question]
  rw [ServerState.serverRead, h.reads]
  dsimp only
  rw [if_neg (not_not.mpr h.flags), if_neg (not_not.mpr h.opcode), if_neg ho, h.opt]
  dsimp only
  rw [h.question, Checked.index_of_some rfl, ok_bind, findM?_isDomain, ok_bind, h.domain]
  exact if_pos h.hasType

theorem serverRead_other (h : ¬ ∃ msg q edns0 d, Query s buf msg q edns0 d) :
    ∃ s', s.serverRead it now buf addr = .ok s' := by
  unfold ServerState.serverRead
  cases hr : messageFromWireFormat buf with
  | error e => exact ⟨s, rfl⟩
  | ok msg =>
    dsimp only
    split
    · exact ⟨s, rfl⟩
    next hf =>
    split
    · exact ⟨_, rfl⟩
    next ho =>
    split
    · exact ⟨_, rfl⟩
    next hon =>
    obtain ⟨q, hq⟩ := length_eq_one_iff.mp (not_not.mp hon)
    cases hop : optLoop msg none msg.additional with
    | error m => exact ⟨_, rfl⟩
    | ok edns0 =>
      dsimp only
      rw [hq, Checked.index_of_some rfl, ok_bind, findM?_isDomain, ok_bind]
      cases hfi : s.domains.find? (·.under q.name) with
      | none => exact ⟨_, rfl⟩
      | some d =>
        dsimp only
        split
        · next htype =>
          exact absurd ⟨msg, q, edns0, d, hr, not_not.mp hf, not_not.mp ho, hq, hop, hfi, htype⟩ h
        · exact ⟨_, rfl⟩

def Formed (qtype : UInt16) (decoded : Bytes) : Prop :=
  typeMap_ (byteAt decoded 0 &&& 3) = qtype ∧ (byteAt decoded 8 &&& 0x3f = 3 ∧ 13 ≤ decoded.length ∨
      byteAt decoded 8 &&& 0x3f = 8 ∧ decoded.length = 17)

theorem Formed.length (h : Formed qtype decoded) : 13 ≤ decoded.length := by
  rcases h.2 with ⟨-, h⟩ | ⟨-, h⟩ <;> omega

theorem wellFormed_ok (qtype : UInt16) (h : 9 ≤ decoded.length) : ∃ b,
    ServerState.wellFormed qtype decoded = .ok b ∧ (b = true ↔ Formed qtype decoded) := by
  rw [ServerState.wellFormed, index_byteAt (by omega), ok_bind, index_byteAt (by omega), ok_bind]
  refine ⟨_, rfl, ?_⟩
  unfold Formed
  generalize byteAt decoded 8 &&& 0x3f = flag8
  have h38 : (3 : UInt8) ≠ 8 := by decide
  simp only [decide_eq_true_eq, not_or, not_and, not_not, ne_eq, not_lt]
  constructor
  · rintro ⟨htype, hf, hl3, hl8⟩
    by_cases h3 : flag8 = 3
    · exact ⟨htype, .inl ⟨h3, hl3 h3⟩⟩
    · exact ⟨htype, .inr ⟨hf h3, hl8 (hf h3)⟩⟩
  · rintro ⟨htype, ⟨rfl, hl⟩ | ⟨rfl, hl⟩⟩
    · exact ⟨htype, fun hne => absurd rfl hne, fun _ => hl, fun heq => absurd heq h38⟩
    · exact ⟨htype, fun _ => rfl, fun heq => absurd heq.symm h38, fun _ => hl⟩

def ServerState.HasRoom (s : ServerState) : Prop :=
  s.recOpen = true ∧ s.recQueue.length < REC_QUEUE_CAP

theorem trySend_of_room (h : s.HasRoom) (r : Rec) :
    s.trySend r = some { s with recQueue := s.recQueue ++ [r] } := if_pos h

theorem trySend_of_full (h : ¬ s.HasRoom) (r : Rec) : s.trySend r = none := if_neg h

theorem length_take_eight (h : 13 ≤ decoded.length) : (decoded.take 8).length = 8 := by
  rw [length_take]
  omega

theorem Query.serveQuery_taken (h : Query s buf msg q edns0 d) (hd : d.Sound) (hroom : s.HasRoom)
    (hf : Formed q.qtype (d.payload q.name)) (it : Iteration FragKey) (now : Instant)
    (addr : SocketAddr) : ∃ r, s.serveQuery it now msg addr edns0 q d =
      ({ s with recQueue := s.recQueue ++ [r] } : ServerState).deliver it now
        ⟨(d.payload q.name).take 8, length_take_eight hf.length⟩ (d.payload q.name) := by
  have hl := hf.length
  obtain ⟨b, hb, hi⟩ := wellFormed_ok q.qtype (show 9 ≤ (d.payload q.name).length by omega)
  rw [ServerState.serveQuery, Domain.decode_eq, ok_bind, if_neg (by omega), hb, ok_bind,
    if_pos (hi.mpr hf), Checked.slice_of_le (Nat.zero_le _) (by omega), ok_bind,
    drop_zero, toClientId, dif_pos (length_take_eight hl), Checked.expect_some, ok_bind,
    Resp.new_eq hd h.flags h.question, ok_bind, trySend_of_room hroom]
  exact ⟨_, rfl⟩

theorem Query.serveQuery_other (h : Query s buf msg q edns0 d) (hd : d.Sound)
    (hn : ¬ (s.HasRoom ∧ Formed q.qtype (d.payload q.name))) :
    ∃ s', s.serveQuery it now msg addr edns0 q d = .ok s' := by
  rw [ServerState.serveQuery, Domain.decode_eq, ok_bind]
  split
  · exact ⟨_, rfl⟩
  next h9 =>
  obtain ⟨b, hb, hi⟩ := wellFormed_ok q.qtype (not_lt.mp h9)
  rw [hb, ok_bind]
  cases b with
  | false => exact ⟨_, rfl⟩
  | true =>
    have hl := (hi.mp rfl).length
    have hf : ¬ s.HasRoom := fun hroom => hn ⟨hroom, hi.mp rfl⟩
    rw [if_pos rfl, Checked.slice_of_le (Nat.zero_le _) (by omega), ok_bind, drop_zero,
      toClientId, dif_pos (length_take_eight hl), Checked.expect_some, ok_bind,
      Resp.new_eq hd h.flags h.question, ok_bind, trySend_of_full hf]
    exact ⟨_, rfl⟩

variable {qtype : UInt16}

theorem fragment_marker (b : UInt8) : b &&& 0x3f = 3 ∧ b &&& 0xc0 = 0xc0 ↔ b = 0xc3 := by
  have hall : ∀ n < 256, (UInt8.ofNat n &&& 0x3f = 3 ∧ UInt8.ofNat n &&& 0xc0 = 0xc0 ↔
      UInt8.ofNat n = 0xc3) := by decide +kernel
  have hb := hall b.toNat b.toNat_lt
  rwa [UInt8.ofNat_toNat] at hb

theorem deliver_ok_iff (hfr : s.frag.Reachable) (hf : Formed qtype decoded) :
    (∃ s', s.deliver it now clientId decoded = .ok s') ↔
      ¬ (byteAt decoded 8 = 0xc3 ∧ decoded.length < 15) := by
  have hl := hf.length
  rw [ServerState.deliver, index_byteAt (by omega), ok_bind, ← fragment_marker]
  rcases hf.2 with ⟨h3, -⟩ | ⟨h8, -⟩
  · have hne : ¬ byteAt decoded 8 &&& 0x3f = 8 := by
      rw [h3]
      decide
    rw [if_neg hne]
    by_cases hc0 : byteAt decoded 8 &&& 0xc0 = 0xc0
    · rw [if_pos hc0, index_byteAt (by omega), ok_bind]
      by_cases h15 : decoded.length < 15
      · refine iff_of_false ?_ (fun hn => hn ⟨⟨h3, hc0⟩, h15⟩)
        rintro ⟨s', hok⟩
        obtain ⟨_, -, hok⟩ := bind_ok.mp hok
        obtain ⟨_, h14, -⟩ := bind_ok.mp hok
        rw [Checked.index, List.getElem?_eq_none (by omega)] at h14
        exact absurd h14 (by simp)
      · rw [index_byteAt (by omega), ok_bind, index_byteAt (by omega), ok_bind,
          Checked.slice_of_le (by omega) le_rfl, ok_bind]
        obtain ⟨g', out, hfe⟩ := hfr.feed_ok it now ⟨clientId, byteAt decoded 12⟩
          (byteAt decoded 13) (byteAt decoded 14)
          ((decoded.take decoded.length).drop 15)
        rw [hfe, ok_bind]
        refine iff_of_true ?_ fun hs => h15 hs.2
        dsimp only
        split <;> exact ⟨_, rfl⟩
    · rw [if_neg hc0, Checked.slice_of_le (by omega) le_rfl, ok_bind]
      exact iff_of_true ⟨_, rfl⟩ fun hs => hc0 hs.1.2
  · rw [if_pos h8]
    refine iff_of_true ⟨_, rfl⟩ fun hs => ?_
    rw [h8] at hs
    exact absurd hs.1.1 (by decide)

/-- A query that the server takes and whose data is a fragment cut off within its header. -/
def ShortFragment (s : ServerState) (buf : Bytes) : Prop :=
  ∃ msg q edns0 d, Query s buf msg q edns0 d ∧ s.HasRoom ∧ Formed q.qtype (d.payload q.name) ∧
    byteAt (d.payload q.name) 8 = 0xc3 ∧ (d.payload q.name).length < 15

theorem Query.shortFragment_iff (h : Query s buf msg q edns0 d) :
    ShortFragment s buf ↔ s.HasRoom ∧ Formed q.qtype (d.payload q.name) ∧
      byteAt (d.payload q.name) 8 = 0xc3 ∧ (d.payload q.name).length < 15 := by
  constructor
  · rintro ⟨msg', q', e', d', h', hs⟩
    obtain rfl := Except.ok.inj (h.reads.symm.trans h'.reads)
    obtain rfl := List.singleton_inj.mp (h.question.symm.trans h'.question)
    obtain rfl := Option.some.inj (h.domain.symm.trans h'.domain)
    exact hs
  · intro hs
    exact ⟨msg, q, edns0, d, h, hs⟩

/-- The server survives a datagram exactly if it is not such a query. -/
theorem serverRead_survives_iff (s : ServerState) (hdomains : ∀ d ∈ s.domains, d.Accepted)
    (hfrag : s.frag.Reachable) (it : Iteration FragKey) (now : Instant) (buf : Bytes)
    (addr : SocketAddr) :
    (∃ s', s.serverRead it now buf addr = .ok s') ↔ ¬ ShortFragment s buf := by
  by_cases hquery : ∃ msg q edns0 d, Query s buf msg q edns0 d
  · obtain ⟨msg, q, edns0, d, h⟩ := hquery
    have hd := (hdomains d (List.mem_of_find?_eq_some h.domain)).sound
    rw [h.serverRead, h.shortFragment_iff]
    by_cases htaken : s.HasRoom ∧ Formed q.qtype (d.payload q.name)
    · obtain ⟨r, hr⟩ := h.serveQuery_taken hd htaken.1 htaken.2 it now addr
      rw [hr, deliver_ok_iff (by exact hfrag) htaken.2]
      exact not_congr ⟨fun hshort => ⟨htaken.1, htaken.2, hshort⟩, fun hshort => hshort.2.2⟩
    · refine iff_of_true (h.serveQuery_other hd htaken) fun hshort => ?_
      exact htaken ⟨hshort.1, hshort.2.1⟩
  · refine iff_of_true (serverRead_other hquery) ?_
    rintro ⟨msg, q, edns0, d, h, -⟩
    exact hquery ⟨msg, q, edns0, d, h⟩

def tunnel : Except DomainError Domain := Domain.new [116] 255 63 [TYPE_TXT] 0

def serverAt (d : Domain) : ServerState := ⟨[d], Inner.new, [], true, [], []⟩

theorem reachable_new : Inner.new.Reachable := ⟨[], _, rfl, rfl⟩

theorem tunnel_accepted (h : tunnel = .ok d) : d.Accepted := ⟨_, _, _, _, _, h⟩

def localhost : SocketAddr := .v4 (Net.Ipv4Addr.new 127 0 0 1) 53

theorem serverRead_survives_nothing : ∃ d, tunnel = .ok d ∧
    ((∃ s', (serverAt d).serverRead .asIs 0 [] localhost = .ok s') ↔
      ¬ ShortFragment (serverAt d) []) := by
  obtain ⟨d, hd⟩ : ∃ d, tunnel = .ok d := ⟨_, rfl⟩
  refine ⟨d, hd, serverRead_survives_iff (serverAt d) ?_ reachable_new .asIs 0 [] localhost⟩
  intro d' hd'
  rw [List.mem_singleton.mp hd']
  exact tunnel_accepted hd

def queryFor (d : Domain) (data : Bytes) : Except DnsError Bytes := do
  let name ← d.encode data
  Message.wireFormat
    { id := 1, flags := 0x0100, question := [⟨name, TYPE_TXT, CLASS_IN⟩]
      answer := [], authority := [], additional := [] }

def shortFragment : Bytes := [2, 0, 0, 0, 0, 0, 0, 0, 0xc3, 0, 0, 0, 1]

def isIndexPanic : Checked ServerState → Bool
  | .error .index => true
  | _ => false

theorem short_fragment_panics : ∃ d buf, tunnel = .ok d ∧ queryFor d shortFragment = .ok buf ∧
    (serverAt d).serverRead .asIs 0 buf localhost = .error .index := by
  have hrun : (tunnel.toOption.any fun d => (queryFor d shortFragment).toOption.any fun buf =>
      isIndexPanic ((serverAt d).serverRead .asIs 0 buf localhost)) = true := by decide +kernel
  obtain ⟨d, hd, hrun⟩ := (Option.any_eq_true _ _).mp hrun
  obtain ⟨buf, hbuf, hrun⟩ := (Option.any_eq_true _ _).mp hrun
  refine ⟨d, buf, toOption_eq_some.mp hd, toOption_eq_some.mp hbuf, ?_⟩
  unfold isIndexPanic at hrun
  split at hrun
  · assumption
  · cases hrun

end XrayCore.Xdns
