import XrayCore.Tuic.Fragments

/-!
# What a UDP association receives

All associations of a connection read from its one queue of datagrams, and each collects fragments
with an assembler of its own. `send_recv_native` does not compare association ids, nor does the
assembler: an association returns what it reads, whoever it is for.
-/

namespace XrayCore.Tuic

open Lib List

def VERSION : UInt8 := 0x05

def PACKET : UInt8 := 0x02

def parseHeader (b : Bytes) : Except TuicError (UInt8 × Bytes) :=
  if b.length < 2 then .error (.unexpectedEof "ver+type")
  else if byteAt b 0 ≠ VERSION then .error (.invalidVersion (byteAt b 0))
  else .ok (byteAt b 1, b.drop 2)

def encodeFrame (pkt : Packet) : Bytes := VERSION :: PACKET :: pkt.writePayload

def readPacket (resp : Bytes) : Except TuicError Packet := do
  let (typeByte, cursor) ← parseHeader resp
  if typeByte ≠ PACKET then .error (.unknownCommandType typeByte)
  else return (← Packet.readPayload cursor).1

/-- The receive loop of `send_recv_native`: what is left of the queue and what the call returns.
With nothing left it waits until the time is over. -/
def recvNative (a : FragmentAssembler) :
    List Bytes → FragmentAssembler × List Bytes × Option (Except TuicError Bytes)
  | [] => (a, [], none)
  | resp :: queue =>
    match readPacket resp >>= a.feed with
    | .error e => (a, queue, some (.error e))
    | .ok (a, some full) => (a, queue, some (.ok full.data))
    | .ok (a, none) => recvNative a queue

/-- What the calls of an association return one after the other: after a packet or an error the
next call goes on behind it. -/
def returned (a : FragmentAssembler) : List Bytes → List Bytes
  | [] => []
  | resp :: queue =>
    match readPacket resp >>= a.feed with
    | .error _ => returned a queue
    | .ok (a, some full) => full.data :: returned a queue
    | .ok (a, none) => returned a queue

theorem returned_recvNative (a : FragmentAssembler) (queue : List Bytes) : returned a queue =
    ((recvNative a queue).2.2.bind Except.toOption).toList ++
      returned (recvNative a queue).1 (recvNative a queue).2.1 := by
  induction queue generalizing a with
  | nil => rfl
  | cons resp queue ih =>
    rw [returned, recvNative]
    split
    · rfl
    · rfl
    · exact ih _

/-- The assembler with the packets in its slots, instead of their data only. -/
structure Tagged where
  pktId : UInt16
  sources : List (Option Packet)
  received : UInt8
  firstAddr : Option Address
  assocId : UInt16

namespace Tagged

def new : Tagged := ⟨0, [], 0, none, 0⟩

def erase (t : Tagged) : FragmentAssembler :=
  ⟨t.pktId, t.sources.map (·.map Packet.data), t.received, t.firstAddr, t.assocId⟩

def opened (t : Tagged) (pkt : Packet) : Tagged :=
  if pkt.pktId ≠ t.pktId ∨ t.sources.length ≠ pkt.fragTotal.toNat then
    { t with
      pktId := pkt.pktId, sources := List.replicate pkt.fragTotal.toNat none, received := 0,
      firstAddr := none }
  else t

def store (t : Tagged) (pkt : Packet) : Tagged :=
  if t.sources[pkt.fragId.toNat]? = some none then
    { t with
      firstAddr := if pkt.fragId = 0 then some pkt.addr else t.firstAddr
      sources := t.sources.set pkt.fragId.toNat (some pkt)
      received := satSucc t.received }
  else t

def feed (t : Tagged) (pkt : Packet) : Except TuicError (Tagged × Option (List Packet)) :=
  if pkt.fragTotal ≤ 1 then .ok (t, some [pkt])
  else if pkt.fragTotal = 0 ∨ pkt.fragTotal ≤ pkt.fragId then
    .error (.unsupportedFragment pkt.fragTotal pkt.fragId)
  else
    let t := store { t.opened pkt with assocId := pkt.assocId } pkt
    if t.received = pkt.fragTotal then
      .ok ({ t with sources := [], received := 0, firstAddr := none }, some t.sources.reduceOption)
    else .ok (t, none)

def returned (t : Tagged) : List Bytes → List (List Packet)
  | [] => []
  | resp :: queue =>
    match readPacket resp >>= t.feed with
    | .error _ => returned t queue
    | .ok (t, some sources) => sources :: returned t queue
    | .ok (t, none) => returned t queue

variable {t t' : Tagged} {pkt : Packet} {out : Option (List Packet)}

theorem erase_opened (t : Tagged) (pkt : Packet) : (t.opened pkt).erase = t.erase.opened pkt := by
  rw [opened, FragmentAssembler.opened]
  simp only [erase, length_map]
  split
  · simp
  · rfl

theorem getElem?_sources_eq_none_iff {sources : List (Option Packet)} {i : Nat} :
    (sources.map (·.map Packet.data))[i]? = some none ↔ sources[i]? = some none := by
  rw [List.getElem?_map]
  cases sources[i]? with
  | none => simp
  | some o => cases o <;> simp

theorem erase_store (t : Tagged) (pkt : Packet) : (t.store pkt).erase = t.erase.store pkt := by
  rw [store, FragmentAssembler.store]
  simp only [erase, getElem?_sources_eq_none_iff]
  split
  · simp
  · rfl

theorem feed_erase (t : Tagged) (pkt : Packet) :
    (t.erase.feed pkt).map (fun r => (r.1, r.2.map Packet.data)) =
      (t.feed pkt).map (fun r => (r.1.erase, r.2.map fun s => (s.map Packet.data).flatten)) := by
  have hs : FragmentAssembler.store { t.erase.opened pkt with assocId := pkt.assocId } pkt =
      (store { t.opened pkt with assocId := pkt.assocId } pkt).erase := by
    rw [erase_store, ← erase_opened]
    rfl
  rw [feed, FragmentAssembler.feed]
  split
  · simp [Except.map]
  split
  · rfl
  simp only [hs]
  generalize store { t.opened pkt with assocId := pkt.assocId } pkt = s
  have hr : s.erase.received = s.received := rfl
  rw [hr]
  split
  · simp [Except.map, erase, FragmentAssembler.completed]
  · rfl

theorem returned_erase (t : Tagged) (queue : List Bytes) :
    Tuic.returned t.erase queue = (t.returned queue).map fun s => (s.map Packet.data).flatten := by
  induction queue generalizing t with
  | nil => rfl
  | cons resp queue ih =>
    rw [returned, Tuic.returned]
    cases readPacket resp with
    | error e => exact ih t
    | ok pkt =>
      have he := feed_erase t pkt
      rw [ok_bind, ok_bind]
      cases ht : t.feed pkt with
      | error e =>
        cases hf : t.erase.feed pkt with
        | error e => exact ih t
        | ok r =>
          rw [hf, ht] at he
          cases he
      | ok r =>
        obtain ⟨t', out⟩ := r
        cases hf : t.erase.feed pkt with
        | error e =>
          rw [hf, ht] at he
          cases he
        | ok r =>
          obtain ⟨a, full⟩ := r
          rw [hf, ht] at he
          obtain ⟨ha, ho⟩ := Prod.mk.inj (Except.ok.inj he)
          subst ha
          cases out with
          | none =>
            cases full with
            | none => exact ih t'
            | some full => cases ho
          | some s =>
            cases full with
            | none => cases ho
            | some full =>
              have hdata := Option.some.inj ho
              simp [hdata, ih t']

theorem length_opened (t : Tagged) (pkt : Packet) :
    (t.opened pkt).sources.length = pkt.fragTotal.toNat := by
  rw [opened]
  split
  · exact length_replicate
  · rename_i h
    rw [not_or, not_not, not_not] at h
    exact h.2

theorem mem_sources_opened (h : some p ∈ (t.opened pkt).sources) : some p ∈ t.sources := by
  rw [opened] at h
  split at h
  · cases eq_of_mem_replicate h
  · exact h

theorem mem_sources_store (h : some p ∈ (t.store pkt).sources) : p = pkt ∨ some p ∈ t.sources := by
  rw [store] at h
  split at h
  · obtain hm | heq := mem_or_eq_of_mem_set h
    · exact .inr hm
    · exact .inl (Option.some.inj heq)
  · exact .inr h

theorem store_filled (h : pkt.fragId.toNat < t.sources.length) :
    ∃ p, some p ∈ (t.store pkt).sources := by
  rw [store]
  split
  · exact ⟨pkt, mem_set h _⟩
  rename_i hs
  rw [List.getElem?_eq_getElem h, Option.some.injEq] at hs
  obtain ⟨p, hp⟩ := Option.ne_none_iff_exists'.mp hs
  exact ⟨p, hp ▸ getElem_mem h⟩

theorem feed_sources (h : t.feed pkt = .ok (t', out)) :
    (∀ p, some p ∈ t'.sources → p = pkt ∨ some p ∈ t.sources) ∧
      ∀ s, out = some s → s ≠ [] ∧ ∀ p ∈ s, p = pkt ∨ some p ∈ t.sources := by
  rw [feed] at h
  split at h
  · cases h
    refine ⟨fun p hp => .inr hp, ?_⟩
    rintro _ ⟨⟩
    exact ⟨cons_ne_nil _ _, fun p hp => .inl (mem_singleton.mp hp)⟩
  · split at h
    · cases h
    rename_i hr
    have hf : pkt.fragId.toNat < (t.opened pkt).sources.length := by
      rw [length_opened]
      exact not_le.mp fun hle => hr (.inr (UInt8.le_iff_toNat_le.mpr hle))
    have hs (p : Packet)
        (hp : some p ∈ (store { t.opened pkt with assocId := pkt.assocId } pkt).sources) :
        p = pkt ∨ some p ∈ t.sources :=
      (mem_sources_store hp).imp_right mem_sources_opened
    obtain ⟨p, hp⟩ : ∃ p, some p ∈
        (store { t.opened pkt with assocId := pkt.assocId } pkt).sources :=
      store_filled hf
    dsimp only at h
    split at h
    · cases h
      refine ⟨fun p hp => absurd hp not_mem_nil, ?_⟩
      rintro _ ⟨⟩
      refine ⟨ne_nil_of_mem (reduceOption_mem_iff.mpr hp), fun p hp => ?_⟩
      exact hs p (reduceOption_mem_iff.mp hp)
    · cases h
      refine ⟨hs, ?_⟩
      rintro s ⟨⟩

theorem returned_sources {P : Packet → Prop} (queue : List Bytes) (t : Tagged)
    (hh : ∀ p, some p ∈ t.sources → P p)
    (hq : ∀ resp ∈ queue, ∀ pkt, readPacket resp = .ok pkt → P pkt) :
    ∀ s ∈ t.returned queue, s ≠ [] ∧ ∀ p ∈ s, P p := by
  induction queue generalizing t with
  | nil => exact fun s hs => absurd hs not_mem_nil
  | cons resp queue ih =>
    have hrest : ∀ resp ∈ queue, ∀ pkt, readPacket resp = .ok pkt → P pkt :=
      (forall_mem_cons.mp hq).2
    rw [returned]
    cases hre : readPacket resp with
    | error e => exact ih t hh hrest
    | ok pkt =>
      have hpk := hq resp mem_cons_self pkt hre
      rw [ok_bind]
      cases hf : t.feed pkt with
      | error e => exact ih t hh hrest
      | ok r =>
        obtain ⟨t', out⟩ := r
        obtain ⟨hk, ho⟩ := feed_sources hf
        have hof {p : Packet} (h : p = pkt ∨ some p ∈ t.sources) : P p := by
          rcases h with rfl | h
          · exact hpk
          · exact hh p h
        have ih' := ih t' (fun p hp => hof (hk p hp)) hrest
        cases out with
        | none => exact ih'
        | some s =>
          intro s' hs'
          rcases mem_cons.mp hs' with rfl | hs'
          · exact ⟨(ho s' rfl).1, fun p hp => hof ((ho s' rfl).2 p hp)⟩
          · exact ih' s' hs'

end Tagged

def Sent (origins : List Origin) (resp : Bytes) : Prop :=
  ∃ o ∈ origins, ∃ i < o.pieces.length, resp = encodeFrame (o.fragment i)

/-- In whatever order datagrams of the packets arrive, with losses and duplicates, what the
association returns is made of packets with its own id, and not of packets with different
ids. -/
def Isolated (own : UInt16) (origins : List Origin) : Prop :=
  ∀ queue, (∀ resp ∈ queue, Sent origins resp) → ∀ sources ∈ Tagged.new.returned queue,
    (∀ p ∈ sources, p.assocId = own) ∧ ∀ p ∈ sources, ∀ q ∈ sources, p.assocId = q.assocId

theorem readPacket_fragment (o : Origin) (hi : i < o.pieces.length) :
    readPacket (encodeFrame (o.fragment i)) = .ok (o.fragment i) := by
  have hh : parseHeader (encodeFrame (o.fragment i)) =
      .ok (PACKET, (o.fragment i).writePayload) := by
    simp [parseHeader, encodeFrame, byteAt]
  rw [readPacket, hh, ok_bind]
  simp only [ne_eq, not_true_eq_false, if_false, o.readPayload_fragment hi]
  rfl

theorem returned_of_outputs (hr : ∀ pkt ∈ arrs, readPacket (encodeFrame pkt) = .ok pkt)
    (h : a.outputs arrs = .ok outs) : returned a (arrs.map encodeFrame) = outs.map Packet.data := by
  induction arrs generalizing a outs with
  | nil =>
    cases h
    rfl
  | cons pkt arrs ih =>
    obtain ⟨r, hf, hrest⟩ := bind_ok.mp h
    obtain ⟨a', out⟩ := r
    obtain ⟨outs', ho, heq⟩ := bind_ok.mp hrest
    cases heq
    have ih' := ih (forall_mem_cons.mp hr).2 ho
    rw [map_cons, returned, hr pkt mem_cons_self, ok_bind, hf, map_append, ← ih']
    cases out with
    | none | some full => rfl

theorem returned_fragments_ne_nil (o : Origin) :
    Tagged.new.returned (o.fragments.map encodeFrame) ≠ [] := by
  have ho : FragmentAssembler.new.outputs o.fragments = .ok [o.whole] :=
    Origin.outputs_completing (completing_range o.length_pos) rfl
  have hre : ∀ pkt ∈ o.fragments, readPacket (encodeFrame pkt) = .ok pkt := by
    intro pkt hp
    obtain ⟨i, hi, rfl⟩ := mem_map.mp hp
    exact readPacket_fragment o (mem_range.mp hi)
  have hr := Tagged.new.returned_erase (o.fragments.map encodeFrame)
  have hnew : Tagged.new.erase = .new := rfl
  rw [hnew, returned_of_outputs hre ho] at hr
  intro hn
  rw [hn] at hr
  cases hr

theorem sent_fragments (ho : o ∈ origins) :
    ∀ resp ∈ o.fragments.map encodeFrame, Sent origins resp := by
  intro resp hr
  obtain ⟨pkt, hp, rfl⟩ := mem_map.mp hr
  obtain ⟨i, hi, rfl⟩ := mem_map.mp hp
  exact ⟨o, ho, i, mem_range.mp hi, rfl⟩

theorem returned_assocId {origins : List Origin} {id : UInt16}
    (h : ∀ o ∈ origins, o.assocId = id) {queue : List Bytes}
    (hq : ∀ resp ∈ queue, Sent origins resp) :
    ∀ s ∈ Tagged.new.returned queue, s ≠ [] ∧ ∀ p ∈ s, p.assocId = id := by
  refine Tagged.returned_sources queue .new (fun p hp => absurd hp not_mem_nil) ?_
  intro resp hre pkt hr
  obtain ⟨o, ho, i, hi, rfl⟩ := hq resp hre
  rw [readPacket_fragment o hi] at hr
  cases hr
  exact h o ho

/-- Only if all packets that come in on the connection are its own. -/
theorem association_isolated_iff (own : UInt16) (origins : List Origin) :
    Isolated own origins ↔ ∀ o ∈ origins, o.assocId = own := by
  constructor
  · intro h o ho
    obtain ⟨sources, hsources⟩ := exists_mem_of_ne_nil _ (returned_fragments_ne_nil o)
    have hsingle : ∀ o' ∈ [o], o'.assocId = o.assocId := by simp
    obtain ⟨hne, hof⟩ := returned_assocId hsingle (sent_fragments (mem_singleton_self o))
      sources hsources
    obtain ⟨p, hp⟩ := exists_mem_of_ne_nil _ hne
    rw [← hof p hp]
    exact (h _ (sent_fragments ho) sources hsources).1 p hp
  · intro h queue hqueue sources hsources
    obtain ⟨-, hown⟩ := returned_assocId h hqueue sources hsources
    refine ⟨hown, fun p hp q hq => ?_⟩
    rw [hown p hp, hown q hq]

/-- The datagram of another association is returned as it is, and fragments of two associations
with the same packet id are joined. -/
theorem other_association_returned :
    returned .new [encodeFrame ⟨2, 5, 1, 0, localTarget, [9]⟩] = [[9]] ∧
      returned .new [encodeFrame ⟨1, 5, 2, 0, localTarget, [1]⟩,
        encodeFrame ⟨2, 5, 2, 1, .none, [2]⟩] = [[1, 2]] := by
  decide +kernel

end XrayCore.Tuic
