import XrayCore.Kcp.Codec
import XrayCore.Kcp.SendingLaws
import XrayCore.Kcp.ReceivingLaws

/-!
# A sender, a receiver and the network between them

One direction of a connection: a sending worker at one end, a receiving worker at the other. The
network keeps every segment ever sent and delivers any of them at any time, any number of times. The
fields of a command that belong to the other direction are arbitrary.

`System.Ok` ties both ends and the segments in flight together. What a segment says about its sender
was true when it was sent and the facts are monotone, so old and duplicated segments are harmless.
-/

namespace XrayCore.Kcp

open Lib Buf List SendingWindow

abbrev Chunk := { b : Buffer // b.bytes.length ≤ DEFAULT_SIZE }

def Chunk.copy (chunk : Bytes) : Chunk :=
  ⟨(Buffer.new.writeFrom chunk).1, by
    rw [Buffer.bytes_writeFrom, Buffer.bytes_new, Buffer.free_new, nil_append]
    exact length_take_le _ _⟩

/-- `pushed` and `out` record the payloads taken and the bytes returned so far;
no step reads them. -/
structure System where
  sender : SendingWorker
  receiver : ReceivingWorker
  toReceiver : List SegmentKind
  toSender : List SegmentKind
  pushed : List Bytes
  out : Bytes

namespace System

def new (sending receiving : Config) (conv : UInt16) (mss : Nat) : System :=
  { sender := .new conv sending
    receiver := .new receiving conv mss
    toReceiver := []
    toSender := []
    pushed := []
    out := [] }

inductive Op
  | push (payload : Chunk) (state : State)
  | flushWithWriter (rtt : RoundTripInfo) (current : UInt32) (state : State)
  | pingReceiver (receivingNext peerRto : UInt32)
  | deliverToReceiver (i : Nat)
  | read (want : Nat)
  | flush (rtt : RoundTripInfo) (current : UInt32) (state : State)
  | pingSender (sendingNext peerRto : UInt32)
  | deliverToSender (i : Nat) (rtt : RoundTripInfo) (current rto : UInt32)

def receive (r : ReceivingWorker) : SegmentKind → ReceivingWorker
  | .data seg => r.processSegment seg
  | .cmd seg => r.processSendingNext seg.sendingNext
  | .ack _ => r

def acknowledge (w : SendingWorker) (rtt : RoundTripInfo) (current rto : UInt32) :
    SegmentKind → SendingWorker
  | .ack seg => (w.processAckSegment rtt current seg rto).1
  | .cmd seg => w.processReceivingNext seg.receivingNext
  | .data _ => w

def ping (conv : UInt16) (sendingNext receivingNext peerRto : UInt32) : SegmentKind :=
  .cmd { conv := conv, cmd := .ping, option := 0, sendingNext := sendingNext,
         receivingNext := receivingNext, peerRto := peerRto }

def step (s : System) : Op → System
  | .push payload state =>
    { s with
      sender := (s.sender.push payload.1 state).1
      pushed := if (s.sender.push payload.1 state).2 then s.pushed ++ [payload.1.bytes]
        else s.pushed }
  | .flushWithWriter rtt current state =>
    { s with
      sender := (s.sender.flushWithWriter rtt current state).1
      toReceiver := s.toReceiver ++
        (s.sender.flushWithWriter rtt current state).2.1.map SegmentKind.data }
  | .pingReceiver receivingNext peerRto =>
    { s with
      toReceiver := s.toReceiver ++
        [ping s.sender.conv s.sender.firstUnacknowledged receivingNext peerRto] }
  | .deliverToReceiver i =>
    match s.toReceiver[i]? with
    | some seg => { s with receiver := receive s.receiver seg }
    | none => s
  | .read want =>
    { s with
      receiver := (s.receiver.read want).2
      out := s.out ++ (s.receiver.read want).1 }
  | .flush rtt current state =>
    { s with
      receiver := (s.receiver.flush rtt current state).1
      toSender := s.toSender ++ (s.receiver.flush rtt current state).2.map SegmentKind.ack }
  | .pingSender sendingNext peerRto =>
    { s with
      toSender := s.toSender ++ [ping s.receiver.conv sendingNext s.receiver.nextNumber peerRto] }
  | .deliverToSender i rtt current rto =>
    match s.toSender[i]? with
    | some seg => { s with sender := acknowledge s.sender rtt current rto seg }
    | none => s

end System

def ReceivingWorker.Accepted (r : ReceivingWorker) (n : UInt32) : Prop :=
  n < r.nextNumber ∨ r.window.has n = true

/-- A segment on its way to the receiver: a data segment carries what was pushed
under its number, and no segment claims more to be acknowledged than is. -/
def ForReceiver (pushed : List Bytes) (una : UInt32) : SegmentKind → Prop
  | .data seg => pushed[seg.number.toNat]? = some seg.payloadBytes ∧ seg.sendingNext ≤ una
  | .cmd seg => seg.sendingNext ≤ una
  | .ack _ => True

def ForSender (r : ReceivingWorker) : SegmentKind → Prop
  | .ack seg => seg.receivingNext ≤ r.nextNumber ∧ ∀ n ∈ seg.numberList, r.Accepted n
  | .cmd seg => seg.receivingNext ≤ r.nextNumber
  | .data _ => True

/-- The first payloads pushed were passed on, and the window holds others under
their numbers. -/
structure Passed (pushed : List Bytes) (window : ReceivingWindow) (next : UInt32) (out : Bytes) :
    Prop where
  next_le : next.toNat ≤ pushed.length
  out_eq : out = (pushed.take next.toNat).flatten
  cached : ∀ n seg, window.cache.lookup n = some seg → pushed[n.toNat]? = some seg.payloadBytes

structure System.Ok (s : System) : Prop where
  shape : s.sender.Shape
  next : s.sender.nextNumber.toNat = s.pushed.length
  fits : ∀ b ∈ s.pushed, b.length ≤ DEFAULT_SIZE
  contents : ∀ c ∈ s.sender.window.contents, ∃ b, c.2 = some b ∧ s.pushed[c.1.toNat]? = some b.bytes
  toReceiver : ∀ m ∈ s.toReceiver, ForReceiver s.pushed s.sender.firstUnacknowledged m
  toSender : ∀ m ∈ s.toSender, ForSender s.receiver m
  passed : Passed s.pushed s.receiver.window s.receiver.nextNumber (s.out ++ s.receiver.pending)
  acklist : ∀ n ∈ s.receiver.acklist.numbers, s.receiver.Accepted n
  covered : ∀ n, n < s.sender.nextNumber → n ∈ s.sender.window.numbers ∨ s.receiver.Accepted n
  listed : ∀ n ∈ s.sender.window.numbers, s.receiver.Accepted n → n ∈ s.receiver.acklist.numbers

theorem ForReceiver.mono (h : ForReceiver pushed una m)
    (hp : pushed <+: pushed') (hu : una ≤ una') : ForReceiver pushed' una' m := by
  cases m with
  | data seg =>
    obtain ⟨hdata, hn⟩ := h
    obtain ⟨rest, rfl⟩ := hp
    obtain ⟨hlt, -⟩ := List.getElem?_eq_some_iff.mp hdata
    exact ⟨by rw [List.getElem?_append_left hlt]; exact hdata, UInt32.le_trans hn hu⟩
  | cmd seg => exact UInt32.le_trans h hu
  | ack seg => trivial

theorem ForSender.mono (h : ForSender r m)
    (hne : r.nextNumber ≤ r'.nextNumber) (ha : ∀ n, r.Accepted n → r'.Accepted n) :
    ForSender r' m := by
  cases m with
  | ack seg => exact ⟨UInt32.le_trans h.1 hne, fun n hn => ha n (h.2 n hn)⟩
  | cmd seg => exact UInt32.le_trans h hne
  | data seg => trivial

theorem ReceivingWindow.has_set (win : ReceivingWindow) (seg : DataSegment) :
    (win.set seg.number seg).1.has n = true ↔ n = seg.number ∨ win.has n = true := by
  unfold ReceivingWindow.set
  split
  · next hin =>
    constructor
    · exact .inr
    · rintro (rfl | hh)
      · exact decide_eq_true hin
      · exact hh
  · simp [ReceivingWindow.has]

theorem Passed.turn (h : Passed pushed window nxt out)
    (hf : pushed.length < 2 ^ 32) (hl : window.cache.lookup nxt = some seg) :
    Passed pushed ⟨window.cache.erase nxt⟩ (nxt + 1) (out ++ seg.payloadBytes) ∧
      ∀ n, (n < nxt + 1 ∨ n ∈ window.cache.erase nxt) ↔ (n < nxt ∨ n ∈ window.cache) := by
  have hat := h.cached nxt seg hl
  obtain ⟨hlt, -⟩ := List.getElem?_eq_some_iff.mp hat
  have hne : (nxt + 1).toNat = nxt.toNat + 1 := toNat_add_one (by omega)
  have hin : nxt ∈ window.cache := AList.lookup_isSome.mp (by rw [hl]; rfl)
  refine ⟨⟨hne ▸ hlt, ?_, ?_⟩, ?_⟩
  · rw [hne, take_add_one, hat, h.out_eq]
    simp
  · intro n t ht
    by_cases hn : n = nxt
    · subst hn
      rw [AList.lookup_erase] at ht
      cases ht
    · rw [AList.lookup_erase_ne hn] at ht
      exact h.cached n t ht
  · intro n
    have hs : n < nxt + 1 ↔ n < nxt ∨ n = nxt := by
      rw [UInt32.lt_iff_toNat_lt, hne, Nat.lt_succ_iff_lt_or_eq, UInt32.lt_iff_toNat_lt,
        UInt32.toNat_inj]
    rw [hs, AList.mem_erase]
    by_cases hn : n = nxt
    · simp [hn, hin]
    · simp [hn]

namespace System

variable {s : System}

theorem Ok.accepted_lt (h : s.Ok) (ha : s.receiver.Accepted n) : n < s.sender.nextNumber := by
  rw [UInt32.lt_iff_toNat_lt, h.next]
  rcases ha with hlt | hh
  · exact lt_of_lt_of_le (UInt32.lt_iff_toNat_lt.mp hlt) h.passed.next_le
  · obtain ⟨seg, hs⟩ := Option.isSome_iff_exists.mp (AList.lookup_isSome.mpr (of_decide_eq_true hh))
    exact (List.getElem?_eq_some_iff.mp (h.passed.cached n seg hs)).1

theorem new_ok (sending receiving : Config) (conv : UInt16) (mss : Nat) :
    (new sending receiving conv mss).Ok := by
  refine ⟨SendingWorker.new_shape conv sending, rfl, nofun, nofun, nofun, nofun, ?_, nofun, ?_,
    nofun⟩
  · exact ⟨le_refl 0, rfl, nofun⟩
  · intro n hn
    exact absurd hn UInt32.not_lt_zero

section

variable (h : s.Ok)

include h

theorem Ok.trims (ht : SendingWorker.Trims gone s.sender w')
    (hg : ∀ n, gone n → s.receiver.Accepted n) : Ok { s with sender := w' } := by
  have hs : ∀ n ∈ w'.window.numbers, n ∈ s.sender.window.numbers := by
    intro n hn
    rw [numbers_eq] at hn ⊢
    exact (ht.contents.map _).subset hn
  refine ⟨h.shape.trims ht, ht.next ▸ h.next, h.fits, ?_, ?_, h.toSender, h.passed, h.acklist,
    ?_, ?_⟩
  · intro c hc
    exact h.contents c (ht.contents.subset hc)
  · intro m hm
    exact (h.toReceiver m hm).mono (prefix_refl _) (ht.first_le h.shape)
  · intro n hn
    rcases h.covered n (ht.next ▸ hn) with hin | ha
    · rw [numbers_eq] at hin
      obtain ⟨c, hc, rfl⟩ := mem_map.mp hin
      rcases ht.kept c hc with hk | ho
      · left
        rw [numbers_eq]
        exact mem_map_of_mem hk
      · exact .inr (hg _ ho)
    · exact .inr ha
  · intro n hn ha
    exact h.listed n (hs n hn) ha

theorem Ok.push_taken (pl : Chunk) (hf : s.pushed.length + 1 < 2 ^ 32) : Ok { s with
      sender := { s.sender with
        window := s.sender.window.push s.sender.nextNumber pl.1
        nextNumber := s.sender.nextNumber + 1 }
      pushed := s.pushed ++ [pl.1.bytes] } := by
  have hroom : s.sender.nextNumber.toNat + 1 < 2 ^ 32 := h.next ▸ hf
  have hne := toNat_add_one hroom
  have hp : s.pushed <+: s.pushed ++ [pl.1.bytes] := prefix_append _ _
  have hold {n : Nat} {b : Bytes} (hn : s.pushed[n]? = some b) :
      (s.pushed ++ [pl.1.bytes])[n]? = some b := by
    obtain ⟨hlt, -⟩ := List.getElem?_eq_some_iff.mp hn
    rw [List.getElem?_append_left hlt]
    exact hn
  have hnu : (s.sender.window.push s.sender.nextNumber pl.1).numbers =
      s.sender.window.numbers ++ [s.sender.nextNumber] := by
    simp [numbers, SendingWindow.push]
  refine ⟨h.shape.push pl.1 hroom, ?_, ?_, ?_, ?_, h.toSender, ?_, h.acklist, ?_, ?_⟩
  · simp [hne, h.next]
  · intro b hb
    rcases mem_append.mp hb with hin | hnew
    · exact h.fits b hin
    · exact mem_singleton.mp hnew ▸ pl.2
  · intro c hc
    rw [contents_push] at hc
    rcases mem_append.mp hc with hin | hnew
    · obtain ⟨b, hb, hat⟩ := h.contents c hin
      exact ⟨b, hb, hold hat⟩
    · cases mem_singleton.mp hnew
      exact ⟨pl.1, rfl, by simp [h.next]⟩
  · intro m hm
    exact (h.toReceiver m hm).mono hp (UInt32.le_refl _)
  · obtain ⟨hle, ho, hca⟩ := h.passed
    refine ⟨le_trans hle hp.length_le, ?_, fun n seg hl => hold (hca n seg hl)⟩
    rw [take_append_of_le_length hle]
    exact ho
  · intro n hn
    simp only [hnu, mem_append, mem_singleton]
    by_cases heq : n = s.sender.nextNumber
    · exact .inl (.inr heq)
    have hlt : n < s.sender.nextNumber := by
      rw [UInt32.lt_iff_toNat_lt] at hn ⊢
      simp only [hne] at hn
      exact lt_of_le_of_ne (Nat.le_of_lt_succ hn) fun he => heq (UInt32.toNat_inj.mp he)
    rcases h.covered n hlt with hin | ha
    · exact .inl (.inl hin)
    · exact .inr ha
  · intro n hn ha
    simp only [hnu, mem_append, mem_singleton] at hn
    rcases hn with hin | rfl
    · exact h.listed n hin ha
    · exact absurd (h.accepted_lt ha) (UInt32.lt_irrefl _)

theorem Ok.sends (hs : seg ∈ (s.sender.flushWithWriter rtt current state).2.1) :
    ForReceiver s.pushed s.sender.firstUnacknowledged (.data seg) := by
  obtain ⟨hn, c, hc, hnu, hp⟩ := SendingWorker.flushWithWriter_sends hs
  obtain ⟨b, hb, hat⟩ := h.contents c hc
  have hfits := h.fits b.bytes (mem_of_getElem? hat)
  have hco : seg.payloadBytes = b.bytes := by
    rw [DataSegment.payloadBytes, hp, hb, Option.map_some]
    show (Buffer.new.writeFrom b.bytes).1.bytes = b.bytes
    rw [Buffer.bytes_writeFrom, Buffer.bytes_new, Buffer.free_new, nil_append,
      take_of_length_le hfits]
  exact ⟨by rw [hnu, hco]; exact hat, hn ▸ UInt32.le_refl _⟩

theorem Ok.toReceiver_append
    (hm : ∀ m ∈ more, ForReceiver s.pushed s.sender.firstUnacknowledged m) :
    Ok { s with toReceiver := s.toReceiver ++ more } := by
  refine { h with toReceiver := ?_ }
  intro m hin
  rcases mem_append.mp hin with hold | hnew
  · exact h.toReceiver m hold
  · exact hm m hnew

theorem Ok.toSender_append (hm : ∀ m ∈ more, ForSender s.receiver m) :
    Ok { s with toSender := s.toSender ++ more } := by
  refine { h with toSender := ?_ }
  intro m hin
  rcases mem_append.mp hin with hold | hnew
  · exact h.toSender m hold
  · exact hm m hnew

theorem Ok.acknowledge (hm : ForSender s.receiver m) :
    Ok { s with sender := acknowledge s.sender rtt current rto m } := by
  cases m with
  | data seg => exact h
  | cmd seg =>
    refine h.trims (s.sender.processReceivingNext_trims seg.receivingNext) ?_
    intro n hn
    exact .inl (UInt32.lt_of_lt_of_le hn hm)
  | ack seg =>
    refine h.trims (s.sender.processAckSegment_trims rtt current seg rto) ?_
    rintro n (hn | hn)
    · exact .inl (UInt32.lt_of_lt_of_le hn hm.1)
    · exact hm.2 n hn

theorem Ok.processSendingNext (hu : una ≤ s.sender.firstUnacknowledged) :
    Ok { s with receiver := s.receiver.processSendingNext una } := by
  refine { h with acklist := ?_, listed := ?_ }
  · intro n hn
    exact h.acklist n ((AckList.mem_numbers_clear _ _).mp hn).1
  · intro n hn ha
    exact (AckList.mem_numbers_clear _ _).mpr
      ⟨h.listed n hn ha, UInt32.le_trans hu (h.shape.lower n hn)⟩

theorem Ok.processSegment (hm : ForReceiver s.pushed s.sender.firstUnacknowledged (.data seg)) :
    Ok { s with receiver := s.receiver.processSegment seg } := by
  obtain ⟨hdata, hu⟩ := hm
  have hc := h.processSendingNext hu
  unfold ReceivingWorker.processSegment
  simp only
  split
  · exact h
  have hac (n : UInt32) : ReceivingWorker.Accepted { s.receiver with
        acklist := (s.receiver.acklist.clear seg.sendingNext).add seg.number seg.timestamp
        window := (s.receiver.window.set seg.number seg).1 } n ↔
        n = seg.number ∨ s.receiver.Accepted n := by
    simp only [ReceivingWorker.Accepted, ReceivingWindow.has_set]
    exact or_left_comm
  refine ⟨h.shape, h.next, h.fits, h.contents, h.toReceiver, ?_, ?_, ?_, ?_, ?_⟩
  · intro m hm
    exact (h.toSender m hm).mono (UInt32.le_refl _) fun n hn => (hac n).mpr (.inr hn)
  · refine { h.passed with cached := ?_ }
    intro n t hl
    simp only [ReceivingWindow.set] at hl
    split at hl
    · exact h.passed.cached n t hl
    by_cases hn : n = seg.number
    · subst hn
      rw [AList.lookup_insert] at hl
      cases hl
      exact hdata
    · rw [AList.lookup_insert_ne hn] at hl
      exact h.passed.cached n t hl
  · intro n hn
    rcases (AckList.mem_numbers_add _ _ _).mp hn with hold | rfl
    · exact (hac n).mpr (.inr (hc.acklist n hold))
    · exact (hac _).mpr (.inl rfl)
  · intro n hn
    rcases h.covered n hn with hin | hold
    · exact .inl hin
    · exact .inr ((hac n).mpr (.inr hold))
  · intro n hn ha
    refine (AckList.mem_numbers_add _ _ _).mpr ?_
    rcases (hac n).mp ha with rfl | hold
    · exact .inr rfl
    · exact .inl (hc.listed n hn hold)

theorem Ok.receive (hm : ForReceiver s.pushed s.sender.firstUnacknowledged m) :
    Ok { s with receiver := receive s.receiver m } := by
  cases m with
  | data seg => exact h.processSegment hm
  | cmd seg => exact h.processSendingNext hm
  | ack seg => exact h

theorem Ok.read (want : Nat) : Ok { s with
      receiver := (s.receiver.read want).2
      out := s.out ++ (s.receiver.read want).1 } := by
  have hf : s.pushed.length < 2 ^ 32 := h.next ▸ s.sender.nextNumber.toNat_lt
  -- the drain moves numbers from the window below the next number
  have hd := ReceivingWorker.read_rule
    (P := fun window next out => Passed s.pushed window next out ∧ s.receiver.nextNumber ≤ next ∧
      ∀ n, (n < next ∨ n ∈ window.cache) ↔
        (n < s.receiver.nextNumber ∨ n ∈ s.receiver.window.cache))
    (by
      rintro window next out seg ⟨hp, hle, hac⟩ hl
      obtain ⟨hp', ha'⟩ := hp.turn hf hl
      have hlt := (List.getElem?_eq_some_iff.mp (hp.cached next seg hl)).1
      exact ⟨hp', UInt32.le_trans hle (UInt32.le_of_lt (lt_add_one (by omega))),
        fun n => (ha' n).trans (hac n)⟩)
    s.receiver want s.out ⟨h.passed, UInt32.le_refl _, fun _ => Iff.rfl⟩
  obtain ⟨hp, hle, hac⟩ := hd
  have hs (n : UInt32) : (s.receiver.read want).2.Accepted n ↔ s.receiver.Accepted n := by
    simp only [ReceivingWorker.Accepted, ReceivingWindow.has, decide_eq_true_eq]
    exact hac n
  have hli := (s.receiver.read_acklist want).1
  refine ⟨h.shape, h.next, h.fits, h.contents, h.toReceiver, ?_, hp, ?_, ?_, ?_⟩
  · intro m hm
    exact (h.toSender m hm).mono hle fun n hn => (hs n).mpr hn
  · intro n hn
    rw [hli] at hn
    exact (hs n).mpr (h.acklist n hn)
  · intro n hn
    exact (h.covered n hn).imp_right (hs n).mpr
  · intro n hn ha
    rw [hli]
    exact h.listed n hn ((hs n).mp ha)

theorem Ok.flush (rtt : RoundTripInfo) (cur : UInt32) (state : State) : Ok { s with
      receiver := (s.receiver.flush rtt cur state).1
      toSender := s.toSender ++ (s.receiver.flush rtt cur state).2.map SegmentKind.ack } := by
  obtain ⟨hnu, hs⟩ := s.receiver.acklist.flush_numbers cur rtt.timeout
  have hok : Ok { s with receiver := (s.receiver.flush rtt cur state).1 } := by
    refine { h with acklist := ?_, listed := ?_ }
    · intro n hn
      exact h.acklist n (hnu ▸ hn)
    · intro n hn hac
      exact hnu ▸ h.listed n hn hac
  refine hok.toSender_append ?_
  intro m hm
  obtain ⟨a, ha, rfl⟩ := mem_map.mp hm
  obtain ⟨a', ha', rfl⟩ := mem_map.mp ha
  exact ⟨UInt32.le_refl _, fun n hn => h.acklist n (hs a' ha' n hn)⟩

theorem Ok.step (op : Op) (hf : (s.step op).pushed.length < 2 ^ 32 - 1) : (s.step op).Ok := by
  cases op with
  | push p st =>
    simp only [System.step] at hf ⊢
    cases hp : (s.sender.push p.1 st).2 with
    | true =>
      simp only [hp, ↓reduceIte, length_append, length_singleton] at hf
      rw [SendingWorker.push_taken hp]
      exact h.push_taken p (by omega)
    | false =>
      rw [SendingWorker.push_refused hp]
      exact h
  | flushWithWriter rtt c st =>
    have hs : Ok { s with
        toReceiver := s.toReceiver ++
          (s.sender.flushWithWriter rtt c st).2.1.map SegmentKind.data } := by
      refine h.toReceiver_append ?_
      intro m hm
      obtain ⟨seg, hse, rfl⟩ := mem_map.mp hm
      exact h.sends hse
    exact hs.trims (s.sender.flushWithWriter_trims rtt c st) nofun
  | pingReceiver rn pr =>
    refine h.toReceiver_append ?_
    intro m hm
    cases mem_singleton.mp hm
    exact UInt32.le_refl _
  | deliverToReceiver i =>
    simp only [System.step]
    split
    · next seg hse => exact h.receive (h.toReceiver seg (mem_of_getElem? hse))
    · exact h
  | read want => exact h.read want
  | flush rtt c st => exact h.flush rtt c st
  | pingSender sn pr =>
    refine h.toSender_append ?_
    intro m hm
    cases mem_singleton.mp hm
    exact UInt32.le_refl _
  | deliverToSender i rtt c rto =>
    simp only [System.step]
    split
    · next seg hse => exact h.acknowledge (h.toSender seg (mem_of_getElem? hse))
    · exact h

end

theorem pushed_step (s : System) (op : Op) : s.pushed.length ≤ (s.step op).pushed.length := by
  cases op with
  | push p st =>
    simp only [step]
    split
    · exact (prefix_append _ _).length_le
    · exact le_refl _
  | deliverToReceiver i | deliverToSender i =>
    simp only [step]
    split <;> exact le_refl _
  | _ => exact le_refl _

theorem pushed_runs (s : System) (ops : List Op) :
    s.pushed.length ≤ (runs step s ops).pushed.length := by
  induction ops generalizing s with
  | nil => exact le_refl _
  | cons op ops ih => exact le_trans (s.pushed_step op) (ih (s.step op))

theorem Ok.runs (h : s.Ok) (ops : List Op)
    (hf : (Lib.runs System.step s ops).pushed.length < 2 ^ 32 - 1) :
    (Lib.runs System.step s ops).Ok := by
  induction ops generalizing s with
  | nil => exact h
  | cons op ops ih =>
    have hle := pushed_runs (s.step op) ops
    exact ih (h.step op (lt_of_le_of_lt hle hf)) hf

/-- Nothing is lost or altered, whatever the network does: the bytes read are a
prefix of the bytes pushed, and every segment pushed is in the sender's window,
passed on by the receiver, or held in the receiver's window. -/
theorem no_loss (sending receiving : Config) (conv : UInt16) (mss : Nat) (ops : List Op)
    (hfew : (Lib.runs step (new sending receiving conv mss) ops).pushed.length < 2 ^ 32 - 1) :
    let s := Lib.runs step (new sending receiving conv mss) ops
    s.out <+: s.pushed.flatten ∧ ∀ i (hi : i < s.pushed.length),
        (∃ seg ∈ s.sender.window.cache, seg.number = UInt32.ofNat i ∧
          seg.payloadBytes = s.pushed[i]) ∨
        i < s.receiver.nextNumber.toNat ∨
        ∃ seg, s.receiver.window.cache.lookup (UInt32.ofNat i) = some seg ∧
          seg.payloadBytes = s.pushed[i] := by
  intro s
  have hok : s.Ok := (new_ok sending receiving conv mss).runs ops hfew
  refine ⟨?_, ?_⟩
  · have hout : s.out <+: (s.pushed.take s.receiver.nextNumber.toNat).flatten :=
      hok.passed.out_eq ▸ prefix_append _ _
    refine hout.trans ?_
    conv_rhs => rw [← take_append_drop s.receiver.nextNumber.toNat s.pushed]
    rw [flatten_append]
    exact prefix_append _ _
  · intro i hi
    have hnat : (UInt32.ofNat i).toNat = i := UInt32.toNat_ofNat_of_lt' (by
      have := hok.next ▸ s.sender.nextNumber.toNat_lt
      exact lt_trans hi this)
    have hlt : UInt32.ofNat i < s.sender.nextNumber := by
      rw [UInt32.lt_iff_toNat_lt, hnat, hok.next]
      exact hi
    rcases hok.covered _ hlt with hin | hpassed | hhas
    · left
      obtain ⟨seg, hseg, hnum⟩ := mem_map.mp hin
      obtain ⟨b, hb, hat⟩ := hok.contents seg.content (mem_map_of_mem hseg)
      refine ⟨seg, hseg, hnum, ?_⟩
      simp only [DataSegment.content, hnum, hnat, List.getElem?_eq_getElem hi] at hb hat
      rw [DataSegment.payloadBytes, hb]
      exact (Option.some.inj hat).symm
    · right; left
      rw [UInt32.lt_iff_toNat_lt, hnat] at hpassed
      exact hpassed
    · right; right
      obtain ⟨seg, hseg⟩ :=
        Option.isSome_iff_exists.mp (AList.lookup_isSome.mpr (of_decide_eq_true hhas))
      refine ⟨seg, hseg, ?_⟩
      have hat := hok.passed.cached _ seg hseg
      rw [hnat, List.getElem?_eq_getElem hi] at hat
      exact (Option.some.inj hat).symm

/-- Two segments are sent; the second one arrives, twice, and then the first. -/
theorem no_loss_reordered :
    let rtt := RoundTripInfo.new 50
    let ops : List Op :=
      [.push (.copy [1, 1]) .active, .push (.copy [2, 2]) .active, .flushWithWriter rtt 0 .active,
        .deliverToReceiver 1, .deliverToReceiver 1, .read 8, .deliverToReceiver 0, .read 3]
    let s := Lib.runs step (new defaultConfig defaultConfig 7 1400) ops
    s.out = [1, 1, 2] ∧ s.out <+: s.pushed.flatten := by
  intro rtt ops s
  exact ⟨by decide, (no_loss defaultConfig defaultConfig 7 1400 ops (by decide)).1⟩

/-- A segment that the receiver has and the sender still holds is listed for
acknowledgement, so a flush that finds its entry due names it again. -/
theorem acks_retained (sending receiving : Config) (conv : UInt16) (mss : Nat) (ops : List Op)
    (hfew : (Lib.runs step (new sending receiving conv mss) ops).pushed.length < 2 ^ 32 - 1) :
    let s := Lib.runs step (new sending receiving conv mss) ops
    ∀ n ∈ s.sender.window.numbers, s.receiver.Accepted n → n ∈ s.receiver.acklist.numbers ∧
        ∀ rtt state, ∃ a ∈ (s.receiver.flush rtt 0xFFFFFFFF state).2, n ∈ a.numberList := by
  intro s n hn hacc
  have hok : s.Ok := (new_ok sending receiving conv mss).runs ops hfew
  have hlisted := hok.listed n hn hacc
  refine ⟨hlisted, ?_⟩
  intro rtt state
  obtain ⟨e, he, rfl⟩ := mem_map.mp hlisted
  obtain ⟨a, ha, hin⟩ :=
    AckList.flush_lists s.receiver.acklist 0xFFFFFFFF rtt.timeout he (le_max e.nextFlush)
  exact ⟨_, mem_map_of_mem ha, hin⟩

/-- The acknowledgement of a segment that was read is lost; the number is still
listed. -/
theorem acks_retained_lost :
    let rtt := RoundTripInfo.new 50
    let ops : List Op :=
      [.push (.copy [1]) .active, .flushWithWriter rtt 0 .active, .deliverToReceiver 0, .read 8,
        .flush rtt 5 .active, .pingReceiver 0 100, .deliverToReceiver 1]
    let s := Lib.runs step (new defaultConfig defaultConfig 7 1400) ops
    0 ∈ s.sender.window.numbers ∧ 0 < s.receiver.nextNumber ∧ 0 ∈ s.receiver.acklist.numbers := by
  intro rtt ops s
  have hheld : 0 ∈ s.sender.window.numbers := by decide
  have hpassed : 0 < s.receiver.nextNumber := by decide
  exact ⟨hheld, hpassed,
    (acks_retained defaultConfig defaultConfig 7 1400 ops (by decide) 0 hheld (.inl hpassed)).1⟩

/-- When everything pushed is acknowledged and the receiver has nothing to hand out, every byte has
been read. -/
theorem acknowledged_read (sending receiving : Config) (conv : UInt16) (mss : Nat) (ops : List Op)
    (hfew : (Lib.runs step (new sending receiving conv mss) ops).pushed.length < 2 ^ 32 - 1) :
    let s := Lib.runs step (new sending receiving conv mss) ops
    s.sender.window.isEmpty = true → s.receiver.isDataAvailable = false →
      s.out ++ s.receiver.pending = s.pushed.flatten := by
  intro s hempty hnone
  have hok : s.Ok := (new_ok sending receiving conv mss).runs ops hfew
  have hcache : s.sender.window.cache = [] := by simpa [SendingWindow.isEmpty] using hempty
  have hle : s.pushed.length ≤ s.receiver.nextNumber.toNat := by
    by_contra hlt
    have hnext : s.receiver.nextNumber < s.sender.nextNumber := by
      rw [UInt32.lt_iff_toNat_lt, hok.next]
      exact Nat.lt_of_not_le hlt
    rcases hok.covered _ hnext with hin | hless | hhas
    · simp [SendingWindow.numbers, hcache] at hin
    · exact absurd hless (UInt32.lt_irrefl _)
    · exact Bool.false_ne_true (hnone.symm.trans hhas)
  rw [hok.passed.out_eq, take_of_length_le hle]

theorem acknowledged_read_two :
    let rtt := RoundTripInfo.new 50
    let ops : List Op :=
      [.push (.copy [1, 1]) .active, .push (.copy [2]) .active, .flushWithWriter rtt 0 .active,
        .deliverToReceiver 1, .deliverToReceiver 0, .read 8, .flush rtt 5 .active,
        .deliverToSender 0 rtt 9 50]
    let s := Lib.runs step (new defaultConfig defaultConfig 7 1400) ops
    s.out ++ s.receiver.pending = s.pushed.flatten ∧ s.out = [1, 1, 2] := by
  intro rtt ops s
  have hread := acknowledged_read defaultConfig defaultConfig 7 1400 ops (by decide)
  exact ⟨hread (by decide) (by decide), by decide⟩

theorem valid_sent (h : seg ∈ (s.sender.flushWithWriter rtt current state).2.1) :
    (SegmentKind.data seg).Valid := by
  obtain ⟨-, c, -, -, hp⟩ := SendingWorker.flushWithWriter_sends h
  rw [SegmentKind.Valid, DataSegment.payloadBytes, hp]
  cases c.2 with
  | none => exact Nat.zero_le _
  | some b => exact (Chunk.copy b.bytes).2

theorem valid_flushed (h : a ∈ (s.receiver.flush rtt current state).2) :
    (SegmentKind.ack a).Valid := by
  obtain ⟨a', ha, rfl⟩ := mem_map.mp h
  have hle := (s.receiver.acklist.flush_spec current rtt.timeout).2.2 a' ha
  have hmax : max 1 (min s.receiver.acklist.limit 128) ≤ 255 := by omega
  exact hle.trans hmax

def Sendable (s : System) : Prop := (∀ m ∈ s.toReceiver, m.Valid) ∧ ∀ m ∈ s.toSender, m.Valid

theorem Sendable.step (h : s.Sendable) (op : Op) : (s.step op).Sendable := by
  cases op with
  | push | read => exact h
  | flushWithWriter rtt current state =>
    exact ⟨forall_mem_append.mpr ⟨h.1, forall_mem_map.mpr fun _ => valid_sent⟩, h.2⟩
  | pingReceiver =>
    exact ⟨forall_mem_append.mpr ⟨h.1, forall_mem_singleton.mpr (.inl rfl)⟩, h.2⟩
  | flush rtt current state =>
    exact ⟨h.1, forall_mem_append.mpr ⟨h.2, forall_mem_map.mpr fun _ => valid_flushed⟩⟩
  | pingSender =>
    exact ⟨h.1, forall_mem_append.mpr ⟨h.2, forall_mem_singleton.mpr (.inl rfl)⟩⟩
  | deliverToReceiver | deliverToSender =>
    simp only [System.step]
    split <;> exact h

/-- A packet of any segments in flight, in any order, is read as these segments. -/
theorem packets_readable (sending receiving : Config) (conv : UInt16) (mss : Nat) (ops : List Op)
    (picks : List Nat) :
    let s := Lib.runs step (new sending receiving conv mss) ops
    let packet := picks.filterMap ((s.toReceiver ++ s.toSender)[·]?)
    (KCPPacketReader.read (packet.flatMap SegmentKind.serialize)).map SegmentKind.wire =
      packet.map SegmentKind.wire := by
  intro s packet
  have hnew : (new sending receiving conv mss).Sendable := by simp [Sendable, new]
  have hall : s.Sendable := runs_invariant hnew (fun s op h => h.step op) ops
  refine read_flatMap_serialize packet ?_
  intro m hm
  obtain ⟨i, -, hi⟩ := mem_filterMap.mp hm
  exact forall_mem_append.mpr hall m (mem_of_getElem? hi)

end System

end XrayCore.Kcp
