import XrayCore.Kcp.SendingLaws

/-!
# Segments in flight

`total_in_flight_size` is the denominator of the loss rate. A first transmission adds one and
`remove` takes one off, but `clear_before` leaves the counter alone, and `remove` does not ask
whether the segment was ever sent.
-/

namespace XrayCore.Kcp

open Lib Buf List

def DataSegment.sent (s : DataSegment) : Bool := 0 < s.transmit

theorem DataSegment.sent_eq_false_iff {s : DataSegment} : s.sent = false ↔ s.transmit = 0 := by
  rw [sent, decide_eq_false_iff_not, UInt32.not_lt, UInt32.le_zero_iff]

namespace SendingWindow

variable {w : SendingWindow}

def inFlight (w : SendingWindow) : Nat := w.cache.countP DataSegment.sent

def Balanced (w : SendingWindow) : Prop := w.totalInFlightSize.toNat = w.inFlight

/-- `clear_before` takes out no segment that was sent. -/
def ClearsUnsent (w : SendingWindow) (una : UInt32) : Prop :=
  ∀ s ∈ w.cache.takeWhile (fun s => s.number < una), s.sent = false

/-- Removing the numbers keeps the counter right: nothing was sent, so that the
counter stays 0, or everything removed was. -/
def Removable (w : SendingWindow) (acked : List UInt32) : Prop :=
  (∀ s ∈ w.cache, s.sent = false) ∨ ∀ s ∈ w.cache, s.number ∈ acked → s.sent = true

instance (w : SendingWindow) (una : UInt32) : Decidable (w.ClearsUnsent una) :=
  inferInstanceAs (Decidable (∀ _ ∈ _, _))

instance (w : SendingWindow) (acked : List UInt32) : Decidable (w.Removable acked) :=
  inferInstanceAs (Decidable ((∀ _ ∈ _, _) ∨ ∀ _ ∈ _, _))

theorem Balanced.clearBefore (h : w.Balanced) (hc : w.ClearsUnsent una) :
    (w.clearBefore una).Balanced := by
  have hsp : w.inFlight = (w.clearBefore una).inFlight := by
    have hz : (w.cache.takeWhile fun s => s.number < una).countP DataSegment.sent = 0 := by
      rw [countP_eq_zero]
      intro s hs
      rw [hc s hs]
      exact Bool.false_ne_true
    calc
      w.inFlight = ((w.cache.takeWhile fun s => s.number < una) ++
          w.cache.dropWhile fun s => s.number < una).countP DataSegment.sent := by
        rw [takeWhile_append_dropWhile]
        rfl
      _ = (w.clearBefore una).inFlight := by
        rw [countP_append, hz, zero_add]
        rfl
  exact h.trans hsp

theorem Removable.sublist {w w' : SendingWindow} (h : w.Removable acked)
    (hsu : w'.cache.Sublist w.cache) : w'.Removable acked := by
  rcases h with h | h
  · exact .inl fun s hs => h s (hsu.subset hs)
  · exact .inr fun s hs => h s (hsu.subset hs)

theorem remove_sublist (w : SendingWindow) (num : UInt32) :
    (w.remove num).1.cache.Sublist w.cache := by
  unfold remove
  split
  · exact eraseIdx_sublist _ _
  · exact List.Sublist.refl _

theorem Balanced.remove (h : w.Balanced) (hr : w.Removable acked) (hn : number ∈ acked) :
    (w.remove number).1.Balanced := by
  unfold SendingWindow.remove
  split
  · next idx hi =>
    obtain ⟨hlt, hnu, -⟩ := List.findIdx?_eq_some_iff_getElem.mp hi
    have hc : w.inFlight =
        (w.cache.eraseIdx idx).countP DataSegment.sent + if w.cache[idx].sent then 1 else 0 := by
      rw [eraseIdx_eq_take_drop_succ, countP_append]
      calc
        w.inFlight = (w.cache.take idx ++ w.cache.drop idx).countP DataSegment.sent := by
          rw [take_append_drop]
          rfl
        _ = _ := by
          rw [drop_eq_getElem_cons hlt, countP_append, countP_cons, add_assoc]
    have hm : w.cache[idx] ∈ w.cache := getElem_mem hlt
    unfold Balanced at h ⊢
    rw [hc] at h
    rcases hr with hno | hall
    · -- nothing was sent: the counter is 0 and stays 0
      have hz : (w.cache.eraseIdx idx).countP DataSegment.sent = 0 := by
        rw [countP_eq_zero]
        intro s hs
        rw [hno s ((eraseIdx_sublist _ _).subset hs)]
        exact Bool.false_ne_true
      rw [hno _ hm, hz] at h
      have ht : ¬0 < w.totalInFlightSize := by
        rw [UInt32.lt_iff_toNat_lt, h]
        exact lt_irrefl _
      simp only [if_neg ht, inFlight, hz]
      exact h
    · rw [hall _ hm (beq_iff_eq.mp hnu ▸ hn)] at h
      have ht : 0 < w.totalInFlightSize := by
        rw [UInt32.lt_iff_toNat_lt, h]
        exact Nat.succ_pos _
      simp only [if_pos ht, inFlight]
      rw [UInt32.toNat_sub_of_le _ _ (by grind), h]
      rfl
  · exact h

theorem Balanced.handleFastAck (h : w.Balanced) (num rto : UInt32) :
    (w.handleFastAck num rto).Balanced := by
  have hl (cache : List DataSegment) :
      (fastAckLoop num rto cache).countP DataSegment.sent = cache.countP DataSegment.sent := by
    induction cache with
    | nil => rfl
    | cons seg rest ih =>
      simp only [fastAckLoop]
      split
      · rfl
      · rw [countP_cons, countP_cons, ih]
        split <;> rfl
  unfold SendingWindow.handleFastAck
  split
  · exact h
  · exact h.trans (hl w.cache).symm

theorem record_total (acc : FlushPreparation) (old seg : DataSegment)
    (hf : acc.totalInFlightSize.toNat + 1 < 2 ^ 32 ∨ old.sent = true) :
    (acc.record old seg).totalInFlightSize.toNat + (if old.sent then 1 else 0) =
      acc.totalInFlightSize.toNat + 1 := by
  cases hold : old.sent with
  | true =>
    have hne : old.transmit ≠ 0 := by
      intro h0
      rw [DataSegment.sent_eq_false_iff.mpr h0] at hold
      cases hold
    simp [FlushPreparation.record, if_neg hne, ↓reduceIte]
  | false =>
    have hroom := hf.resolve_right (by rw [hold]; exact Bool.false_ne_true)
    simp [FlushPreparation.record, if_pos (DataSegment.sent_eq_false_iff.mp hold), toNat_add_one hroom, ↓reduceIte]

theorem prepareLoop_counts (cur rto lim : UInt32) (conv : UInt16) (state : State)
    (una : UInt32) (cache : List DataSegment) (acc : FlushPreparation)
    (hroom : ∀ s ∈ cache, due cur s → s.transmit + 1 ≠ 0)
    (hf : acc.totalInFlightSize.toNat + cache.countP (fun s => !s.sent) < 2 ^ 32) :
    (prepareLoop cur rto lim conv state una cache acc).2.totalInFlightSize.toNat +
        cache.countP DataSegment.sent = acc.totalInFlightSize.toNat +
        (prepareLoop cur rto lim conv state una cache acc).1.countP DataSegment.sent := by
  induction cache generalizing acc with
  | nil => rfl
  | cons seg rest ih =>
    have hrest : ∀ s ∈ rest, due cur s → s.transmit + 1 ≠ 0 :=
      (forall_mem_cons.mp hroom).2
    rw [countP_cons] at hf
    simp only [prepareLoop]
    split
    · next hd =>
      have hse : (stamp cur rto conv state una seg).sent = true := by
        exact decide_eq_true (by simp only [stamp]; grind)
      have hr := record_total acc seg (stamp cur rto conv state una seg) (by
        cases hold : seg.sent with
        | true => exact .inr rfl
        | false =>
          rw [hold] at hf
          simp only [Bool.not_false, ↓reduceIte] at hf
          exact .inl (by omega))
      have hf' : (acc.record seg (stamp cur rto conv state una seg)).totalInFlightSize.toNat +
          rest.countP (fun s => !s.sent) < 2 ^ 32 := by
        cases hold : seg.sent with
        | true =>
          simp only [hold, Bool.not_true, Bool.false_eq_true, ↓reduceIte] at hf hr
          omega
        | false =>
          simp only [hold, Bool.not_false, Bool.false_eq_true, ↓reduceIte] at hf hr
          omega
      split
      · simp [countP_cons, hse]
        omega
      · have hl := ih _ hrest hf'
        simp [countP_cons, hse]
        omega
    · have hl := ih acc hrest (by omega)
      simp [countP_cons]
      omega

theorem Balanced.prepareFlush (h : w.Balanced) (hle : w.cache.length < 2 ^ 32)
    (hroom : ∀ s ∈ w.cache, due current s → s.transmit + 1 ≠ 0) :
    (w.prepareFlush current rto limit conv state una).1.Balanced := by
  unfold Balanced inFlight at h ⊢
  have hp : w.cache.length =
      w.cache.countP DataSegment.sent + w.cache.countP (fun s => !s.sent) := by
    simpa using length_eq_countP_add_countP DataSegment.sent (l := w.cache)
  have hl := prepareLoop_counts current rto limit conv state una w.cache
    ⟨[], 0, 0, w.totalInFlightSize⟩ hroom (by simp only [h]; omega)
  simp only [SendingWindow.prepareFlush]
  simp only [h] at hl
  omega

end SendingWindow

namespace SendingWorker

variable {w w' : SendingWorker}

theorem processAck_balanced (h : w.window.Balanced) (hr : w.window.Removable acked)
    (hn : number ∈ acked) :
    (w.processAck number).1.window.Balanced ∧ (w.processAck number).1.window.Removable acked := by
  have hwi : (w.processAck number).1.window = w.window ∨
      (w.processAck number).1.window = (w.window.remove number).1 := by
    unfold processAck
    simp only
    split
    · exact .inl rfl
    · right
      split <;> rfl
  rcases hwi with hw | hw
  · rw [hw]
    exact ⟨h, hr⟩
  · rw [hw]
    exact ⟨h.remove hr hn, hr.sublist (w.window.remove_sublist number)⟩

theorem ackLoop_balanced (rest : List UInt32) (hs : ∀ n ∈ rest, n ∈ acked)
    (h : w.window.Balanced) (hr : w.window.Removable acked) (maxack : UInt32) (removed : Bool) :
    (ackLoop rest (w, maxack, removed)).1.window.Balanced := by
  induction rest generalizing w maxack removed with
  | nil => exact h
  | cons nu rest ih =>
    obtain ⟨h', hr'⟩ := processAck_balanced h hr (hs nu mem_cons_self)
    have hs' : ∀ n ∈ rest, n ∈ acked := (forall_mem_cons.mp hs).2
    simp only [ackLoop]
    split <;> exact ih hs' h' hr' _ _

theorem processAckNumbers_balanced (h : w.window.Balanced) (hr : w.window.Removable acked)
    (rto : UInt32) : (w.processAckNumbers acked rto).1.window.Balanced := by
  have hl := ackLoop_balanced acked (fun _ hn => hn) h hr 0 false
  unfold processAckNumbers
  simp only
  split
  · exact hl.handleFastAck _ _
  · exact hl

theorem processAckSegment_balanced (h : w.window.Balanced)
    (hcl : w.window.ClearsUnsent seg.receivingNext) (hr : w.window.Removable seg.numberList) :
    (w.processAckSegment rtt current seg rto).1.window.Balanced := by
  have hra : (w.raiseRemote seg.receivingWindow).window = w.window := by
    unfold raiseRemote
    split <;> rfl
  have hw : ((w.raiseRemote seg.receivingWindow).processReceivingNext seg.receivingNext).window =
        w.window.clearBefore seg.receivingNext := by
    rw [← hra]
    rfl
  have hc := h.clearBefore hcl
  unfold processAckSegment
  split
  · exact h
  split
  · rw [hw]
    exact hc
  refine processAckNumbers_balanced ?_ ?_ rto
  · rw [hw]
    exact hc
  · rw [hw]
    exact hr.sublist (dropWhile_sublist _)

/-- The step takes out no segment behind the counter's back, and no counter of
the window overflows. -/
def Op.KeepsCount (w : SendingWorker) : Op → Prop
  | .push _ _ => w.window.cache.length + 1 < 2 ^ 32
  | .flushWithWriter _ current _ =>
    ∀ s ∈ w.window.cache, SendingWindow.due current s → s.transmit + 1 ≠ 0
  | .processAckSegment _ _ ack _ =>
    w.window.ClearsUnsent ack.receivingNext ∧ w.window.Removable ack.numberList
  | .processReceivingNext nextNumber => w.window.ClearsUnsent nextNumber
  | .closeWrite => w.window.ClearsUnsent 0xFFFFFFFF

instance (w : SendingWorker) (op : Op) : Decidable (op.KeepsCount w) := by
  cases op <;> unfold Op.KeepsCount <;> infer_instance

def Counted (w : SendingWorker) : Prop :=
  w.window.Balanced ∧ w.window.cache.length < 2 ^ 32

theorem Trims.length_le (ht : Trims gone w w') :
    w'.window.cache.length ≤ w.window.cache.length := by
  have hl := ht.contents.length_le
  simpa [SendingWindow.contents] using hl

theorem Counted.trims (h : w.Counted) (ht : Trims gone w w') (hb : w'.window.Balanced) :
    w'.Counted :=
  ⟨hb, lt_of_le_of_lt ht.length_le h.2⟩

theorem Counted.step (h : w.Counted) (op : Op) (hk : op.KeepsCount w) : (w.step op).Counted := by
  obtain ⟨hb, hl⟩ := h
  cases op with
  | push p s =>
    simp only [SendingWorker.step]
    cases hp : (w.push p s).2 with
    | true =>
      rw [push_taken hp]
      refine ⟨?_, ?_⟩
      · simpa [SendingWindow.Balanced, SendingWindow.inFlight, SendingWindow.push,
          DataSegment.sent, DataSegment.new] using hb
      · simp only [SendingWindow.push, length_append, length_singleton]
        exact hk
    | false =>
      rw [push_refused hp]
      exact ⟨hb, hl⟩
  | flushWithWriter rtt c s =>
    refine Counted.trims ⟨hb, hl⟩ (w.flushWithWriter_trims rtt c s) ?_
    simp only [SendingWorker.step]
    unfold flushWithWriter
    split
    · exact hb
    · exact hb.prepareFlush hl hk
  | processAckSegment rtt c ack rto =>
    exact Counted.trims ⟨hb, hl⟩ (w.processAckSegment_trims rtt c ack rto)
      (processAckSegment_balanced hb hk.1 hk.2)
  | processReceivingNext n =>
    exact Counted.trims ⟨hb, hl⟩ (w.processReceivingNext_trims n) (hb.clearBefore hk)
  | closeWrite =>
    exact ⟨hb.clearBefore hk, lt_of_le_of_lt (dropWhile_sublist _).length_le hl⟩

/-- Through every run whose steps keep the count, the counter is the number of
segments in the window that were sent. -/
theorem totalInFlightSize_of_keepsCount (conv : UInt16) (config : Config) (ops : List Op)
    (hk : Guarded step (fun w op => op.KeepsCount w) (new conv config) ops) : Throughout step
      (fun w => w.window.totalInFlightSize.toNat = w.window.cache.countP fun s => 0 < s.transmit)
      (new conv config) ops := by
  have hstart : (new conv config).Counted := ⟨rfl, Nat.two_pow_pos 32⟩
  have hall := hk.throughout hstart fun w op h hk => h.step op hk
  exact hall.mono fun w h => h.1

/-- Two segments are sent and the first one is acknowledged by number. -/
theorem totalInFlightSize_of_keepsCount_acked :
    let rtt := RoundTripInfo.new 50
    let ops := [Op.push (Buffer.new.writeFrom [1]).1 .active,
      .push (Buffer.new.writeFrom [2]).1 .active, .flushWithWriter rtt 0 .active,
      .processAckSegment rtt 10 { AckSegment.new 128 with numberList := [0] } 100]
    Throughout step
        (fun w => w.window.totalInFlightSize.toNat = w.window.cache.countP fun s => 0 < s.transmit)
        (new 7 defaultConfig) ops ∧
      (runs step (new 7 defaultConfig) ops).window.totalInFlightSize = 1 := by
  refine ⟨totalInFlightSize_of_keepsCount 7 defaultConfig _ ?_, by decide⟩
  decide

/-- One segment is sent and then cleared by the peer's receiving number: the
window is empty and the counter says 1. -/
theorem clearBefore_keeps_counter :
    let w := runs step (new 7 defaultConfig) [.push (Buffer.new.writeFrom [1]).1 .active,
        .flushWithWriter (RoundTripInfo.new 50) 0 .active, .processReceivingNext 1]
    w.window.cache = [] ∧ w.window.totalInFlightSize = 1 ∧
      w.window.totalInFlightSize.toNat ≠ w.window.cache.countP fun s => 0 < s.transmit := by
  decide

end SendingWorker

end XrayCore.Kcp
