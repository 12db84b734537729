import XrayCore.Kcp.Sending
import XrayCore.Lib.Runs
import XrayCore.Lib.Wrapping
import Mathlib.Data.List.TakeWhile

/-!
# What the sending side keeps

Every operation but `push` only takes segments out of the window and edits the fields around a
segment's number and payload. `Trims` says this once, with the numbers that may go; the window's
shape and everything the two-party system needs follow from it.
-/

namespace XrayCore.Kcp

open Lib Buf List SendingWindow

def DataSegment.content (s : DataSegment) : UInt32 × Option Buffer := (s.number, s.payload)

namespace SendingWindow

def contents (w : SendingWindow) : List (UInt32 × Option Buffer) :=
  w.cache.map DataSegment.content

@[simp] theorem contents_push (w : SendingWindow) (num : UInt32) (pl : Buffer) :
    (w.push num pl).contents = w.contents ++ [(num, some pl)] := by
  simp [contents, push, DataSegment.content]

theorem contents_clearBefore (w : SendingWindow) (una : UInt32) :
    (w.clearBefore una).contents = w.contents.dropWhile fun c => c.1 < una := by
  simp only [contents, clearBefore, dropWhile_map]
  rfl

@[simp] theorem contents_handleFastAck (w : SendingWindow) (num rto : UInt32) :
    (w.handleFastAck num rto).contents = w.contents := by
  have hl (cache : List DataSegment) :
      (fastAckLoop num rto cache).map DataSegment.content = cache.map DataSegment.content := by
    induction cache with
    | nil => rfl
    | cons seg rest ih =>
      simp only [fastAckLoop]
      split
      · rfl
      · simp only [map_cons, ih, List.cons.injEq, and_true]
        split <;> rfl
  unfold handleFastAck
  split
  · rfl
  · exact hl w.cache

@[simp] theorem contents_prepareFlush (w : SendingWindow) :
    (w.prepareFlush current rto limit conv state una).1.contents = w.contents := by
  have hl (cache : List DataSegment) (acc : FlushPreparation) :
      (prepareLoop current rto limit conv state una cache acc).1.map DataSegment.content =
        cache.map DataSegment.content := by
    induction cache generalizing acc with
    | nil => rfl
    | cons seg rest ih =>
      simp only [prepareLoop]
      split
      · split
        · rfl
        · simp only [map_cons, ih]
          rfl
      · simp [ih]
  exact hl w.cache _

def CopyOf (una : UInt32) (cs : List (UInt32 × Option Buffer)) (seg : DataSegment) : Prop :=
  seg.sendingNext = una ∧ ∃ c ∈ cs, seg.number = c.1 ∧
    seg.payload = c.2.map fun b => (Buffer.new.writeFrom b.bytes).1

theorem prepareLoop_sends (cache : List DataSegment) (acc : FlushPreparation)
    (h : seg ∈ (prepareLoop current rto limit conv state una cache acc).2.toSend) :
    seg ∈ acc.toSend ∨ CopyOf una (cache.map DataSegment.content) seg := by
  induction cache generalizing acc with
  | nil => exact .inl h
  | cons s rest ih =>
    simp only [prepareLoop] at h
    -- the accumulator grows by a copy of `s`, or the segment comes from the rest
    have hr (hin : seg ∈ (acc.record s (stamp current rto conv state una s)).toSend) :
        seg ∈ acc.toSend ∨ CopyOf una ((s :: rest).map DataSegment.content) seg := by
      rcases mem_append.mp hin with hold | hnew
      · exact .inl hold
      · cases mem_singleton.mp hnew
        exact .inr ⟨rfl, s.content, mem_cons_self, rfl, rfl⟩
    have hrest (acc' : FlushPreparation)
        (hin : seg ∈ (prepareLoop current rto limit conv state una rest acc').2.toSend) :
        seg ∈ acc'.toSend ∨ CopyOf una ((s :: rest).map DataSegment.content) seg := by
      rcases ih acc' hin with hold | ⟨hn, c, hc, heq⟩
      · exact .inl hold
      · exact .inr ⟨hn, c, mem_cons_of_mem _ hc, heq⟩
    split at h
    · split at h
      · exact hr h
      · rcases hrest _ h with hold | hs
        · exact hr hold
        · exact .inr hs
    · exact hrest acc h

theorem contents_remove (w : SendingWindow) (num : UInt32) :
    (w.remove num).1.contents.Sublist w.contents ∧
      (∀ c ∈ w.contents, c ∈ (w.remove num).1.contents ∨ c.1 = num) ∧
      ((w.remove num).2 = false → (w.remove num).1 = w) := by
  unfold remove
  split
  · next idx hid =>
    obtain ⟨hlt, hn, -⟩ := List.findIdx?_eq_some_iff_getElem.mp hid
    refine ⟨(eraseIdx_sublist _ _).map _, ?_, by simp⟩
    intro c hc
    obtain ⟨seg, hs, rfl⟩ := mem_map.mp hc
    obtain ⟨i, hi, rfl⟩ := mem_iff_getElem.mp hs
    by_cases heq : i = idx
    · subst heq
      exact .inr (beq_iff_eq.mp hn)
    · exact .inl (mem_map_of_mem (mem_eraseIdx_iff_getElem.mpr ⟨i, hi, heq, rfl⟩))
  · refine ⟨List.Sublist.refl _, ?_, fun _ => rfl⟩
    intro c hc
    exact .inl hc

def numbers (w : SendingWindow) : List UInt32 := w.cache.map DataSegment.number

theorem numbers_eq (w : SendingWindow) : w.numbers = w.contents.map Prod.fst := by
  simp [numbers, contents, DataSegment.content]

theorem firstNumber_eq (w : SendingWindow) : w.firstNumber = w.numbers.head? := by
  simp [firstNumber, numbers]

end SendingWindow

namespace SendingWorker

variable {w w' w'' : SendingWorker}

/-- `w'` is `w` without some segments, all with a number in `gone`; the first unacknowledged number
is looked up again unless nothing was taken. -/
structure Trims (gone : UInt32 → Prop) (w w' : SendingWorker) : Prop where
  contents : w'.window.contents.Sublist w.window.contents
  kept : ∀ c ∈ w.window.contents, c ∈ w'.window.contents ∨ gone c.1
  next : w'.nextNumber = w.nextNumber
  first : (w'.window.contents = w.window.contents ∧
      w'.firstUnacknowledged = w.firstUnacknowledged) ∨
    w'.firstUnacknowledged = w'.window.firstNumber.getD w'.nextNumber

theorem Trims.of_same (hc : w'.window.contents = w.window.contents)
    (hn : w'.nextNumber = w.nextNumber)
    (hf : w'.firstUnacknowledged = w.firstUnacknowledged) : Trims gone w w' :=
  ⟨hc ▸ List.Sublist.refl _, fun _ h => .inl (hc ▸ h), hn, .inl ⟨hc, hf⟩⟩

theorem Trims.refl (w : SendingWorker) : Trims gone w w := .of_same rfl rfl rfl

theorem Trims.mono (h : Trims gone w w') (hle : ∀ n, gone n → gone' n) : Trims gone' w w' :=
  ⟨h.contents, fun c hc => (h.kept c hc).imp_right (hle c.1), h.next, h.first⟩

theorem Trims.trans (h : Trims gone w w') (h' : Trims gone w' w'') : Trims gone w w'' := by
  refine ⟨h'.contents.trans h.contents, ?_, h'.next.trans h.next, ?_⟩
  · intro c hc
    rcases h.kept c hc with hin | hg
    · exact h'.kept c hin
    · exact .inr hg
  · rcases h'.first with ⟨hc', hf'⟩ | hf'
    · rcases h.first with ⟨hc, hf⟩ | hf
      · exact .inl ⟨hc'.trans hc, hf'.trans hf⟩
      · right
        rw [hf', hf, h'.next, firstNumber_eq, firstNumber_eq, numbers_eq, numbers_eq, hc']
    · exact .inr hf'

theorem processReceivingNext_trims (w : SendingWorker) (n : UInt32) :
    Trims (· < n) w (w.processReceivingNext n) := by
  have hc : (w.processReceivingNext n).window.contents =
      w.window.contents.dropWhile fun c => c.1 < n := w.window.contents_clearBefore n
  refine ⟨?_, ?_, rfl, .inr rfl⟩
  · rw [hc]
    exact dropWhile_sublist _
  intro c hin
  rw [hc]
  rw [← takeWhile_append_dropWhile (p := fun c => c.1 < n) (l := w.window.contents),
    mem_append] at hin
  rcases hin with ht | hd
  · have hlt := mem_takeWhile_imp ht
    exact .inr (of_decide_eq_true hlt)
  · exact .inl hd

theorem processAck_trims (w : SendingWorker) (num : UInt32) :
    Trims (· = num) w (w.processAck num).1 := by
  obtain ⟨hsu, hk, hs⟩ := w.window.contents_remove num
  unfold processAck
  simp only
  split
  · exact .refl w
  cases hr : (w.window.remove num).2 with
  | true => exact ⟨hsu, hk, rfl, .inr rfl⟩
  | false =>
    rw [hs hr]
    exact .refl w

theorem ackLoop_trims (nums : List UInt32) (w : SendingWorker) (maxack : UInt32) (r : Bool) :
    Trims (· ∈ nums) w (ackLoop nums (w, maxack, r)).1 := by
  induction nums generalizing w maxack r with
  | nil => exact .refl w
  | cons num rest ih =>
    have ho : Trims (· ∈ num :: rest) w (w.processAck num).1 :=
      (w.processAck_trims num).mono (by rintro n rfl; exact mem_cons_self)
    refine ho.trans ?_
    simp only [ackLoop]
    split <;> exact (ih _ _ _).mono fun n hn => mem_cons_of_mem _ hn

theorem raiseRemote_trims (w : SendingWorker) (receivingWindow : UInt32) :
    Trims gone w (w.raiseRemote receivingWindow) := by
  unfold raiseRemote
  split
  · exact .of_same rfl rfl rfl
  · exact .refl w

theorem processAckNumbers_trims (w : SendingWorker) (nums : List UInt32) (rto : UInt32) :
    Trims (· ∈ nums) w (w.processAckNumbers nums rto).1 := by
  have hl := ackLoop_trims nums w 0 false
  unfold processAckNumbers
  simp only
  split
  · exact hl.trans (.of_same (contents_handleFastAck _ _ _) rfl rfl)
  · exact hl

theorem processAckSegment_trims (w : SendingWorker) (rtt : RoundTripInfo) (cur : UInt32)
    (ack : AckSegment) (rto : UInt32) :
    Trims (fun n => n < ack.receivingNext ∨ n ∈ ack.numberList) w
      (w.processAckSegment rtt cur ack rto).1 := by
  unfold processAckSegment
  split
  · exact .refl w
  have hc := (w.raiseRemote_trims ack.receivingWindow).trans
    ((processReceivingNext_trims _ ack.receivingNext).mono
      fun n h => (.inl h : n < ack.receivingNext ∨ n ∈ ack.numberList))
  split
  · exact hc
  · exact hc.trans ((processAckNumbers_trims _ ack.numberList rto).mono fun _ h => .inr h)

theorem flushWithWriter_trims (w : SendingWorker) (rtt : RoundTripInfo) (cur : UInt32)
    (state : State) : Trims (fun _ => False) w (w.flushWithWriter rtt cur state).1 := by
  unfold flushWithWriter
  split
  · exact .refl w
  · exact .of_same (contents_prepareFlush _) rfl rfl

theorem flushWithWriter_sends (h : seg ∈ (w.flushWithWriter rtt current state).2.1) :
    SendingWindow.CopyOf w.firstUnacknowledged w.window.contents seg := by
  unfold flushWithWriter at h
  split at h
  · cases h
  · rcases prepareLoop_sends _ _ h with hn | hs
    · cases hn
    · exact hs

/-- The numbers in the window increase, up to the next number, and the first unacknowledged number
is the front one, or the next one when the window is empty. -/
structure Shape (w : SendingWorker) : Prop where
  sorted : w.window.numbers.Pairwise (· < ·)
  lower : ∀ n ∈ w.window.numbers, w.firstUnacknowledged ≤ n
  upper : ∀ n ∈ w.window.numbers, n < w.nextNumber
  first : w.firstUnacknowledged = w.window.numbers.head?.getD w.nextNumber

theorem new_shape (conv : UInt16) (config : Config) : (new conv config).Shape :=
  ⟨List.Pairwise.nil, nofun, nofun, rfl⟩

theorem Shape.first_le_next (h : Shape w) : w.firstUnacknowledged ≤ w.nextNumber := by
  have hf := h.first
  cases hn : w.window.numbers with
  | nil =>
    rw [hn] at hf
    exact hf ▸ UInt32.le_refl _
  | cons n rest =>
    rw [hn] at hf
    exact hf ▸ UInt32.le_of_lt (h.upper n (hn ▸ mem_cons_self))

theorem Shape.trims (h : Shape w) (ht : Trims gone w w') : Shape w' := by
  have hs : w'.window.numbers.Sublist w.window.numbers := by
    rw [numbers_eq, numbers_eq]
    exact ht.contents.map _
  have hsorted := h.sorted.sublist hs
  have hu : ∀ n ∈ w'.window.numbers, n < w'.nextNumber := by
    intro n hn
    rw [ht.next]
    exact h.upper n (hs.subset hn)
  rcases ht.first with ⟨hc, hf⟩ | hf
  · have hnu : w'.window.numbers = w.window.numbers := by
      rw [numbers_eq, numbers_eq, hc]
    refine ⟨hsorted, ?_, hu, ?_⟩
    · rw [hnu, hf]
      exact h.lower
    · rw [hnu, hf, ht.next]
      exact h.first
  · rw [firstNumber_eq] at hf
    refine ⟨hsorted, ?_, hu, hf⟩
    -- the front number is the least of a sorted list
    intro n hn
    cases hl : w'.window.numbers with
    | nil => exact absurd hn (hl ▸ not_mem_nil)
    | cons m rest =>
      rw [hl] at hf hn hsorted
      rw [hf]
      rcases mem_cons.mp hn with rfl | hrest
      · exact UInt32.le_refl _
      · exact UInt32.le_of_lt (rel_of_pairwise_cons hsorted hrest)

theorem Trims.first_le (ht : Trims gone w w') (h : Shape w) :
    w.firstUnacknowledged ≤ w'.firstUnacknowledged := by
  have h' := h.trims ht
  have hf := h'.first
  cases hn : w'.window.numbers with
  | nil =>
    rw [hn] at hf
    rw [hf]
    exact ht.next ▸ h.first_le_next
  | cons n rest =>
    rw [hn] at hf
    rw [hf]
    have hm : n ∈ w.window.numbers := by
      rw [numbers_eq] at hn ⊢
      exact (ht.contents.map _).subset (hn ▸ mem_cons_self)
    exact h.lower n hm

theorem push_taken (h : (w.push payload state).2 = true) : (w.push payload state).1 = { w with
        window := w.window.push w.nextNumber payload
        nextNumber := w.nextNumber + 1 } := by
  unfold push at h ⊢
  split at h
  · cases h
  next hc =>
  split at h
  · cases h
  next hf => rw [if_neg hc, if_neg hf]

theorem push_refused (h : (w.push payload state).2 = false) : (w.push payload state).1 = w := by
  unfold push at h ⊢
  split at h
  next hc => rw [if_pos hc]
  next hc =>
  split at h
  next hf => rw [if_neg hc, if_pos hf]
  · cases h

theorem Shape.push (h : Shape w) (pl : Buffer) (hroom : w.nextNumber.toNat + 1 < 2 ^ 32) :
    Shape { w with
      window := w.window.push w.nextNumber pl
      nextNumber := w.nextNumber + 1 } := by
  have hnu : (w.window.push w.nextNumber pl).numbers = w.window.numbers ++ [w.nextNumber] := by
    simp [SendingWindow.numbers, SendingWindow.push]
  refine ⟨?_, ?_, ?_, ?_⟩
  · rw [hnu, pairwise_append]
    refine ⟨h.sorted, pairwise_singleton _ _, ?_⟩
    intro n hn m hm
    exact mem_singleton.mp hm ▸ h.upper n hn
  · intro n hn
    rw [hnu, mem_append, mem_singleton] at hn
    rcases hn with hn | rfl
    · exact h.lower n hn
    · exact h.first_le_next
  · intro n hn
    rw [hnu, mem_append, mem_singleton] at hn
    rcases hn with hn | rfl
    · exact UInt32.lt_trans (h.upper n hn) (lt_add_one hroom)
    · exact lt_add_one hroom
  · have hf := h.first
    rw [hnu]
    cases hl : w.window.numbers with
    | nil | cons n rest => simpa [hl] using hf

inductive Op
  | push (payload : Buffer) (state : State)
  | flushWithWriter (rtt : RoundTripInfo) (current : UInt32) (state : State)
  | processAckSegment (rtt : RoundTripInfo) (current : UInt32) (ack : AckSegment) (rto : UInt32)
  | processReceivingNext (nextNumber : UInt32)
  | closeWrite

def step (w : SendingWorker) : Op → SendingWorker
  | .push payload state => (w.push payload state).1
  | .flushWithWriter rtt current state => (w.flushWithWriter rtt current state).1
  | .processAckSegment rtt current ack rto => (w.processAckSegment rtt current ack rto).1
  | .processReceivingNext nextNumber => w.processReceivingNext nextNumber
  | .closeWrite => w.closeWrite

def pushesTaken : SendingWorker → List Op → Nat
  | _, [] => 0
  | w, .push payload state :: ops =>
    (w.push payload state).2.toNat + pushesTaken (w.push payload state).1 ops
  | w, op :: ops => pushesTaken (w.step op) ops

def Op.ClosesEmpty (w : SendingWorker) : Op → Prop
  | .closeWrite => w.window.isEmpty
  | _ => True

theorem closeWrite_shape_iff (h : Shape w) : w.closeWrite.Shape ↔ w.window.isEmpty := by
  cases hc : w.window.cache with
  | nil =>
    have hsa : w.closeWrite = w := by
      simp only [closeWrite, SendingWindow.clearBefore, hc, dropWhile_nil]
      rw [← hc]
    simp [hsa, h, SendingWindow.isEmpty, hc]
  | cons seg rest =>
    have hm : seg.number ∈ w.window.numbers := by simp [SendingWindow.numbers, hc]
    have hg : w.closeWrite.window.numbers = [] := by
      have hall : ∀ s ∈ w.window.cache, (decide (s.number < 0xFFFFFFFF)) = true := by
        intro s hs
        have hlt := h.upper s.number (mem_map_of_mem hs)
        exact decide_eq_true (UInt32.lt_of_lt_of_le hlt (le_max _))
      simp [closeWrite, SendingWindow.numbers, SendingWindow.clearBefore, dropWhile_eq_nil_iff.mpr hall]
    have hf : w.firstUnacknowledged = seg.number := by
      rw [h.first]
      simp [SendingWindow.numbers, hc]
    simp only [SendingWindow.isEmpty, hc, isEmpty_cons, Bool.false_eq_true, iff_false]
    intro h'
    -- the window is empty now, but the first unacknowledged number is still `seg`'s
    have hst : w.firstUnacknowledged = w.nextNumber := by
      have := h'.first
      rw [hg] at this
      exact this
    have hlt := h.upper seg.number hm
    rw [← hf, hst] at hlt
    exact UInt32.lt_irrefl _ hlt

theorem step_shape_iff (h : Shape w) (hroom : w.nextNumber.toNat + 1 < 2 ^ 32) (op : Op) :
    (w.step op).Shape ↔ op.ClosesEmpty w := by
  cases op with
  | push p s =>
    simp only [step, Op.ClosesEmpty, iff_true]
    cases hp : (w.push p s).2 with
    | true =>
      rw [push_taken hp]
      exact h.push p hroom
    | false =>
      rw [push_refused hp]
      exact h
  | flushWithWriter rtt c s =>
    simp only [step, Op.ClosesEmpty, iff_true]
    exact h.trims (w.flushWithWriter_trims rtt c s)
  | processAckSegment rtt c ack rto =>
    simp only [step, Op.ClosesEmpty, iff_true]
    exact h.trims (w.processAckSegment_trims rtt c ack rto)
  | processReceivingNext n =>
    simp only [step, Op.ClosesEmpty, iff_true]
    exact h.trims (w.processReceivingNext_trims n)
  | closeWrite => exact closeWrite_shape_iff h

theorem next_add_pushesTaken (hroom : w.nextNumber.toNat + 1 < 2 ^ 32) (op : Op) (ops : List Op) :
    (w.step op).nextNumber.toNat + pushesTaken (w.step op) ops =
      w.nextNumber.toNat + pushesTaken w (op :: ops) := by
  cases op with
  | push p s =>
    simp only [step, pushesTaken]
    cases hp : (w.push p s).2 with
    | true =>
      rw [push_taken hp]
      simp
      omega
    | false =>
      rw [push_refused hp]
      simp
  | flushWithWriter rtt c s =>
    simp [step, pushesTaken, (w.flushWithWriter_trims rtt c s).next]
  | processAckSegment rtt c ack rto =>
    simp [step, pushesTaken, (w.processAckSegment_trims rtt c ack rto).next]
  | processReceivingNext n | closeWrite => rfl

/-- With fewer than `2 ^ 32 - 1` segments pushed the window keeps its shape exactly when
`close_write` is only called on an empty window: it drops the segments without looking up the first
unacknowledged number again. -/
theorem shape_iff_closesEmpty (conv : UInt16) (config : Config) (ops : List Op)
    (hfew : pushesTaken (new conv config) ops < 2 ^ 32 - 1) :
    Throughout step Shape (new conv config) ops ↔
      Guarded step (fun w op => op.ClosesEmpty w) (new conv config) ops := by
  have hzero : (new conv config).nextNumber.toNat = 0 := rfl
  have hroom (w : SendingWorker) (op : Op) (ops : List Op)
      (h : w.nextNumber.toNat + pushesTaken w (op :: ops) < 2 ^ 32 - 1) :
      w.nextNumber.toNat + 1 < 2 ^ 32 := by omega
  refine throughout_iff_guarded
    (R := fun w ops => w.nextNumber.toNat + pushesTaken w ops < 2 ^ 32 - 1)
    (by omega) (new_shape conv config) ?_ ?_
  · intro w op ops h
    exact next_add_pushesTaken (hroom w op ops h) op ops ▸ h
  · intro w op ops h hshape
    exact step_shape_iff hshape (hroom w op ops h) op

/-- Push, acknowledge, close: the window is empty when it is closed. -/
theorem shape_iff_closesEmpty_drained :
    let ops :=
      [Op.push (Buffer.new.writeFrom [1, 2]).1 .active, .processReceivingNext 1, .closeWrite]
    pushesTaken (new 7 defaultConfig) ops < 2 ^ 32 - 1 ∧
      Throughout step Shape (new 7 defaultConfig) ops := by
  refine ⟨by decide, (shape_iff_closesEmpty 7 defaultConfig _ (by decide)).mpr ?_⟩
  exact ⟨trivial, trivial, rfl, trivial⟩

/-- Push and close: the window is empty and the first unacknowledged number is
still 0, with 1 as the next number. -/
theorem closeWrite_breaks_shape :
    let w := runs step (new 7 defaultConfig)
      [.push (Buffer.new.writeFrom [1, 2]).1 .active, .closeWrite]
    w.window.cache = [] ∧ w.firstUnacknowledged = 0 ∧ w.nextNumber = 1 ∧ ¬w.Shape := by
  refine ⟨by decide, by decide, by decide, ?_⟩
  intro h
  exact absurd h.first (by decide)

/-- A step of a worker, with the first unacknowledged number at its last flush. -/
def stepSeen (s : SendingWorker × UInt32) (op : Op) : SendingWorker × UInt32 :=
  (s.1.step op, match op with
    | .flushWithWriter .. => s.1.firstUnacknowledged
    | _ => s.2)

/-- A flush asks for a ping as it should exactly if it should not. -/
theorem needsPing_iff (conv : UInt16) (config : Config) (ops : List Op) (rtt : RoundTripInfo)
    (current : UInt32) (state : State) :
    let s := runs stepSeen (new conv config, 0) ops
    let needsPing := (s.1.flushWithWriter rtt current state).2.2.needsPing
    ((s.1.window.isEmpty ∧ s.1.firstUnacknowledged ≠ s.2 → needsPing = true) ∧
      (s.1.firstUnacknowledged = s.2 → needsPing = false)) ↔
      ¬(s.1.window.isEmpty ∧ s.1.firstUnacknowledged ≠ s.2) := by
  intro s needsPing
  have hp : needsPing = false := by
    simp only [needsPing, flushWithWriter]
    split <;> rfl
  simp [hp]

/-- The one segment is acknowledged, and the peer is not told. -/
theorem advance_unannounced :
    let rtt := RoundTripInfo.new 50
    let s := runs stepSeen (new 7 defaultConfig, 0)
      [.push (Buffer.new.writeFrom [1]).1 .active, .flushWithWriter rtt 0 .active,
        .processReceivingNext 1]
    s.1.window.isEmpty ∧ s.1.firstUnacknowledged ≠ s.2 ∧
      (s.1.flushWithWriter rtt 10 .active).2.2.needsPing = false := by
  decide

end SendingWorker

end XrayCore.Kcp
