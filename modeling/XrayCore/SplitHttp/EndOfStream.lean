import XrayCore.Lib.Runs
import XrayCore.SplitHttp.UploadQueue

/-!
# When a read reports the end of the stream

The caller of `read` takes `Ok(0)` as the end of the stream. A read returns it where the closed
queue has nothing under the next number, but also after taking up a packet without bytes, and on a
closed queue whose heap has the next packet behind a stale one.
-/

namespace XrayCore.SplitHttp

open Lib List MinHeap

namespace UploadQueue

variable {H : Type} [MinHeap H Packet Packet.seq] {q : UploadQueue H}

def Blocked (q : UploadQueue H) : Prop :=
  ∀ top, peek q.heap = some top → top.seq ≠ q.nextSeq

omit [MinHeap H Packet Packet.seq] in
theorem consume_eof_iff (q : UploadQueue H) (packet : Packet) (hw : 0 < want) :
    (q.consume packet want).1 = .ok [] ↔ packet.payload = [] := by
  have hr : (q.consume packet want).1 = .ok (packet.payload.take want) := by
    unfold consume
    simp only
    split <;> simp
  rw [hr, ReadResult.ok.injEq, take_eq_nil_iff]
  exact ⟨fun h => h.resolve_left hw.ne', .inr⟩

theorem len_eq_zero_of_peek_none (h : peek q.heap = none) : MinHeap.len q.heap = 0 := by
  rw [MinHeap.len, elems_of_peek_none h, Multiset.card_zero]

theorem ready_eq_none (hc : q.current = none) (hb : q.Blocked)
    (hl : MinHeap.len q.heap ≤ q.maxPackets) : q.ready want = none := by
  unfold ready
  cases hp : peek q.heap with
  | none => simp only [hc]
  | some top => simp [hc, if_neg (hb top hp), if_neg (not_lt.mpr hl)]

theorem ready_overflow (hc : q.current = none) (hb : q.Blocked)
    (hl : q.maxPackets < MinHeap.len q.heap) :
    q.ready want = some (.err (.packetQueueTooLarge q.maxPackets (MinHeap.len q.heap)), q) := by
  unfold ready
  cases hp : peek q.heap with
  | none =>
    rw [len_eq_zero_of_peek_none hp] at hl
    exact absurd hl (Nat.not_lt_zero _)
  | some top => simp [hc, if_neg (hb top hp), if_pos hl]

theorem readLoop_of_ready (h : q.ready want = some out) (ch : List Packet) :
    readLoop want ch q = out := by
  cases ch <;> simp [readLoop, h]

theorem readLoop_eof_iff (hw : 0 < want) (ch : List Packet) (q : UploadQueue H)
    (hc : q.current = none) (hb : q.Blocked) (hl : MinHeap.len q.heap ≤ q.maxPackets) :
    (readLoop want ch q).1 = .ok [] ↔
      MinHeap.len q.heap + (ch.takeWhile fun p => p.seq ≠ q.nextSeq).countP
          (fun p => q.nextSeq < p.seq) ≤ q.maxPackets ∧
        ∃ p, ch.find? (fun p => p.seq = q.nextSeq) = some p ∧ p.payload = [] := by
  induction ch generalizing q with
  | nil =>
    simp [readLoop, ready_eq_none hc hb hl, reduceCtorEq]
  | cons pa rest ih =>
    simp only [readLoop, ready_eq_none hc hb hl]
    split
    · next hse =>
      have hr : ready { q with pushed := some rest, current := some pa } want =
        some (UploadQueue.consume _ pa want) := rfl
      rw [readLoop_of_ready hr, consume_eof_iff _ _ hw]
      simp [hse, hl]
    · next hse =>
      have hwh : ((pa :: rest).takeWhile fun p => p.seq ≠ q.nextSeq) =
          pa :: rest.takeWhile fun p => p.seq ≠ q.nextSeq :=
        takeWhile_cons_of_pos (decide_eq_true hse)
      have hfi : ((pa :: rest).find? fun p => p.seq = q.nextSeq) =
          rest.find? fun p => p.seq = q.nextSeq :=
        List.find?_cons_of_neg (by simpa using hse)
      rw [hwh, hfi]
      split
      · next hs =>
        rw [ih { q with pushed := some rest } hc hb hl,
          countP_cons_of_neg (by simpa using le_of_lt hs)]
      · next hs =>
        have ha : q.nextSeq < pa.seq := by omega
        rw [countP_cons_of_pos (by simpa using ha), ← add_assoc, add_right_comm,
          ← MinHeap.len_push q.heap pa]
        split
        · next hf =>
          simp only [reduceCtorEq, false_iff, not_and]
          intro hroom
          exact absurd (le_trans (Nat.le_add_right _ _) hroom) (not_le.mpr hf)
        · next hf =>
          exact ih { q with pushed := some rest, heap := MinHeap.push q.heap pa } hc
            (MinHeap.peek_key_ne_push hb ha) (not_lt.mp hf)

def Available (q : UploadQueue H) : Prop :=
  q.current.isSome ∨ (∃ p ∈ elems q.heap, p.seq = q.nextSeq) ∨
    ∃ p ∈ q.pushed.getD [], p.seq = q.nextSeq

/-- A read takes up no packet without bytes, wherever it finds the next packet,
and a closed queue hides no next packet behind a stale one. -/
structure Clean (q : UploadQueue H) : Prop where
  current : ∀ p, q.current = some p → p.payload ≠ []
  top : q.current = none → ∀ p, peek q.heap = some p → p.seq = q.nextSeq → p.payload ≠ []
  channel : q.current = none → q.Blocked → ∀ channel, q.pushed = some channel →
    MinHeap.len q.heap + (channel.takeWhile fun p => p.seq ≠ q.nextSeq).countP
        (fun p => q.nextSeq < p.seq) ≤ q.maxPackets →
      ∀ p, channel.find? (fun p => p.seq = q.nextSeq) = some p → p.payload ≠ []
  hidden : q.current = none → q.Blocked → q.pushed = none →
    MinHeap.len q.heap ≤ q.maxPackets → ∀ p ∈ elems q.heap, p.seq ≠ q.nextSeq

/-- An end of stream is reported only when the queue is closed and the next
packet is not there. -/
def EofOk (q : UploadQueue H) (want : Nat) : Prop :=
  (q.read want).1 = .ok [] → q.closed = true ∧ ¬q.Available

theorem read_of_ready (h : q.ready want = some out) : q.read want = out := by
  unfold read
  split
  · exact readLoop_of_ready h _
  · rw [h, Option.getD_some]

theorem eofOk_iff_of_consume (hw : 0 < want) (q' : UploadQueue H)
    (hr : q.ready want = some (q'.consume p want)) (ha : q.Available) :
    q.EofOk want ↔ p.payload ≠ [] := by
  rw [EofOk, read_of_ready hr, consume_eof_iff _ _ hw]
  exact ⟨fun h hn => (h hn).2 ha, fun h hn => absurd hn h⟩

theorem clean_iff_current (hc : q.current = some p) : q.Clean ↔ p.payload ≠ [] := by
  constructor
  · intro h
    exact h.current p hc
  intro hp
  refine ⟨?_, ?_, ?_, ?_⟩
  · rintro p' hp'
    cases hc.symm.trans hp'
    exact hp
  · intro hn
    cases hc.symm.trans hn
  · intro hn
    cases hc.symm.trans hn
  · intro hn
    cases hc.symm.trans hn

theorem clean_iff_top (hc : q.current = none) (hpe : peek q.heap = some p)
    (hs : p.seq = q.nextSeq) : q.Clean ↔ p.payload ≠ [] := by
  constructor
  · intro h
    exact h.top hc p hpe hs
  intro hp
  refine ⟨?_, ?_, ?_, ?_⟩
  · intro p' hsome
    cases hc.symm.trans hsome
  · intro _ p' hp' _
    cases hpe.symm.trans hp'
    exact hp
  · intro _ hb
    exact absurd hs (hb p hpe)
  · intro _ hb
    exact absurd hs (hb p hpe)

theorem clean_iff_open (hc : q.current = none) (hb : q.Blocked) (hp : q.pushed = some channel) :
    q.Clean ↔ (MinHeap.len q.heap + (channel.takeWhile fun p => p.seq ≠ q.nextSeq).countP
        (fun p => q.nextSeq < p.seq) ≤ q.maxPackets →
      ∀ p, channel.find? (fun p => p.seq = q.nextSeq) = some p → p.payload ≠ []) := by
  constructor
  · intro h
    exact h.channel hc hb channel hp
  intro hall
  refine ⟨?_, ?_, ?_, ?_⟩
  · intro p hsome
    cases hc.symm.trans hsome
  · intro _ p hpe hs
    exact absurd hs (hb p hpe)
  · intro _ _ c' hp'
    cases hp.symm.trans hp'
    exact hall
  · intro _ _ hn
    cases hp.symm.trans hn

theorem clean_iff_closed (hc : q.current = none) (hb : q.Blocked) (hp : q.pushed = none) :
    q.Clean ↔ (MinHeap.len q.heap ≤ q.maxPackets → ∀ p ∈ elems q.heap, p.seq ≠ q.nextSeq) := by
  constructor
  · intro h
    exact h.hidden hc hb hp
  intro hall
  refine ⟨?_, ?_, ?_, fun _ _ _ => hall⟩
  · intro p hsome
    cases hc.symm.trans hsome
  · intro _ p hpe hs
    exact absurd hs (hb p hpe)
  · intro _ _ c hsome
    cases hp.symm.trans hsome

theorem eofOk_iff_clean_open (ho : q.closed = false) (hw : 0 < want)
    (hc : q.current = none) (hb : q.Blocked)
    (hl : MinHeap.len q.heap ≤ q.maxPackets) (hpu : q.pushed = some channel) :
    q.EofOk want ↔ q.Clean := by
  rw [clean_iff_open hc hb hpu, EofOk, read, hpu, readLoop_eof_iff hw channel q hc hb hl]
  constructor
  · intro h hroom p hp hn
    exact Bool.eq_false_iff.mp ho (h ⟨hroom, p, hp, hn⟩).1
  · rintro h ⟨hroom, p, hp, hn⟩
    exact absurd hn (h hroom p hp)

theorem eofOk_iff_clean_closed (hcl : q.closed = true) (hc : q.current = none)
    (hb : q.Blocked) (hl : MinHeap.len q.heap ≤ q.maxPackets) (hpu : q.pushed = none) :
    q.EofOk want ↔ q.Clean := by
  rw [clean_iff_closed hc hb hpu, EofOk, read, hpu, ready_eq_none hc hb hl]
  constructor
  · intro h _ p hp hs
    exact (h rfl).2 (.inr (.inl ⟨p, hp, hs⟩))
  intro h _
  refine ⟨hcl, ?_⟩
  rintro (hsome | ⟨p, hp, hs⟩ | ⟨p, hp, -⟩)
  · rw [hc] at hsome
    cases hsome
  · exact h hl p hp hs
  · rw [hpu] at hp
    cases hp

theorem eofOk_iff_clean_over (hc : q.current = none) (hb : q.Blocked)
    (ho : q.maxPackets < MinHeap.len q.heap) : q.EofOk want ↔ q.Clean := by
  have he : q.EofOk want := by
    rw [EofOk, read_of_ready (ready_overflow hc hb ho)]
    intro h
    cases h
  refine iff_of_true he ?_
  cases hp : q.pushed with
  | some c =>
    rw [clean_iff_open hc hb hp]
    intro hroom
    exact absurd (le_trans (Nat.le_add_right _ _) hroom) (not_le.mpr ho)
  | none =>
    rw [clean_iff_closed hc hb hp]
    intro hl
    exact absurd hl (not_le.mpr ho)

theorem eofOk_iff_clean (hcl : q.closed = true ↔ q.pushed = none) (hw : 0 < want) :
    q.EofOk want ↔ q.Clean := by
  cases hc : q.current with
  | some p =>
    have hr : q.ready want = some (q.consume p want) := by simp only [ready, hc]
    rw [eofOk_iff_of_consume hw q hr (.inl (by rw [hc]; rfl)), clean_iff_current hc]
  | none =>
    by_cases hb : q.Blocked
    · rcases lt_or_ge q.maxPackets (MinHeap.len q.heap) with ho | hl
      · exact eofOk_iff_clean_over hc hb ho
      cases hpu : q.pushed with
      | some c =>
        have hop : q.closed = false := by
          refine Bool.eq_false_iff.mpr fun h => ?_
          cases hpu.symm.trans (hcl.mp h)
        exact eofOk_iff_clean_open hop hw hc hb hl hpu
      | none =>
        exact eofOk_iff_clean_closed (hcl.mpr hpu) hc hb hl hpu
    · obtain ⟨p, hp⟩ := not_forall.mp hb
      obtain ⟨hpe, hne⟩ := Classical.not_imp.mp hp
      have hs := Decidable.not_not.mp hne
      have hr : q.ready want = some (consume { q with heap := pop q.heap } p want) := by
        simp [ready, hc, hpe, hs, ↓reduceIte]
      rw [eofOk_iff_of_consume hw _ hr (.inr (.inl ⟨p, peek_mem hpe, hs⟩)), clean_iff_top hc hpe hs]

inductive Op
  | push (packet : Packet)
  | read (want : Nat)
  | close

def step (q : UploadQueue H) : Op → UploadQueue H
  | .push packet =>
    match q.push packet with
    | .ok q' => q'
    | .error _ => q
  | .read want => (q.read want).2
  | .close => q.close

theorem ready_keeps (h : q.ready want = some out) :
    out.2.closed = q.closed ∧ out.2.pushed = q.pushed := by
  have hc (q : UploadQueue H) (p : Packet) :
      (q.consume p want).2.closed = q.closed ∧ (q.consume p want).2.pushed = q.pushed := by
    unfold consume
    simp only
    split <;> exact ⟨rfl, rfl⟩
  unfold ready at h
  split at h
  · cases h
    exact hc q _
  split at h
  · split at h
    · cases h
      exact hc _ _
    split at h
    · cases h
      exact ⟨rfl, rfl⟩
    · cases h
  · cases h

theorem readLoop_keeps_of_ready (hr : q.ready want = some out) (ho : q.pushed.isSome)
    (ch : List Packet) : (readLoop want ch q).2.closed = q.closed ∧
      (readLoop want ch q).2.pushed.isSome := by
  obtain ⟨hc, hp⟩ := ready_keeps hr
  rw [readLoop_of_ready hr, hp]
  exact ⟨hc, ho⟩

theorem readLoop_keeps (want : Nat) (ch : List Packet) (q : UploadQueue H)
    (ho : q.pushed.isSome) : (readLoop want ch q).2.closed = q.closed ∧
      (readLoop want ch q).2.pushed.isSome := by
  induction ch generalizing q with
  | nil =>
    cases hr : q.ready want with
    | some out => exact readLoop_keeps_of_ready hr ho []
    | none =>
      simp only [readLoop, hr, Option.getD_none]
      exact ⟨trivial, ho⟩
  | cons p rest ih =>
    cases hr : q.ready want with
    | some out => exact readLoop_keeps_of_ready hr ho (p :: rest)
    | none =>
      simp only [readLoop, hr]
      split
      · exact ih _ rfl
      split
      · exact ih _ rfl
      · split
        · exact ⟨rfl, rfl⟩
        · exact ih _ rfl

def ClosedOk (q : UploadQueue H) : Prop := q.closed = true ↔ q.pushed = none

theorem ClosedOk.step (h : q.ClosedOk) (op : Op) : (q.step op).ClosedOk := by
  cases op with
  | push p =>
    simp only [UploadQueue.step, push]
    cases hp : q.pushed with
    | none => exact h
    | some c =>
      simp only [ClosedOk, hp, reduceCtorEq, iff_false] at h ⊢
      exact h
  | read want =>
    simp only [UploadQueue.step, read]
    cases hp : q.pushed with
    | none =>
      cases hr : q.ready want with
      | none => exact h
      | some out =>
        obtain ⟨hc, hs⟩ := ready_keeps hr
        rw [ClosedOk, Option.getD_some, hc, hs]
        exact h
    | some c =>
      obtain ⟨hc, ho⟩ := readLoop_keeps want c q (by rw [hp]; rfl)
      rw [ClosedOk, hp] at h
      rw [ClosedOk, hc, Option.isSome_iff_ne_none.mp ho |> eq_false]
      simpa using h
  | close => exact ⟨fun _ => rfl, fun _ => rfl⟩

def Op.EofOk (q : UploadQueue H) : Op → Prop
  | .read want => 0 < want → q.EofOk want
  | _ => True

def Op.Clean (q : UploadQueue H) : Op → Prop
  | .read want => 0 < want → q.Clean
  | _ => True

/-- Over every run, all reads are right about the end of the stream exactly when
all of them find a clean queue. -/
theorem eofOk_iff_clean_runs (maxPackets : Nat) (ops : List Op) :
    Guarded step (fun q op => op.EofOk q) (new maxPackets : UploadQueue H) ops ↔
      Guarded step (fun q op => op.Clean q) (new maxPackets : UploadQueue H) ops := by
  have hstart : (new maxPackets : UploadQueue H).ClosedOk := ⟨nofun, nofun⟩
  refine guarded_congr hstart (fun q op h => h.step op) ?_
  intro q op h
  cases op with
  | push packet => exact Iff.rfl
  | read want => exact forall_congr' fun hwant => eofOk_iff_clean h hwant
  | close => exact Iff.rfl

/-- The open queue holds an empty packet 0 and packet 1: the read returns
`Ok(0)`. -/
theorem empty_packet_reads_as_end :
    let q := runs step (new 10 : UploadQueue (SortedHeap Packet Packet.seq))
      [.push ⟨[], 0⟩, .push ⟨[97], 1⟩]
    (q.read 8).1 = .ok [] ∧ q.closed = false ∧ q.Available ∧ ¬q.EofOk 8 := by
  intro q
  have hread : (q.read 8).1 = .ok [] := by decide
  have hopen : q.closed = false := rfl
  refine ⟨hread, hopen, .inr (.inr ⟨⟨[], 0⟩, by decide, rfl⟩), ?_⟩
  intro h
  exact Bool.false_ne_true (hopen.symm.trans (h hread).1)

end UploadQueue

end XrayCore.SplitHttp
