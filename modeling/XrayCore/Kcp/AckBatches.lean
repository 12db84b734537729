import XrayCore.Kcp.Receiving

/-!
# Acknowledgements in batches

A flush goes through the whole list once. `flushLoop_spec` says what it leaves in the list and what
it has filled in, and the rest about a flush is read off it.
-/

namespace XrayCore.Kcp

open Lib Buf List AckSegment AckEntry

def AckEntry.touch (current rto : UInt32) (e : AckEntry) : AckEntry :=
  if current < e.nextFlush then e
  else { e with nextFlush := current + if rto / 2 < 20 then 20 else rto / 2 }

namespace AckFlush

variable {acc : AckFlush}

def listed (acc : AckFlush) : List UInt32 :=
  acc.out.flatMap AckSegment.numberList ++ acc.seg.numberList

structure Fits (size : Nat) (acc : AckFlush) : Prop where
  out : ∀ a ∈ acc.out, a.numberList.length ≤ size
  limit : acc.seg.limit = size
  room : acc.seg.numberList.length < size

theorem put_spec (h : acc.Fits (max 1 (min lim 128))) (e : AckEntry) :
    (acc.put lim e).listed = acc.listed ++ [e.number] ∧ (acc.put lim e).Fits (max 1 (min lim 128)) ∧
      (acc.put lim e).candidates = acc.candidates := by
  set seg := (acc.seg.putNumber e.number).putTimestamp e.timestamp with hseg
  have hn : seg.numberList = acc.seg.numberList ++ [e.number] := by
    rw [hseg, putTimestamp]
    split <;> rfl
  have hl : seg.limit = max 1 (min lim 128) := by
    rw [hseg, putTimestamp, ← h.limit]
    split <;> rfl
  have hr := h.room
  simp only [put, ← hseg]
  split
  next hfull =>
    rw [isFull, beq_iff_eq, hl] at hfull
    refine ⟨by simp [listed, hn, AckSegment.new],
      ⟨?_, rfl, lt_of_lt_of_le one_pos (le_max_left ..)⟩, rfl⟩
    intro a ha
    rcases mem_append.mp ha with ha | ha
    · exact h.out a ha
    · rw [mem_singleton.mp ha]
      exact hfull.le
  next hfull =>
    rw [isFull, beq_iff_eq, hl] at hfull
    refine ⟨by simp [listed, hn], ⟨h.out, hl, ?_⟩, rfl⟩
    simp only [hn, length_append, length_singleton] at hfull ⊢
    omega

end AckFlush

namespace AckList

theorem flushLoop_spec (cur rto : UInt32) (lim : Nat) (es : List AckEntry) (acc : AckFlush)
    (h : acc.Fits (max 1 (min lim 128))) : let r := flushLoop cur rto lim es acc
      r.1 = es.map (·.touch cur rto) ∧ r.2.Fits (max 1 (min lim 128)) ∧
        r.2.listed = acc.listed ++ (es.filter (·.nextFlush ≤ cur)).map number ∧
        ∀ n ∈ r.2.candidates, n ∈ acc.candidates ∨ n ∈ es.map number := by
  induction es generalizing acc with
  | nil => simpa [flushLoop] using h
  | cons e es ih =>
    rw [flushLoop]
    split
    next hl =>
      have hp : (acc.postpone e).out = acc.out ∧ (acc.postpone e).seg = acc.seg ∧
          ∀ n ∈ (acc.postpone e).candidates, n ∈ acc.candidates ∨ n = e.number := by
        rw [AckFlush.postpone]
        split <;> simp +contextual
      obtain ⟨ho, hs, hc⟩ := hp
      obtain ⟨h1, h2, h3, h4⟩ := ih (acc.postpone e) ⟨ho ▸ h.out, hs ▸ h.limit, hs ▸ h.room⟩
      refine ⟨by simp [h1, touch, hl], h2, ?_, fun n hn => ?_⟩
      · have hpl : (acc.postpone e).listed = acc.listed := by
          rw [AckFlush.listed, ho, hs, AckFlush.listed]
        simp [h3, hpl, UInt32.not_le.mpr hl]
      rcases h4 n hn with hn | hn
      · rcases hc n hn with hn | rfl
        · exact .inl hn
        · exact .inr mem_cons_self
      · exact .inr (mem_cons_of_mem _ hn)
    next hl =>
      obtain ⟨hp, hf, hc⟩ := AckFlush.put_spec h e
      obtain ⟨h1, h2, h3, h4⟩ := ih _ hf
      refine ⟨by simp [h1, touch, hl], h2, ?_, fun n hn => ?_⟩
      · simp [h3, hp, UInt32.not_lt.mp hl]
      · rcases h4 n hn with hn | hn
        · exact .inl (hc ▸ hn)
        · exact .inr (mem_cons_of_mem _ hn)

theorem fillLoop_spec (cands : List UInt32) (seg : AckSegment)
    (h : seg.numberList.length ≤ seg.limit) :
    ∃ more, (fillLoop cands seg).numberList = seg.numberList ++ more ∧ more ⊆ cands ∧
      (fillLoop cands seg).numberList.length ≤ seg.limit := by
  induction cands generalizing seg with
  | nil => exact ⟨[], by simp [fillLoop], by simp, h⟩
  | cons n cands ih =>
    rw [fillLoop]
    split
    next => exact ⟨[], by simp, by simp, h⟩
    next hfull =>
      rw [isFull, beq_iff_eq] at hfull
      have hle : (seg.putNumber n).numberList.length ≤ seg.limit := by
        simp [putNumber]
        omega
      obtain ⟨more, hm, hs, hl⟩ := ih (seg.putNumber n) hle
      refine ⟨n :: more, ?_, cons_subset_cons n hs, hl⟩
      rw [hm]
      simp [putNumber]

/-- What a flush sends: the numbers that are due, and after them some that are not. -/
theorem flush_spec (l : AckList) (cur rto : UInt32) :
    (l.flush cur rto).1 = { l with entries := l.entries.map (·.touch cur rto), dirty := false } ∧
    (∃ more ⊆ l.numbers, (l.flush cur rto).2.flatMap AckSegment.numberList =
      (l.entries.filter (·.nextFlush ≤ cur)).map number ++ more) ∧
    ∀ a ∈ (l.flush cur rto).2, a.numberList.length ≤ max 1 (min l.limit 128) := by
  obtain ⟨h1, h2, h3, h4⟩ := flushLoop_spec cur rto l.limit l.entries
    ⟨[], .new l.limit, [], l.dirty⟩ ⟨by simp, rfl, lt_of_lt_of_le one_pos (le_max_left ..)⟩
  rw [flush]
  generalize flushLoop cur rto l.limit l.entries ⟨[], .new l.limit, [], l.dirty⟩ = r at *
  dsimp only
  split
  next =>
    obtain ⟨more, hm, hs, hl⟩ := fillLoop_spec r.2.candidates r.2.seg (h2.limit ▸ h2.room.le)
    refine ⟨by rw [h1], ⟨more, fun n hn => ?_, ?_⟩, fun a ha => ?_⟩
    · exact (h4 n (hs hn)).resolve_left not_mem_nil
    · simpa [AckFlush.listed, AckSegment.new, hm, ← append_assoc] using h3
    · rcases mem_append.mp ha with ha | ha
      · exact h2.out a ha
      · rw [mem_singleton.mp ha, ← h2.limit]
        exact hl
  next hd =>
    simp only [Bool.or_eq_true, Bool.not_eq_true', not_or, Bool.not_eq_true, AckSegment.isEmpty,
      isEmpty_eq_false_iff, ne_eq, not_not] at hd
    refine ⟨by rw [h1, hd.1], ⟨[], by simp, ?_⟩, h2.out⟩
    simpa [AckFlush.listed, AckSegment.new, hd.2] using h3

theorem flushLoop_of_throttled (rto : UInt32) (lim : Nat) (acc : AckFlush)
    (h : ∀ e ∈ es, cur < e.nextFlush) :
    ∃ cands, (flushLoop cur rto lim es acc).2 = { acc with candidates := cands } := by
  induction es generalizing acc with
  | nil => exact ⟨acc.candidates, rfl⟩
  | cons e es ih =>
    obtain ⟨he, h⟩ := forall_mem_cons.mp h
    obtain ⟨cands, hc⟩ := ih (acc.postpone e) h
    refine ⟨cands, ?_⟩
    rw [flushLoop, if_pos he, hc, AckFlush.postpone]
    split <;> rfl

theorem flush_eq_nil_iff (l : AckList) (cur rto : UInt32) :
    (l.flush cur rto).2 = [] ↔ l.dirty = false ∧ ∀ e ∈ l.entries, cur < e.nextFlush := by
  by_cases hall : ∀ e ∈ l.entries, cur < e.nextFlush
  · obtain ⟨cands, hc⟩ := flushLoop_of_throttled rto l.limit ⟨[], .new l.limit, [], l.dirty⟩ hall
    rw [flush]
    simp only [hc]
    cases l.dirty
    · simpa [AckSegment.new, AckSegment.isEmpty] using hall
    · simp
  · refine iff_of_false (fun hn => hall fun e he => ?_) fun h => hall h.2
    obtain ⟨-, ⟨more, -, hm⟩, -⟩ := l.flush_spec cur rto
    rw [hn, flatMap_nil, eq_comm, append_eq_nil_iff, map_eq_nil_iff, filter_eq_nil_iff] at hm
    simpa using hm.1 e he

theorem flush_numbers (l : AckList) (cur rto : UInt32) : (l.flush cur rto).1.numbers = l.numbers ∧
      ∀ a ∈ (l.flush cur rto).2, ∀ n ∈ a.numberList, n ∈ l.numbers := by
  obtain ⟨hl, ⟨more, hs, hm⟩, -⟩ := l.flush_spec cur rto
  have ht : ∀ e : AckEntry, (e.touch cur rto).number = e.number := by
    intro e
    rw [touch]
    split <;> rfl
  refine ⟨by simp [hl, numbers, ht], fun a ha n hn => ?_⟩
  have hin := hm ▸ mem_flatMap.mpr ⟨a, ha, hn⟩
  rcases mem_append.mp hin with hin | hin
  · exact (filter_sublist.map _).subset hin
  · exact hs hin

theorem flush_lists (l : AckList) (cur rto : UInt32) (he : e ∈ l.entries)
    (hd : e.nextFlush ≤ cur) : ∃ a ∈ (l.flush cur rto).2, e.number ∈ a.numberList := by
  obtain ⟨-, ⟨more, -, hm⟩, -⟩ := l.flush_spec cur rto
  refine mem_flatMap.mp (hm ▸ mem_append_left _ (mem_map_of_mem ?_))
  simp [he, hd]

/-- A flush sends what is due in order and then only numbers of the list, in segments that fit. A
second one at the same time sends nothing if the times of the next flush do not wrap around. -/
theorem flush_batches (l : AckList) (current rto : UInt32) :
    (∃ more ⊆ l.numbers, (l.flush current rto).2.flatMap AckSegment.numberList =
      (l.entries.filter (·.nextFlush ≤ current)).map number ++ more) ∧
    (∀ a ∈ (l.flush current rto).2,
      a.numberList.length ≤ max 1 (min ((l.mss - 17) / 4) ACK_NUMBER_LIMIT) ∧
      a.serialize.length ≤ max l.mss 21 ∧
      (UInt8.ofNat a.numberList.length).toNat = a.numberList.length) ∧
    ∀ rto', ((l.flush current rto).1.flush current rto').2 = [] ↔
      (∀ e ∈ l.entries, current < e.nextFlush) ∨
        current.toNat + max 20 (rto.toNat / 2) < 2 ^ 32 := by
  obtain ⟨hl, hmore, hsize⟩ := l.flush_spec current rto
  refine ⟨hmore, fun a ha => ?_, fun rto' => ?_⟩
  · have hle := hsize a ha
    have hser : a.serialize.length = 17 + 4 * a.numberList.length := by
      simp [serialize, body, header]
      omega
    rw [limit] at hle
    refine ⟨hle, by omega, ?_⟩
    rw [UInt8.toNat_ofNat']
    omega
  · have ht : (if rto / 2 < 20 then 20 else rto / 2 : UInt32).toNat = max 20 (rto.toNat / 2) := by
      split
      next h =>
        have := UInt32.lt_iff_toNat_lt.mp h
        simp at this
        simp
        omega
      next h =>
        have := UInt32.le_iff_toNat_le.mp (UInt32.not_lt.mp h)
        simp at this
        simp
        omega
    have hlt := rto.toNat_lt
    have hcl := current.toNat_lt
    -- an entry that was due is not due again unless its next time wrapped around
    have hone (e : AckEntry) : current < (e.touch current rto).nextFlush ↔
        current < e.nextFlush ∨ current.toNat + max 20 (rto.toNat / 2) < 2 ^ 32 := by
      rw [touch]
      split
      next h => simp [h]
      next h =>
        rw [UInt32.lt_iff_toNat_lt]
        simp [ht, h]
        omega
    rw [flush_eq_nil_iff, hl]
    simp only [true_and, forall_mem_map, hone]
    by_cases hw : current.toNat + max 20 (rto.toNat / 2) < 2 ^ 32
    · simp only [hw, or_true, implies_true]
    · simp only [hw, or_false]

theorem flush_repeats :
    let l : AckList := ⟨[⟨5, 0, 0⟩], true, 1000⟩
    ((l.flush 0xFFFFFFFF 100).1.flush 0xFFFFFFFF 100).2.map AckSegment.numberList = [[5]] := by
  decide

end AckList

end XrayCore.Kcp
