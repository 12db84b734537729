import XrayCore.Kcp.InFlight
import XrayCore.Kcp.Receiving

/-!
# Where numbers and clocks wrap

Some comparisons of the protocol go by the wrapped difference, others by the numbers as they are. A
segment that was never sent has the timeout 0, which in the second half of the clock's range is
ahead of the clock.
-/

namespace XrayCore.Kcp

open Lib Buf List

/-- The order of `process_ack`. -/
abbrev Precedes (number una : UInt32) : Prop := 0x7FFFFFFF < number - una

/-- The numbers differ by no more than half of the range, without wrapping. -/
abbrev Near (number una : UInt32) : Prop :=
  number.toNat < una.toNat + 2 ^ 31 ∧ una.toNat ≤ number.toNat + 2 ^ 31

namespace SendingWindow

/-- The windows that there are after so many flushes. -/
inductive Reach : Nat → SendingWindow → Prop
  | new : Reach 0 .new
  | push (h : Reach k w) (number : UInt32) (payload : Buffer) : Reach k (w.push number payload)
  | release (h : Reach k w) : Reach k w.release
  | clearBefore (h : Reach k w) (una : UInt32) : Reach k (w.clearBefore una)
  | handleFastAck (h : Reach k w) (number rto : UInt32) : Reach k (w.handleFastAck number rto)
  | remove (h : Reach k w) (number : UInt32) : Reach k (w.remove number).1
  | prepareFlush (h : Reach k w) (current rto maxInFlight : UInt32) (conv : UInt16) (state : State)
      (una : UInt32) : Reach (k + 1) (w.prepareFlush current rto maxInFlight conv state una).1

variable {w : SendingWindow} {before rest after cache : List DataSegment} {seg : DataSegment}

/-- A segment that was sent at most so often. -/
def Aged (k : Nat) (seg : DataSegment) : Prop :=
  seg.transmit.toNat ≤ k ∧ (seg.transmit = 0 → seg.timeout = 0)

theorem fastAckLoop_aged (h : ∀ seg ∈ cache, Aged k seg) :
    ∀ seg ∈ fastAckLoop number rto cache, Aged k seg := by
  induction cache with
  | nil => exact h
  | cons seg rest ih =>
    obtain ⟨hs, hrest⟩ := forall_mem_cons.mp h
    rw [fastAckLoop]
    split
    · exact h
    refine forall_mem_cons.mpr ⟨?_, ih hrest⟩
    split
    next ht =>
      refine ⟨hs.1, ?_⟩
      intro h0
      have hlt : 0 < (0 : UInt32) := (show seg.transmit = 0 from h0) ▸ ht.1
      exact absurd hlt (by decide)
    · exact hs

theorem prepareLoop_aged (hk : k + 1 < 2 ^ 32) (h : ∀ seg ∈ cache, Aged k seg)
    (acc : FlushPreparation) :
    ∀ seg ∈ (prepareLoop current rto lim conv state una cache acc).1, Aged (k + 1) seg := by
  have hold {seg : DataSegment} (hs : Aged k seg) : Aged (k + 1) seg := ⟨hs.1.trans k.le_succ, hs.2⟩
  induction cache generalizing acc with
  | nil => exact nofun
  | cons seg rest ih =>
    obtain ⟨hs, hrest⟩ := forall_mem_cons.mp h
    have hst : Aged (k + 1) (stamp current rto conv state una seg) := by
      have ht : (seg.transmit + 1).toNat = seg.transmit.toNat + 1 :=
        toNat_add_one (lt_of_le_of_lt (Nat.succ_le_succ hs.1) hk)
      refine ⟨ht ▸ Nat.succ_le_succ hs.1, ?_⟩
      intro h0
      have h0 : seg.transmit + 1 = 0 := h0
      rw [h0] at ht
      cases ht
    simp only [prepareLoop]
    split
    · split
      · exact forall_mem_cons.mpr ⟨hst, fun s hm => hold (hrest s hm)⟩
      · exact forall_mem_cons.mpr ⟨hst, ih hrest _⟩
    · exact forall_mem_cons.mpr ⟨hold hs, ih hrest _⟩

theorem Reach.aged (h : Reach k w) (hk : k < 2 ^ 32) : ∀ seg ∈ w.cache, Aged k seg := by
  induction h with
  | new => exact nofun
  | push h num payload ih =>
    intro seg hm
    rcases mem_append.mp hm with hm | hm
    · exact ih hk seg hm
    · rw [mem_singleton.mp hm]
      exact ⟨Nat.zero_le _, fun _ => rfl⟩
  | release => exact nofun
  | clearBefore h una ih => exact fun seg hm => ih hk seg ((dropWhile_sublist _).subset hm)
  | handleFastAck h num rto ih =>
    rw [SendingWindow.handleFastAck]
    split
    · exact ih hk
    · exact fastAckLoop_aged (ih hk)
  | remove h num ih => exact fun seg hm => ih hk seg ((remove_sublist _ num).subset hm)
  | prepareFlush h _ _ _ _ _ _ ih => exact prepareLoop_aged hk (ih (by omega)) _

theorem prepareLoop_toSend (cache : List DataSegment) (acc : FlushPreparation) :
    acc.toSend ⊆ (prepareLoop current rto lim conv state una cache acc).2.toSend := by
  induction cache generalizing acc with
  | nil => exact List.Subset.refl _
  | cons seg rest ih =>
    have hr : acc.toSend ⊆ (acc.record seg (stamp current rto conv state una seg)).toSend :=
      subset_append_left ..
    simp only [prepareLoop]
    split
    · split
      · exact hr
      · exact List.Subset.trans hr (ih _)
    · exact ih _

theorem prepareLoop_at (rto : UInt32) (conv : UInt16) (state : State) (una : UInt32)
    (seg : DataSegment) (after : List DataSegment) (acc : FlushPreparation)
    (hl : acc.inFlight.toNat + before.countP (due current) < max 1 lim.toNat) :
    let out := prepareLoop current rto lim conv state una (before ++ seg :: after) acc
    if due current seg then
      out.1[before.length]? = some (stamp current rto conv state una seg) ∧
        cloneForSend (stamp current rto conv state una seg) ∈ out.2.toSend
    else out.1[before.length]? = some seg := by
  induction before generalizing acc with
  | nil =>
    have hm : cloneForSend (stamp current rto conv state una seg) ∈
        (acc.record seg (stamp current rto conv state una seg)).toSend :=
      mem_append_right _ mem_cons_self
    simp only [nil_append, prepareLoop]
    split
    · split
      · exact ⟨rfl, hm⟩
      · exact ⟨rfl, prepareLoop_toSend _ _ hm⟩
    · rfl
  | cons s rest ih =>
    rw [countP_cons] at hl
    simp only [cons_append, prepareLoop, length_cons]
    by_cases hd : due current s = true
    · rw [if_pos hd] at hl
      have hlim := lim.toNat_lt
      have hin : (acc.inFlight + 1).toNat = acc.inFlight.toNat + 1 := toNat_add_one (by omega)
      have hgo : ¬lim ≤ (acc.record s (stamp current rto conv state una s)).inFlight := by
        rw [UInt32.le_iff_toNat_le]
        change ¬lim.toNat ≤ (acc.inFlight + 1).toNat
        omega
      simp only [hd, hgo, ↓reduceIte, getElem?_cons_succ]
      refine ih _ ?_
      change (acc.inFlight + 1).toNat + _ < _
      omega
    · rw [if_neg hd] at hl
      simp only [hd, Bool.false_eq_true, ↓reduceIte, getElem?_cons_succ]
      exact ih acc hl

/-- A segment that was never sent, before the limit is reached, goes out exactly in the first half
of the clock's range. -/
theorem sends_fresh_iff (hw : Reach k w) (hk : k < 2 ^ 32) (hc : w.cache = before ++ seg :: after)
    (hs : seg.transmit = 0) (current rto maxInFlight : UInt32)
    (hl : before.countP (due current) < max 1 maxInFlight.toNat) (conv : UInt16) (state : State)
    (una : UInt32) :
    let out := w.prepareFlush current rto maxInFlight conv state una
    (out.1.cache[before.length]? = some (stamp current rto conv state una seg) ∧
      cloneForSend (stamp current rto conv state una seg) ∈ out.2.toSend) ↔
      current < 0x7FFFFFFF := by
  have ht : seg.timeout = 0 := (hw.aged hk seg (by simp [hc])).2 hs
  have hat := prepareLoop_at rto conv state una seg after ⟨[], 0, 0, w.totalInFlightSize⟩ (by simpa using hl)
  have hd : due current seg = decide (current < 0x7FFFFFFF) := by rw [due, ht, UInt32.sub_zero]
  simp only [prepareFlush, hc]
  rw [hd] at hat
  by_cases hcur : current < 0x7FFFFFFF
  · simpa [hcur] using hat
  simp only [hcur, decide_false, Bool.false_eq_true, ↓reduceIte] at hat
  simp only [hat, hcur, iff_false, not_and, Option.some.injEq]
  intro he
  have := congrArg DataSegment.transmit he
  simp [stamp, hs] at this

theorem sends_fresh_iff_start :
    let w := SendingWindow.new.push 0 .new
    cloneForSend (stamp 5 100 7 .active 0 { DataSegment.new with number := 0, payload := some .new }) ∈
      (w.prepareFlush 5 100 32 7 .active 0).2.toSend :=
  ((sends_fresh_iff (.push .new 0 .new) (by decide) (nil_append _).symm rfl 5 100 32
    (by decide) 7 .active 0).mpr (by decide)).2

/-- With the clock at `2 ^ 31 - 1` a segment just pushed is not sent. -/
theorem fresh_skipped :
    ((SendingWindow.new.push 0 .new).prepareFlush 0x7FFFFFFF 100 32 7 .active 0).2.toSend = [] := by
  decide

end SendingWindow

end XrayCore.Kcp
