import XrayCore.Kcp.AckBatches
import XrayCore.Lib.Runs
import XrayCore.Lib.Wrapping

/-!
# What the receiving side keeps

`read` drains the window in turns: one turn takes out the segment with the next number and passes
its payload on. `read_rule` reduces a property of the window, the next number and the bytes passed
on so far to one turn, whatever the sizes of the caller's buffers.
-/

namespace XrayCore.Kcp

open Lib Buf List ReceivingWindow

namespace AckList

@[simp] theorem mem_numbers_add (l : AckList) (number timestamp : UInt32) :
    n ∈ (l.add number timestamp).numbers ↔ n ∈ l.numbers ∨ n = number := by
  simp [numbers, add]

@[simp] theorem mem_numbers_clear (l : AckList) (una : UInt32) :
    n ∈ (l.clear una).numbers ↔ n ∈ l.numbers ∧ una ≤ n := by
  simp only [numbers, clear, mem_map, mem_filter, decide_eq_true_eq, UInt32.not_lt]
  constructor
  · rintro ⟨e, ⟨he, hle⟩, rfl⟩
    exact ⟨⟨e, he, rfl⟩, hle⟩
  · rintro ⟨⟨e, he, rfl⟩, hle⟩
    exact ⟨e, ⟨he, hle⟩, rfl⟩

end AckList

namespace ReceivingWorker

def pending (w : ReceivingWorker) : Bytes :=
  match w.leftOver with
  | some mb => mb.toVec
  | none => []

section ReadRule

variable {P : ReceivingWindow → UInt32 → Bytes → Prop}

theorem drainLoop_rule (ht : ∀ win nxt out seg, P win nxt out → win.cache.lookup nxt = some seg →
      P ⟨win.cache.erase nxt⟩ (nxt + 1) (out ++ seg.payloadBytes))
    (h : P win nxt (out ++ mb.toVec)) :
    P (drainLoop fuel win nxt mb).1 (drainLoop fuel win nxt mb).2.1
      (out ++ (drainLoop fuel win nxt mb).2.2.toVec) := by
  induction fuel generalizing win nxt mb with
  | zero => exact h
  | succ fuel ih =>
    cases hl : win.cache.lookup nxt with
    | none =>
      simp only [drainLoop, remove, hl]
      exact h
    | some seg =>
      simp only [drainLoop, remove, hl]
      have hn := ht win nxt _ seg h hl
      refine ih ?_
      cases hp : seg.payload with
      | some buf | none => simpa [DataSegment.payloadBytes, hp] using hn

theorem read_rule
    (htu : ∀ window next out seg, P window next out → window.cache.lookup next = some seg →
      P ⟨window.cache.erase next⟩ (next + 1) (out ++ seg.payloadBytes))
    (w : ReceivingWorker) (want : Nat) (out : Bytes)
    (h : P w.window w.nextNumber (out ++ w.pending)) :
    P (w.read want).2.window (w.read want).2.nextNumber
      (out ++ (w.read want).1 ++ (w.read want).2.pending) := by
  -- first what `read_multi_buffer` hands over, then the cut
  have hm : P w.readMultiBuffer.2.window w.readMultiBuffer.2.nextNumber
      (out ++ w.readMultiBuffer.1.toVec) ∧ w.readMultiBuffer.2.leftOver = none := by
    unfold readMultiBuffer
    cases hl : w.leftOver with
    | some mb =>
      simp only [pending, hl] at h
      exact ⟨h, rfl⟩
    | none =>
      simp only [pending, hl, append_nil] at h
      refine ⟨drainLoop_rule htu ?_, rfl⟩
      simpa using h
  obtain ⟨hP, hn⟩ := hm
  unfold read
  simp only
  obtain ⟨ht, hd⟩ := w.readMultiBuffer.1.splitBytes_content want
  split
  · next he =>
    rw [(MultiBuffer.isEmpty_iff _).mp he] at hP
    simpa [pending, hn] using hP
  split
  · next hrest =>
    rw [MultiBuffer.isEmpty_iff, hd] at hrest
    have hall : (w.readMultiBuffer.1.splitBytes want).1.toVec = w.readMultiBuffer.1.toVec := by
      rw [ht]
      simpa [hrest] using take_append_drop want w.readMultiBuffer.1.toVec
    rw [← hall] at hP
    simpa [pending, hn] using hP
  · simp only [pending, ht, hd, append_assoc, take_append_drop]
    exact hP

end ReadRule

theorem read_acklist (w : ReceivingWorker) (want : Nat) :
    (w.read want).2.acklist = w.acklist ∧ (w.read want).2.windowSize = w.windowSize := by
  have hm : w.readMultiBuffer.2.acklist = w.acklist ∧
      w.readMultiBuffer.2.windowSize = w.windowSize := by
    unfold readMultiBuffer
    split <;> exact ⟨rfl, rfl⟩
  unfold read
  simp only
  split
  · exact hm
  · split <;> exact hm

def payloadsFrom (f : UInt32 → Bytes) (start : UInt32) (k : Nat) : Bytes :=
  (List.range k).flatMap fun i => f (start + UInt32.ofNat i)

/-- `k` numbers from `start` on were passed on, each once; what waits in the
window carries its number's payload and is less than `size` ahead. -/
structure Reassembled (f : UInt32 → Bytes) (start size : UInt32) (k : Nat)
    (window : ReceivingWindow) (next : UInt32) (out : Bytes) : Prop where
  next_eq : next = start + UInt32.ofNat k
  out_eq : out = payloadsFrom f start k
  cached : ∀ n seg, window.cache.lookup n = some seg → seg.payloadBytes = f n ∧ n - next < size

theorem ahead_of_succ {n next size : UInt32} (h : n - next < size) (hne : n ≠ next) :
    n - (next + 1) < size := by
  grind

section

variable {win : ReceivingWindow} (h : Reassembled f start size k win nxt out)

include h

theorem Reassembled.turn (hl : win.cache.lookup nxt = some seg) :
    Reassembled f start size (k + 1) ⟨win.cache.erase nxt⟩ (nxt + 1) (out ++ seg.payloadBytes) := by
  refine ⟨?_, ?_, ?_⟩
  · rw [h.next_eq, UInt32.ofNat_add, UInt32.add_assoc]
    rfl
  · rw [h.out_eq, (h.cached nxt seg hl).1, payloadsFrom, payloadsFrom, range_succ,
      flatMap_append, flatMap_singleton, ← h.next_eq]
  · intro n s hs
    by_cases hn : n = nxt
    · subst hn
      rw [AList.lookup_erase] at hs
      cases hs
    · rw [AList.lookup_erase_ne hn] at hs
      obtain ⟨hf, hlt⟩ := h.cached n s hs
      exact ⟨hf, ahead_of_succ hlt hn⟩

theorem Reassembled.set (hf : seg.payloadBytes = f seg.number) (hin : seg.number - nxt < size) :
    Reassembled f start size k (win.set seg.number seg).1 nxt out := by
  unfold ReceivingWindow.set
  split
  · exact h
  refine ⟨h.next_eq, h.out_eq, ?_⟩
  intro n s hs
  by_cases hn : n = seg.number
  · subst hn
    rw [AList.lookup_insert] at hs
    cases hs
    exact ⟨hf, hin⟩
  · rw [AList.lookup_insert_ne hn] at hs
    exact h.cached n s hs

end

def fresh (config : Config) (conv : UInt16) (mss : Nat) (next size : UInt32) : ReceivingWorker :=
  { new config conv mss with nextNumber := next, windowSize := size }

structure Reader where
  worker : ReceivingWorker
  out : Bytes

inductive Reader.Op
  | processSegment (seg : DataSegment)
  | read (want : Nat)

def Reader.step (r : Reader) : Reader.Op → Reader
  | .processSegment seg => { r with worker := r.worker.processSegment seg }
  | .read want => ⟨(r.worker.read want).2, r.out ++ (r.worker.read want).1⟩

def Reader.Ok (f : UInt32 → Bytes) (start size : UInt32) (arrived : Nat) (r : Reader) : Prop :=
  r.worker.windowSize = size ∧ ∃ k, k + r.worker.window.cache.keys.length ≤ arrived ∧
      Reassembled f start size k r.worker.window r.worker.nextNumber (r.out ++ r.worker.pending)

theorem length_keys_set (win : ReceivingWindow) (id : UInt32) (v : DataSegment) :
    (win.set id v).1.cache.keys.length ≤ win.cache.keys.length + 1 := by
  unfold ReceivingWindow.set
  split
  · exact Nat.le_succ _
  · next hnew =>
    rw [AList.keys_insert, length_cons]
    exact Nat.succ_le_succ (length_erase_le)

variable {r : Reader}

theorem Reader.Ok.processSegment (h : r.Ok f start size arrived)
    (hf : seg.payloadBytes = f seg.number) :
    (r.step (.processSegment seg)).Ok f start size (arrived + 1) := by
  obtain ⟨hsize, k, hk, hr⟩ := h
  simp only [Reader.step, ReceivingWorker.processSegment]
  split
  · exact ⟨hsize, k, Nat.le_succ_of_le hk, hr⟩
  · next hi =>
    rw [hsize, UInt32.not_le] at hi
    refine ⟨hsize, k, ?_, hr.set hf hi⟩
    have := length_keys_set r.worker.window seg.number seg
    simp only
    omega

theorem Reader.Ok.read (h : r.Ok f start size arrived) (want : Nat) :
    (r.step (.read want)).Ok f start size arrived := by
  obtain ⟨hsize, hr⟩ := h
  refine ⟨(read_acklist r.worker want).2.trans hsize, ?_⟩
  refine read_rule (P := fun window next out => ∃ k, k + window.cache.keys.length ≤ arrived ∧
    Reassembled f start size k window next out) ?_ r.worker want r.out hr
  rintro window next out seg ⟨k, hk, hr⟩ hl
  refine ⟨k + 1, ?_, hr.turn hl⟩
  -- one segment less in the window for one more passed on
  have hm : next ∈ window.cache.keys := AList.mem_keys.mp (AList.lookup_isSome.mp (by rw [hl]; rfl))
  have hp := length_pos_of_mem hm
  rw [AList.keys_erase, length_erase_of_mem hm]
  omega

def Reader.Op.isSegment : Reader.Op → Bool
  | .processSegment _ => true
  | .read _ => false

theorem Reader.Ok.runs (h : r.Ok f start size arrived) (ops : List Reader.Op)
    (hf : ∀ seg, .processSegment seg ∈ ops → seg.payloadBytes = f seg.number) :
    (Lib.runs Reader.step r ops).Ok f start size (arrived + ops.countP Reader.Op.isSegment) := by
  induction ops generalizing r arrived with
  | nil => exact h
  | cons op ops ih =>
    have hrest : ∀ seg, .processSegment seg ∈ ops → seg.payloadBytes = f seg.number :=
      fun seg hs => hf seg (mem_cons_of_mem _ hs)
    cases op with
    | processSegment seg =>
      have hst := ih (h.processSegment (hf seg mem_cons_self)) hrest
      rw [countP_cons_of_pos rfl, ← Nat.add_assoc, Nat.add_right_comm]
      exact hst
    | read want => exact ih (h.read want) hrest

/-- In any order of arrivals and reads, what waits in the window is less than the window size ahead,
and the reads have returned, up to what is left over, the payloads of the numbers from `start` to
the next one, each once. -/
theorem reassembly (config : Config) (conv : UInt16) (mss : Nat) (start size : UInt32)
    (f : UInt32 → Bytes) (ops : List Reader.Op)
    (hf : ∀ seg, .processSegment seg ∈ ops → seg.payloadBytes = f seg.number) :
    let r := Lib.runs Reader.step ⟨fresh config conv mss start size, []⟩ ops
    (∀ n, r.worker.window.has n → n - r.worker.nextNumber < size) ∧
      ∃ k, k ≤ ops.countP Reader.Op.isSegment ∧ r.worker.nextNumber = start + UInt32.ofNat k ∧
        r.out ++ r.worker.pending = payloadsFrom f start k := by
  intro r
  have hstart : (⟨fresh config conv mss start size, []⟩ : Reader).Ok f start size 0 :=
    ⟨rfl, 0, le_refl 0, by simp [fresh], rfl, by
      intro n seg hl
      cases hl⟩
  obtain ⟨-, k, hk, hr⟩ := hstart.runs ops hf
  refine ⟨?_, k, by omega, hr.next_eq, hr.out_eq⟩
  intro n hn
  obtain ⟨seg, hseg⟩ := Option.isSome_iff_exists.mp (AList.lookup_isSome.mpr (of_decide_eq_true hn))
  exact (hr.cached n seg hseg).2

/-- Number 0 arrives before number `2 ^ 32 - 1`, which is read first. -/
theorem reassembly_wraps :
    let f : UInt32 → Bytes := fun n => if n = 0 then [3] else [1, 2]
    let segment (n : UInt32) : DataSegment :=
      { DataSegment.new with number := n, payload := some (Buffer.new.writeFrom (f n)).1 }
    let ops : List Reader.Op :=
      [.processSegment (segment 0), .read 8, .processSegment (segment 0xFFFFFFFF), .read 2]
    let r := Lib.runs Reader.step ⟨fresh defaultConfig 7 1400 0xFFFFFFFF 4, []⟩ ops
    r.out = [1, 2] ∧ r.worker.pending = [3] ∧
      ∃ k, k ≤ 2 ∧ r.worker.nextNumber = 0xFFFFFFFF + UInt32.ofNat k ∧
        r.out ++ r.worker.pending = payloadsFrom f 0xFFFFFFFF k := by
  intro f segment ops r
  have hf : ∀ seg, .processSegment seg ∈ ops → seg.payloadBytes = f seg.number := by
    intro seg hseg
    simp only [ops, mem_cons, Reader.Op.processSegment.injEq, reduceCtorEq, false_or,
      not_mem_nil, or_false] at hseg
    rcases hseg with rfl | rfl <;> rfl
  obtain ⟨-, k, hk, hnext, hout⟩ := reassembly defaultConfig 7 1400 0xFFFFFFFF 4 f ops hf
  exact ⟨by decide, by decide, k, hk, hnext, hout⟩

end ReceivingWorker

end XrayCore.Kcp
