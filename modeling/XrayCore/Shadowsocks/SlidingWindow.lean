import XrayCore.Lib.Runs
import XrayCore.Lib.Ring
import Mathlib.Data.List.Nodup
import Mathlib.Data.List.Induction

/-!
# The packet id window of Shadowsocks 2022

A UDP session keeps the highest packet id it has accepted and, for the ids behind
it, one bit each in a ring of 128 blocks of 64 bits. The whole last block counts,
so ids up to `127 * 64 = 8128` behind the highest one have a bit of their own.
-/

namespace XrayCore.Shadowsocks

open Lib Ring

def swBlockBitLog : UInt64 := 6

def swBlockBits : UInt64 := 1 <<< swBlockBitLog

def swRingBlocks : Nat := 1 <<< 7

def swBlockMask : UInt64 := 127

def swBitMask : UInt64 := swBlockBits - 1

def swSize : UInt64 := 127 * swBlockBits

instance : NeZero swRingBlocks := ⟨by decide⟩

theorem swRingBlocks_eq : swRingBlocks = 128 := rfl

structure SlidingWindow where
  last : UInt64
  ring : Vector UInt64 swRingBlocks

namespace SlidingWindow

def default : SlidingWindow := ⟨0, Vector.replicate swRingBlocks 0⟩

theorem and_swBlockMask_toNat (block : UInt64) :
    (block &&& swBlockMask).toNat = block.toNat % swRingBlocks := by
  exact Nat.and_two_pow_sub_one_eq_mod block.toNat 7

def blockIndex (block : UInt64) : Fin swRingBlocks :=
  ⟨(block &&& swBlockMask).toNat, by
    rw [and_swBlockMask_toNat]
    exact Nat.mod_lt _ (by decide)⟩

def check (w : SlidingWindow) (counter : UInt64) : Bool :=
  if counter > w.last then true
  else if w.last - counter > swSize then false
  else
    let block := w.ring.get (blockIndex (counter >>> swBlockBitLog))
    let bitIndex := counter &&& swBitMask
    (block >>> bitIndex) &&& 1 == 0

def clearBlocks : Nat → UInt64 → Vector UInt64 swRingBlocks → Vector UInt64 swRingBlocks
  | 0, _, ring => ring
  | diff + 1, lastBlockIndex, ring =>
    let lastBlockIndex := (lastBlockIndex + 1) &&& swBlockMask
    clearBlocks diff lastBlockIndex (ring.set (blockIndex lastBlockIndex) 0)

def advance (w : SlidingWindow) (counter : UInt64) : SlidingWindow :=
  if counter > w.last then
    let lastBlockIndex := w.last >>> swBlockBitLog
    let diff := (counter >>> swBlockBitLog) - lastBlockIndex
    let diff := if diff.toNat > swRingBlocks then swRingBlocks else diff.toNat
    ⟨counter, clearBlocks diff lastBlockIndex w.ring⟩
  else w

def setBit (w : SlidingWindow) (counter : UInt64) : SlidingWindow :=
  let i := blockIndex (counter >>> swBlockBitLog)
  let bitIndex := counter &&& swBitMask
  { w with ring := w.ring.set i (w.ring.get i ||| 1 <<< bitIndex) }

def add (w : SlidingWindow) (counter : UInt64) : SlidingWindow :=
  (w.advance counter).setBit counter

theorem blockIndex_eq_place (block : UInt64) : blockIndex block = place swRingBlocks block.toNat :=
  Fin.ext (and_swBlockMask_toNat block)

theorem shiftRight_toNat (ctr : UInt64) : (ctr >>> swBlockBitLog).toNat = ctr.toNat / 64 := by
  simp [swBlockBitLog, Nat.shiftRight_eq_div_pow]

theorem and_swBitMask_toNat (ctr : UInt64) : (ctr &&& swBitMask).toNat = ctr.toNat % 64 := by
  exact Nat.and_two_pow_sub_one_eq_mod ctr.toNat 6

def bit (w : SlidingWindow) (id : UInt64) : Bool :=
  (w.ring.get (place swRingBlocks (id.toNat / 64))).toNat.testBit (id.toNat % 64)

theorem shiftRight_and_one_beq_zero (block ctr : UInt64) :
    (((block >>> (ctr &&& swBitMask)) &&& 1) == 0) = !block.toNat.testBit (ctr.toNat % 64) := by
  have hs : (block >>> (ctr &&& swBitMask)).toNat = block.toNat >>> (ctr.toNat % 64) := by
    rw [UInt64.toNat_shiftRight, and_swBitMask_toNat, Nat.mod_mod]
  rw [Bool.eq_iff_iff, beq_iff_eq, ← UInt64.toNat_inj, UInt64.toNat_and, hs]
  simp [Nat.testBit, and_comm]

theorem testBit_or_shiftLeft (block ctr : UInt64) (hi : i < 64) :
    (block ||| 1 <<< (ctr &&& swBitMask)).toNat.testBit i =
      (block.toNat.testBit i || decide (ctr.toNat % 64 = i)) := by
  have hs : (1 <<< (ctr &&& swBitMask) : UInt64).toNat = 2 ^ (ctr.toNat % 64) % 2 ^ 64 := by
    rw [UInt64.toNat_shiftLeft, and_swBitMask_toNat, Nat.mod_mod, Nat.shiftLeft_eq]
    simp
  rw [UInt64.toNat_or, hs, Nat.testBit_or, Nat.testBit_mod_two_pow, Nat.testBit_two_pow]
  simp [hi]

theorem clearBlocks_eq_resetAfter (diff : Nat) (lbi : UInt64) (top : Nat)
    (ring : Vector UInt64 swRingBlocks) (h : lbi.toNat % 128 = top % 128) :
    clearBlocks diff lbi ring = resetAfter 0 diff top ring := by
  induction diff generalizing lbi top ring with
  | zero => rfl
  | succ diff ih =>
    have hn : ((lbi + 1) &&& swBlockMask).toNat % 128 = (top + 1) % 128 := by
      rw [and_swBlockMask_toNat, UInt64.toNat_add, UInt64.toNat_one, swRingBlocks_eq]
      omega
    have hp : blockIndex ((lbi + 1) &&& swBlockMask) = place swRingBlocks (top + 1) := by
      rw [blockIndex_eq_place]
      exact Fin.ext hn
    simp only [clearBlocks, resetAfter, hp]
    exact ih _ (top + 1) _ hn

theorem last_advance (w : SlidingWindow) (ctr : UInt64) :
    (w.advance ctr).last.toNat = max w.last.toNat ctr.toNat := by
  unfold advance
  split
  case isTrue h =>
    have := UInt64.lt_iff_toNat_lt.mp h
    exact (max_eq_right this.le).symm
  case isFalse h =>
    have := UInt64.le_iff_toNat_le.mp (UInt64.not_lt.mp h)
    exact (max_eq_left this).symm

variable {id : UInt64}

theorem bit_advance (w : SlidingWindow) (ht : id.toNat / 64 ≤ (w.advance counter).last.toNat / 64)
    (hw : (w.advance counter).last.toNat / 64 < id.toNat / 64 + 128) :
    (w.advance counter).bit id = (decide (id.toNat / 64 ≤ w.last.toNat / 64) && w.bit id) := by
  unfold advance at ht hw ⊢
  split
  case isTrue h =>
    simp only [h, if_true] at ht hw
    have hle : w.last.toNat / 64 ≤ counter.toNat / 64 :=
      Nat.div_le_div_right (UInt64.lt_iff_toNat_lt.mp h).le
    have hd : ((counter >>> swBlockBitLog) - (w.last >>> swBlockBitLog)).toNat =
        counter.toNat / 64 - w.last.toNat / 64 := by
      rw [UInt64.toNat_sub_of_le, shiftRight_toNat, shiftRight_toNat]
      rwa [UInt64.le_iff_toNat_le, shiftRight_toNat, shiftRight_toNat]
    have hm : (if counter.toNat / 64 - w.last.toNat / 64 > swRingBlocks then swRingBlocks
        else counter.toNat / 64 - w.last.toNat / 64) =
        min (counter.toNat / 64 - w.last.toNat / 64) swRingBlocks := by
      split <;> omega
    have hr := get_advance (0 : UInt64) w.ring hle ht hw
    simp only [bit, hd, hm,
      clearBlocks_eq_resetAfter _ _ (w.last.toNat / 64) _ (congrArg (· % 128) (shiftRight_toNat _)),
      hr]
    split <;> simp [*]
  case isFalse h =>
    simp only [h, if_false] at ht
    simp [ht]

theorem bit_setBit (w : SlidingWindow)
    (h : place swRingBlocks (counter.toNat / 64) = place swRingBlocks (id.toNat / 64) ↔
      counter.toNat / 64 = id.toNat / 64) :
    (w.setBit counter).bit id = (w.bit id || decide (id = counter)) := by
  simp only [bit, setBit, blockIndex_eq_place, shiftRight_toNat, get_set]
  by_cases hb : counter.toNat / 64 = id.toNat / 64
  · have hid : id = counter ↔ counter.toNat % 64 = id.toNat % 64 := by
      rw [← UInt64.toNat_inj]
      omega
    rw [if_pos (h.mpr hb), testBit_or_shiftLeft _ _ (Nat.mod_lt _ (by decide)), hb]
    simp [hid]
  · have hid : id ≠ counter := by
      rintro rfl
      exact hb rfl
    rw [if_neg fun hp => hb (h.mp hp)]
    simp [hid]

theorem check_eq (w : SlidingWindow) (id : UInt64) : w.check id = true ↔
      w.last.toNat < id.toNat ∨ w.last.toNat ≤ id.toNat + 8128 ∧ w.bit id = false := by
  unfold check
  split
  case isTrue h => simp [UInt64.lt_iff_toNat_lt.mp h]
  case isFalse h =>
    have hle : id ≤ w.last := UInt64.not_lt.mp h
    have hle' := UInt64.le_iff_toNat_le.mp hle
    have hs : w.last - id > swSize ↔ w.last.toNat > id.toNat + 8128 := by
      have hsize : swSize.toNat = 8128 := rfl
      rw [gt_iff_lt, UInt64.lt_iff_toNat_lt, UInt64.toNat_sub_of_le _ _ hle, hsize]
      omega
    split
    case isTrue hb =>
      have := hs.mp hb
      simp
      omega
    case isFalse hin =>
      have := hs.not.mp hin
      simp only [shiftRight_and_one_beq_zero, blockIndex_eq_place, shiftRight_toNat,
        Bool.not_eq_true']
      exact ⟨fun hbi => .inr ⟨by omega, hbi⟩, fun h => (h.resolve_left (by omega)).2⟩

def highest (ids : List UInt64) : Nat := ids.foldl (fun top id => max top id.toNat) 0

theorem highest_concat (ids : List UInt64) (id : UInt64) :
    highest (ids ++ [id]) = max (highest ids) id.toNat := by
  simp [highest]

theorem le_highest (h : id ∈ ids) : id.toNat ≤ highest ids := by
  induction ids using List.reverseRec with
  | nil => cases h
  | append_singleton ids last ih =>
    rw [highest_concat]
    rcases List.mem_append.mp h with hm | hm
    · exact (ih hm).trans (le_max_left _ _)
    · obtain rfl := List.mem_singleton.mp hm
      exact le_max_right _ _

/-- The window shows the ids accepted: the highest one, and of those in the blocks
of the ring each one. -/
structure Tracks (w : SlidingWindow) (accepted : List UInt64) : Prop where
  last_eq : w.last.toNat = highest accepted
  bit_iff : ∀ id : UInt64, id.toNat / 64 ≤ w.last.toNat / 64 →
    w.last.toNat / 64 < id.toNat / 64 + 128 → (w.bit id = true ↔ id ∈ accepted)

theorem Tracks.default : Tracks default [] := by
  refine ⟨rfl, fun id _ _ => ?_⟩
  simp [bit, SlidingWindow.default, Vector.get]

theorem Tracks.check_iff (h : Tracks w accepted) (id : UInt64) :
    w.check id = true ↔ id ∉ accepted ∧ highest accepted ≤ id.toNat + 8128 := by
  rw [check_eq, h.last_eq]
  have hm : id ∈ accepted → id.toNat ≤ highest accepted := le_highest
  constructor
  · rintro (ha | ⟨hin, hb⟩)
    · exact ⟨fun hid => by have := hm hid; omega, by omega⟩
    refine ⟨fun hid => ?_, hin⟩
    have hle := hm hid
    have := (h.bit_iff id (by rw [h.last_eq]; omega) (by rw [h.last_eq]; omega)).mpr hid
    simp [hb] at this
  · rintro ⟨hnew, hin⟩
    rcases lt_or_ge (highest accepted) id.toNat with ha | hle
    · exact .inl ha
    · refine .inr ⟨hin, Bool.eq_false_iff.mpr fun hb => hnew ?_⟩
      exact (h.bit_iff id (by rw [h.last_eq]; omega) (by rw [h.last_eq]; omega)).mp hb

theorem Tracks.add (h : Tracks w accepted) (hc : w.check id = true) :
    Tracks (w.add id) (accepted ++ [id]) := by
  have hin := ((h.check_iff id).mp hc).2
  have hl : (w.add id).last.toNat = highest (accepted ++ [id]) := by
    rw [highest_concat, ← h.last_eq]
    exact last_advance w id
  have ha : (w.advance id).last.toNat = max w.last.toNat id.toNat := last_advance w id
  refine ⟨hl, fun o ht hw => ?_⟩
  change o.toNat / 64 ≤ (w.advance id).last.toNat / 64 at ht
  change (w.advance id).last.toNat / 64 < o.toNat / 64 + 128 at hw
  rw [← h.last_eq] at hin
  -- both blocks lie in the window, so they share a place only if they are the same
  have hp : place swRingBlocks (id.toNat / 64) =
      place swRingBlocks (o.toNat / 64) ↔ id.toNat / 64 = o.toNat / 64 := by
    rcases le_total (id.toNat / 64) (o.toNat / 64) with hle | hle
    · exact place_eq_iff hle (by rw [swRingBlocks_eq]; omega)
    · rw [eq_comm, eq_comm (a := id.toNat / 64)]
      exact place_eq_iff hle (by rw [swRingBlocks_eq]; omega)
  rw [SlidingWindow.add, bit_setBit _ hp, bit_advance w ht hw]
  simp only [Bool.or_eq_true, Bool.and_eq_true, decide_eq_true_eq, List.mem_append, List.mem_singleton]
  refine or_congr_left ?_
  constructor
  · rintro ⟨hold, hb⟩
    exact (h.bit_iff o hold (by omega)).mp hb
  intro hm
  have hle := le_highest hm
  rw [← h.last_eq] at hle
  have hold : o.toNat / 64 ≤ w.last.toNat / 64 := Nat.div_le_div_right hle
  exact ⟨hold, (h.bit_iff o hold (by omega)).mpr hm⟩

end SlidingWindow

structure Receiver where
  window : SlidingWindow
  accepted : List UInt64

namespace Receiver

def init : Receiver := ⟨.default, []⟩

def receive (r : Receiver) (id : UInt64) : Receiver :=
  if r.window.check id then ⟨r.window.add id, r.accepted ++ [id]⟩ else r

structure Sound (r : Receiver) : Prop where
  tracks : r.window.Tracks r.accepted
  nodup : r.accepted.Nodup

theorem Sound.receive (h : Sound r) (id : UInt64) : Sound (r.receive id) := by
  unfold Receiver.receive
  split
  case isTrue hc =>
    have hnew := ((h.tracks.check_iff id).mp hc).1
    refine ⟨h.tracks.add hc, ?_⟩
    rw [List.nodup_append]
    refine ⟨h.nodup, List.nodup_singleton id, fun a ha b hb => ?_⟩
    obtain rfl := List.mem_singleton.mp hb
    rintro rfl
    exact hnew ha
  case isFalse => exact h

theorem sound_runs (ids : List UInt64) : Sound (runs receive init ids) :=
  runs_invariant ⟨.default, List.nodup_nil⟩ (fun _ id h => h.receive id) ids

/-- Whatever ids came before, an id is accepted exactly when it is new and not more
than 8128 behind the highest accepted one; so none is accepted twice. -/
theorem accepts_iff_new_in_window (ids : List UInt64) (id : UInt64) :
    ((runs receive init ids).window.check id = true ↔ id ∉ (runs receive init ids).accepted ∧
        SlidingWindow.highest (runs receive init ids).accepted ≤ id.toNat + 8128) ∧
    (runs receive init ids).accepted.Nodup :=
  ⟨(sound_runs ids).tracks.check_iff id, (sound_runs ids).nodup⟩

end Receiver

end XrayCore.Shadowsocks
