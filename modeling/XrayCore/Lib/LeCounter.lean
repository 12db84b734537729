import XrayCore.Lib.BigEndian
import Mathlib.Data.List.Nodup

/-!
# Counters in bytes

A number as a fixed count of bytes, least significant byte first, and the increment
that carries from byte to byte and drops the last carry. `increment_leBytes` reads the
increment as addition, `leBytes_eq_iff` says when two counters are the same bytes.
-/

namespace XrayCore.Lib

open List

def increment : Bytes → Bytes
  | [] => []
  | b :: rest => if b + 1 = 0 then (b + 1) :: increment rest else (b + 1) :: rest

def leBytes : Nat → Nat → Bytes
  | 0, _ => []
  | width + 1, k => UInt8.ofNat k :: leBytes width (k / 256)

@[simp] theorem length_increment (b : Bytes) : (increment b).length = b.length := by
  induction b with
  | nil => rfl
  | cons x b ih =>
    unfold increment
    split <;> simp [ih]

@[simp] theorem length_leBytes (width k : Nat) : (leBytes width k).length = width := by
  induction width generalizing k with
  | zero => rfl
  | succ width ih => simp [leBytes, ih]

theorem ofNat_add_one_eq_zero_iff (k : Nat) : UInt8.ofNat k + 1 = 0 ↔ (k + 1) % 256 = 0 := by
  rw [← UInt8.toNat_inj, UInt8.toNat_add, UInt8.toNat_ofNat']
  simp

theorem increment_leBytes (width k : Nat) :
    increment (leBytes width k) = leBytes width (k + 1) := by
  induction width generalizing k with
  | zero => rfl
  | succ width ih =>
    have hh : UInt8.ofNat k + 1 = UInt8.ofNat (k + 1) := by
      rw [UInt8.ofNat_add]
      rfl
    rw [leBytes, leBytes, increment, hh]
    split
    · next hz =>
      rw [← hh, ofNat_add_one_eq_zero_iff] at hz
      rw [ih, show (k + 1) / 256 = k / 256 + 1 by omega]
    · next hc =>
      rw [← hh, ofNat_add_one_eq_zero_iff] at hc
      rw [show (k + 1) / 256 = k / 256 by omega]

theorem leBytes_zero (width : Nat) : leBytes width 0 = List.replicate width 0 := by
  induction width with
  | zero => rfl
  | succ width ih =>
    rw [leBytes, Nat.zero_div, ih]
    rfl

theorem leBytes_eq_iff (width j k : Nat) :
    leBytes width j = leBytes width k ↔ j % 256 ^ width = k % 256 ^ width := by
  induction width generalizing j k with
  | zero => simp [leBytes, Nat.mod_one]
  | succ width ih =>
    have hb : UInt8.ofNat j = UInt8.ofNat k ↔ j % 256 = k % 256 := by
      rw [← UInt8.toNat_inj, UInt8.toNat_ofNat', UInt8.toNat_ofNat']
    rw [leBytes, leBytes, List.cons.injEq, ih, hb, pow_succ', Nat.mod_mul, Nat.mod_mul]
    omega

/-- The counters of the first `n` steps are different exactly if they do not wrap. -/
theorem nodup_leBytes_iff (width n : Nat) :
    ((List.range n).map (leBytes width)).Nodup ↔ n ≤ 256 ^ width := by
  rw [nodup_map_iff_inj_on nodup_range]
  have hp : 0 < 256 ^ width := Nat.pow_pos (by decide)
  constructor
  · intro hi
    by_contra hlt
    rw [not_le] at hlt
    -- one full turn apart
    have hw : leBytes width (256 ^ width) = leBytes width 0 := by
      rw [leBytes_eq_iff, Nat.mod_self, Nat.zero_mod]
    have := hi _ (mem_range.mpr hlt) _ (mem_range.mpr (hp.trans hlt)) hw
    omega
  · intro hle j hj k hk h
    rw [leBytes_eq_iff, Nat.mod_eq_of_lt ((mem_range.mp hj).trans_le hle),
      Nat.mod_eq_of_lt ((mem_range.mp hk).trans_le hle)] at h
    exact h

end XrayCore.Lib
