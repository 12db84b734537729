import Mathlib.Algebra.Order.Ring.Nat

/-!
# Wrapping 32-bit numbers

Sequence numbers are `u32` and wrap. Where a count stays below `2 ^ 32` the
wrapped number and the count agree.
-/

namespace XrayCore.Lib

theorem toNat_add_one {n : UInt32} (h : n.toNat + 1 < 2 ^ 32) : (n + 1).toNat = n.toNat + 1 := by
  exact Nat.mod_eq_of_lt h

theorem lt_add_one {n : UInt32} (h : n.toNat + 1 < 2 ^ 32) : n < n + 1 := by
  rw [UInt32.lt_iff_toNat_lt, toNat_add_one h]
  exact Nat.lt_succ_self _

theorem toNat_mul_add {k a b : UInt32} (h : k.toNat * a.toNat + b.toNat < 2 ^ 32) :
    (k * a + b).toNat = k.toNat * a.toNat + b.toNat := by
  rw [UInt32.toNat_add, UInt32.toNat_mul, Nat.mod_add_mod, Nat.mod_eq_of_lt h]

theorem le_max (n : UInt32) : n ≤ 0xFFFFFFFF :=
  UInt32.le_iff_toNat_le.mpr (Nat.le_of_lt_succ n.toNat_lt)

end XrayCore.Lib
