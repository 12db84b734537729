import XrayCore.Lib.BigEndian

/-!
# Bits of numbers, most significant first

A number of so many bits as a list, and the bits of a sequence of such numbers one after the other.
By `bitsAll_append_inj` the groups can be read off the bits.
-/

namespace XrayCore.Lib

open List

variable {v x m n w : Nat}

def bitsOf : Nat → Nat → List Bool
  | 0, _ => []
  | w + 1, v => v.testBit w :: bitsOf w v

@[simp] theorem length_bitsOf (w v : Nat) : (bitsOf w v).length = w := by
  induction w with
  | zero => rfl
  | succ w ih => rw [bitsOf, length_cons, ih]

theorem bitsOf_congr (h : ∀ i < w, v.testBit i = x.testBit i) : bitsOf w v = bitsOf w x := by
  induction w with
  | zero => rfl
  | succ w ih => rw [bitsOf, bitsOf, h w w.lt_succ_self, ih fun i hi => h i (by omega)]

theorem bitsOf_mod (h : w ≤ n) : bitsOf w (v % 2 ^ n) = bitsOf w v :=
  bitsOf_congr fun i hi => by rw [Nat.testBit_mod_two_pow, decide_eq_true (by omega), Bool.true_and]

theorem bitsOf_inj (hv : v < 2 ^ w) (hx : x < 2 ^ w) (h : bitsOf w v = bitsOf w x) : v = x := by
  have hb : ∀ w, bitsOf w v = bitsOf w x → ∀ i < w, v.testBit i = x.testBit i := by
    intro w
    induction w with
    | zero => simp
    | succ w ih =>
      intro h i hi
      rw [bitsOf, bitsOf, List.cons.injEq] at h
      rcases Nat.lt_succ_iff_lt_or_eq.mp hi with hlt | rfl
      · exact ih h.2 i hlt
      · exact h.1
  refine Nat.eq_of_testBit_eq fun i => ?_
  by_cases hi : i < w
  · exact hb w h i hi
  · have hle : 2 ^ w ≤ 2 ^ i := Nat.pow_le_pow_right (by decide) (by omega)
    rw [Nat.testBit_lt_two_pow (by omega), Nat.testBit_lt_two_pow (by omega)]

theorem bitsOf_add (m n v : Nat) : bitsOf (m + n) v = bitsOf m (v >>> n) ++ bitsOf n v := by
  induction m with
  | zero => rw [zero_add]; rfl
  | succ m ih =>
    rw [Nat.succ_add, bitsOf, ih, bitsOf, Nat.testBit_shiftRight, add_comm n m, cons_append]

theorem bitsOf_push (v : Nat) (hx : x < 2 ^ n) :
    bitsOf (m + n) (v <<< n ||| x) = bitsOf m v ++ bitsOf n x := by
  have hh : (v <<< n ||| x) >>> n = v := by
    rw [Nat.shiftRight_or_distrib, Nat.shiftLeft_shiftRight, Nat.shiftRight_eq_div_pow,
      Nat.div_eq_of_lt hx, Nat.or_zero]
  have hl : bitsOf n (v <<< n ||| x) = bitsOf n x := by
    refine bitsOf_congr fun i hi => ?_
    rw [Nat.testBit_or, Nat.testBit_shiftLeft, decide_eq_false (by omega), Bool.false_and,
      Bool.false_or]
  rw [bitsOf_add, hh, hl]

/-- What is shifted out of an accumulator of `w` bits does not count. -/
theorem bitsOf_push_mod (v : Nat) (hx : x < 2 ^ n) (hmn : m + n ≤ w) :
    bitsOf (m + n) ((v <<< n) % 2 ^ w ||| x) = bitsOf m v ++ bitsOf n x := by
  rw [← bitsOf_push v hx]
  refine bitsOf_congr fun i hi => ?_
  rw [Nat.testBit_or, Nat.testBit_or, Nat.testBit_mod_two_pow, decide_eq_true (by omega),
    Bool.true_and]

theorem bitsOf_zero (w : Nat) : bitsOf w 0 = List.replicate w false := by
  induction w with
  | zero => rfl
  | succ w ih => rw [bitsOf, ih, Nat.zero_testBit, replicate_succ]

def bitsAll (w : Nat) (xs : List Nat) : List Bool := xs.flatMap (bitsOf w)

@[simp] theorem bitsAll_nil (w : Nat) : bitsAll w [] = [] := rfl

@[simp] theorem bitsAll_cons (w x : Nat) (xs : List Nat) :
    bitsAll w (x :: xs) = bitsOf w x ++ bitsAll w xs := rfl

@[simp] theorem bitsAll_append (w : Nat) (xs ys : List Nat) :
    bitsAll w (xs ++ ys) = bitsAll w xs ++ bitsAll w ys := flatMap_append

@[simp] theorem length_bitsAll (w : Nat) (xs : List Nat) :
    (bitsAll w xs).length = w * xs.length := by
  induction xs with
  | nil => rfl
  | cons x xs ih => rw [bitsAll_cons, length_append, ih, length_bitsOf, length_cons,
      Nat.mul_succ, add_comm]

theorem bitsAll_append_inj (hxs : ∀ x ∈ xs, x < 2 ^ w)
    (hys : ∀ y ∈ ys, y < 2 ^ w) (hr : r.length < w) (hs : s.length < w)
    (h : bitsAll w xs ++ r = bitsAll w ys ++ s) : xs = ys ∧ r = s := by
  induction xs generalizing ys with
  | nil =>
    cases ys with
    | nil => exact ⟨rfl, h⟩
    | cons y ys =>
      have hl := congrArg List.length h
      simp only [bitsAll_nil, bitsAll_cons, nil_append, length_append, length_bitsOf] at hl
      omega
  | cons x xs ih =>
    cases ys with
    | nil =>
      have hl := congrArg List.length h
      simp only [bitsAll_nil, bitsAll_cons, nil_append, length_append, length_bitsOf] at hl
      omega
    | cons y ys =>
      obtain ⟨hx, hxs⟩ := forall_mem_cons.mp hxs
      obtain ⟨hy, hys⟩ := forall_mem_cons.mp hys
      simp only [bitsAll_cons, append_assoc] at h
      obtain ⟨hh, ht⟩ := append_inj h (by simp)
      obtain ⟨rfl, hrs⟩ := ih hxs hys ht
      exact ⟨by rw [bitsOf_inj hx hy hh], hrs⟩

def byteBits (b : Bytes) : List Bool := bitsAll 8 (b.map UInt8.toNat)

@[simp] theorem byteBits_nil : byteBits [] = [] := rfl

@[simp] theorem byteBits_cons (x : UInt8) (b : Bytes) :
    byteBits (x :: b) = bitsOf 8 x.toNat ++ byteBits b := rfl

@[simp] theorem byteBits_append (a b : Bytes) : byteBits (a ++ b) = byteBits a ++ byteBits b := by
  simp [byteBits]

@[simp] theorem length_byteBits (b : Bytes) : (byteBits b).length = 8 * b.length := by
  simp [byteBits]

theorem byteBits_append_inj (hr : r.length < 8)
    (hs : s.length < 8) (h : byteBits a ++ r = byteBits b ++ s) : a = b ∧ r = s := by
  have hb : ∀ b : Bytes, ∀ n ∈ b.map UInt8.toNat, n < 2 ^ 8 := by
    intro b n hn
    obtain ⟨x, -, rfl⟩ := mem_map.mp hn
    exact x.toNat_lt
  obtain ⟨hab, hrs⟩ := bitsAll_append_inj (hb a) (hb b) hr hs h
  exact ⟨map_injective_iff.mpr (fun _ _ => UInt8.toNat_inj.mp) hab, hrs⟩

end XrayCore.Lib
