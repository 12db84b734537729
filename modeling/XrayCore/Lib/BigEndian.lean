import Mathlib.Data.List.Basic
import Mathlib.Data.List.Induction
import Mathlib.Tactic.Linarith
import Mathlib.Tactic.Ring

/-!
# Big-endian integers in byte strings

Fixed-width integers as bytes, most significant byte first, and reading them back at an offset of a
byte string.
-/

namespace XrayCore.Lib

open List

abbrev Bytes := List UInt8

def be16 (x : UInt16) : Bytes := [UInt8.ofNat (x.toNat / 256), UInt8.ofNat x.toNat]

def be32 (x : UInt32) : Bytes :=
  [UInt8.ofNat (x.toNat / 2 ^ 24), UInt8.ofNat (x.toNat / 2 ^ 16), UInt8.ofNat (x.toNat / 2 ^ 8),
    UInt8.ofNat x.toNat]

def be64 (x : UInt64) : Bytes :=
  be32 (UInt32.ofNat (x.toNat / 2 ^ 32)) ++ be32 (UInt32.ofNat x.toNat)

def ofBe16 (a b : UInt8) : UInt16 := UInt16.ofNat (a.toNat * 256 + b.toNat)

def ofBe32 (a b c d : UInt8) : UInt32 :=
  UInt32.ofNat (a.toNat * 2 ^ 24 + b.toNat * 2 ^ 16 + c.toNat * 2 ^ 8 + d.toNat)

@[simp] theorem length_be16 (x : UInt16) : (be16 x).length = 2 := rfl

@[simp] theorem length_be32 (x : UInt32) : (be32 x).length = 4 := rfl

@[simp] theorem length_be64 (x : UInt64) : (be64 x).length = 8 := rfl

theorem ofBe16_be16 (x : UInt16) :
    ofBe16 (UInt8.ofNat (x.toNat / 256)) (UInt8.ofNat x.toNat) = x := by
  have hx := x.toNat_lt
  apply UInt16.toNat_inj.mp
  simp [ofBe16]
  omega

theorem be16_ofBe16 (a b : UInt8) : be16 (ofBe16 a b) = [a, b] := by
  have ha := a.toNat_lt
  have hb := b.toNat_lt
  have hx : (ofBe16 a b).toNat = a.toNat * 256 + b.toNat := by
    rw [ofBe16, UInt16.toNat_ofNat']
    omega
  simp only [be16, hx, List.cons.injEq, and_true]
  constructor <;> apply UInt8.toNat_inj.mp <;> rw [UInt8.toNat_ofNat'] <;> omega

theorem ofBe32_be32 (x : UInt32) :
    ofBe32 (UInt8.ofNat (x.toNat / 2 ^ 24)) (UInt8.ofNat (x.toNat / 2 ^ 16))
      (UInt8.ofNat (x.toNat / 2 ^ 8)) (UInt8.ofNat x.toNat) = x := by
  have hx := x.toNat_lt
  apply UInt32.toNat_inj.mp
  simp [ofBe32]
  omega

theorem be32_ofBe32 (a b c d : UInt8) : be32 (ofBe32 a b c d) = [a, b, c, d] := by
  have ha := a.toNat_lt
  have hb := b.toNat_lt
  have hc := c.toNat_lt
  have hd := d.toNat_lt
  have hx : (ofBe32 a b c d).toNat =
      a.toNat * 2 ^ 24 + b.toNat * 2 ^ 16 + c.toNat * 2 ^ 8 + d.toNat := by
    rw [ofBe32, UInt32.toNat_ofNat']
    omega
  simp only [be32, hx, List.cons.injEq, and_true]
  refine ⟨?_, ?_, ?_, ?_⟩ <;> apply UInt8.toNat_inj.mp <;> rw [UInt8.toNat_ofNat'] <;> omega

def byteAt (b : Bytes) (off : Nat) : UInt8 := b.getD off 0

def u16At (b : Bytes) (off : Nat) : UInt16 := ofBe16 (byteAt b off) (byteAt b (off + 1))

def u32At (b : Bytes) (off : Nat) : UInt32 :=
  ofBe32 (byteAt b off) (byteAt b (off + 1)) (byteAt b (off + 2)) (byteAt b (off + 3))

def u64At (b : Bytes) (off : Nat) : UInt64 :=
  UInt64.ofNat ((u32At b off).toNat * 2 ^ 32 + (u32At b (off + 4)).toNat)

theorem byteAt_append (h : pre.length ≤ off) :
    byteAt (pre ++ rest) off = byteAt rest (off - pre.length) := by
  simp [byteAt, List.getElem?_append_right h]

theorem u16At_append (h : pre.length ≤ off) :
    u16At (pre ++ rest) off = u16At rest (off - pre.length) := by
  have h1 : off + 1 - pre.length = off - pre.length + 1 := by omega
  simp [u16At, byteAt_append h, byteAt_append (Nat.le_succ_of_le h), h1]

theorem u32At_append (h : pre.length ≤ off) :
    u32At (pre ++ rest) off = u32At rest (off - pre.length) := by
  have h1 : off + 1 - pre.length = off - pre.length + 1 := by omega
  have h2 : off + 2 - pre.length = off - pre.length + 2 := by omega
  have h3 : off + 3 - pre.length = off - pre.length + 3 := by omega
  have hle (k : Nat) : pre.length ≤ off + k := Nat.le_add_right_of_le h
  simp [u32At, byteAt_append h, byteAt_append (hle _), h1, h2, h3]

theorem u64At_append (h : pre.length ≤ off) :
    u64At (pre ++ rest) off = u64At rest (off - pre.length) := by
  have h4 : off + 4 - pre.length = off - pre.length + 4 := by omega
  rw [u64At, u64At, u32At_append h, u32At_append (Nat.le_add_right_of_le h), h4]

@[simp] theorem u16At_be16 (x : UInt16) (rest : Bytes) : u16At (be16 x ++ rest) 0 = x :=
  ofBe16_be16 x

@[simp] theorem u32At_be32 (x : UInt32) (rest : Bytes) : u32At (be32 x ++ rest) 0 = x :=
  ofBe32_be32 x

@[simp] theorem u64At_be64 (x : UInt64) (rest : Bytes) : u64At (be64 x ++ rest) 0 = x := by
  have hx := x.toNat_lt
  have hh : u32At (be64 x ++ rest) 0 = UInt32.ofNat (x.toNat / 2 ^ 32) := by
    rw [be64, append_assoc, u32At_be32]
  have hl : u32At (be64 x ++ rest) 4 = UInt32.ofNat x.toNat := by
    rw [be64, append_assoc, u32At_append (le_of_eq (length_be32 _)), length_be32,
      Nat.sub_self, u32At_be32]
  apply UInt64.toNat_inj.mp
  rw [u64At, hh, hl, UInt64.toNat_ofNat', UInt32.toNat_ofNat', UInt32.toNat_ofNat']
  omega

@[simp] theorem u32At_be32_add (x : UInt32) (rest : Bytes) (off : Nat) :
    u32At (be32 x ++ rest) (off + 4) = u32At rest off := rfl

@[simp] theorem u16At_be32_add (x : UInt32) (rest : Bytes) (off : Nat) :
    u16At (be32 x ++ rest) (off + 4) = u16At rest off := rfl

theorem drop_eq_byteAt_cons (h : off < b.length) :
    b.drop off = byteAt b off :: b.drop (off + 1) := by
  simp [byteAt, h]

theorem byteAt_eq_take (h : off < b.length) : [byteAt b off] = (b.drop off).take 1 := by
  rw [drop_eq_byteAt_cons h, take_succ_cons, take_zero]

theorem be16_u16At (h : off + 2 ≤ b.length) : be16 (u16At b off) = (b.drop off).take 2 := by
  rw [u16At, be16_ofBe16, drop_eq_byteAt_cons (show off < b.length by omega),
    drop_eq_byteAt_cons (show off + 1 < b.length by omega)]
  simp

theorem be32_u32At (h : off + 4 ≤ b.length) : be32 (u32At b off) = (b.drop off).take 4 := by
  rw [u32At, be32_ofBe32, drop_eq_byteAt_cons (show off < b.length by omega),
    drop_eq_byteAt_cons (show off + 1 < b.length by omega),
    drop_eq_byteAt_cons (show off + 2 < b.length by omega),
    drop_eq_byteAt_cons (show off + 3 < b.length by omega)]
  simp

theorem slice_append (b : Bytes) (off m n : Nat) :
    (b.drop off).take m ++ (b.drop (off + m)).take n = (b.drop off).take (m + n) := by
  rw [take_add, drop_drop]

theorem be64_u64At (h : off + 8 ≤ b.length) : be64 (u64At b off) = (b.drop off).take 8 := by
  have hh := (u32At b off).toNat_lt
  have hl := (u32At b (off + 4)).toNat_lt
  have hx : (u64At b off).toNat = (u32At b off).toNat * 2 ^ 32 + (u32At b (off + 4)).toNat := by
    rw [u64At, UInt64.toNat_ofNat']
    omega
  have hd : UInt32.ofNat ((u64At b off).toNat / 2 ^ 32) = u32At b off := by
    apply UInt32.toNat_inj.mp
    rw [UInt32.toNat_ofNat', hx]
    omega
  have hm : UInt32.ofNat (u64At b off).toNat = u32At b (off + 4) := by
    apply UInt32.toNat_inj.mp
    rw [UInt32.toNat_ofNat', hx]
    omega
  rw [be64, hd, hm, be32_u32At (by omega), be32_u32At (by omega)]
  exact slice_append b off 4 4

def beNat (b : Bytes) : Nat := b.foldl (fun acc x => acc * 256 + x.toNat) 0

theorem beNat_append (front back : Bytes) :
    beNat (front ++ back) = beNat front * 256 ^ back.length + beNat back := by
  have hf : ∀ acc : Nat, back.foldl (fun acc x => acc * 256 + x.toNat) acc =
      acc * 256 ^ back.length + beNat back := by
    induction back with
    | nil => simp [beNat]
    | cons x back ih =>
      intro acc
      simp only [beNat, foldl_cons, length_cons] at ih ⊢
      rw [ih, ih (0 * 256 + x.toNat), pow_succ]
      ring
  rw [beNat, foldl_append, hf]
  rfl

theorem beNat_lt (b : Bytes) : beNat b < 256 ^ b.length := by
  induction b with
  | nil => simp [beNat]
  | cons x b ih =>
    have hx := x.toNat_lt
    have hc := beNat_append [x] b
    simp only [singleton_append] at hc
    rw [hc, length_cons, pow_succ]
    have : beNat [x] = x.toNat := by simp [beNat]
    nlinarith

def beBytes : Nat → Nat → Bytes
  | 0, _ => []
  | width + 1, n => beBytes width (n / 256) ++ [UInt8.ofNat n]

@[simp] theorem length_beBytes (width n : Nat) : (beBytes width n).length = width := by
  induction width generalizing n with
  | zero => rfl
  | succ width ih => simp [beBytes, ih]

theorem beNat_concat (b : Bytes) (x : UInt8) : beNat (b ++ [x]) = beNat b * 256 + x.toNat := by
  simp [beNat]

theorem beNat_beBytes (width n : Nat) : beNat (beBytes width n) = n % 256 ^ width := by
  induction width generalizing n with
  | zero => simp [beBytes, beNat, Nat.mod_one]
  | succ width ih =>
    have hl : (UInt8.ofNat n).toNat = n % 256 := UInt8.toNat_ofNat'
    rw [beBytes, beNat_concat, ih, hl, pow_succ', Nat.mod_mul]
    ring

theorem beBytes_beNat (b : Bytes) : beBytes b.length (beNat b) = b := by
  induction b using List.reverseRecOn with
  | nil => rfl
  | append_singleton b x ih =>
    have hx := x.toNat_lt
    have hd : (beNat b * 256 + x.toNat) / 256 = beNat b := by omega
    have hl : UInt8.ofNat (beNat b * 256 + x.toNat) = x := by
      rw [← UInt8.toNat_inj, UInt8.toNat_ofNat']
      omega
    rw [length_append, length_singleton, beBytes, beNat_concat, hd, ih, hl]

theorem beNat_be32 (x : UInt32) : beNat (be32 x) = x.toNat := by
  have hx := x.toNat_lt
  simp [beNat, be32]
  omega

end XrayCore.Lib
