import XrayCore.Lib.Bits
import XrayCore.Lib.Fallible

/-!
# Base32 without padding

Bytes are cut into groups of five bits, each of which is written as a letter or a digit. The
accumulators have 32 bits and keep bits that are already written; only their low bits count.
-/

namespace XrayCore.Xdns

open Lib List

def toAsciiUppercase (c : UInt8) : UInt8 := if 97 ≤ c ∧ c ≤ 122 then c - 32 else c

def toAsciiLowercase (c : UInt8) : UInt8 := if 65 ≤ c ∧ c ≤ 90 then c + 32 else c

namespace Base32

def ALPHABET_UPPER : Bytes :=
  (range 26).map (fun i => UInt8.ofNat (65 + i)) ++ (range 6).map fun i => UInt8.ofNat (50 + i)

inductive Error
  | invalidChar (c : UInt8)
  deriving DecidableEq

def Error.message : Error → String
  | invalidChar c => "invalid base32 char: 0x" ++ String.ofList (Nat.toDigits 16 c.toNat)

def encodedLen (n : Nat) : Nat := (n * 8 + 4) / 5

def decodedLen (n : Nat) : Nat := n * 5 / 8

def symbol (v : Nat) : UInt8 := byteAt ALPHABET_UPPER v

def emit (bits nbits : Nat) : Bytes × Nat :=
  if 5 ≤ nbits then
    let (out, left) := emit bits (nbits - 5)
    (symbol ((bits >>> (nbits - 5)) &&& 0x1f) :: out, left)
  else ([], nbits)

def encodeInto (bits nbits : Nat) : Bytes → Bytes
  | [] => if 0 < nbits then [symbol ((bits <<< (5 - nbits)) % 2 ^ 32 &&& 0x1f)] else []
  | b :: input =>
    let bits := (bits <<< 8) % 2 ^ 32 ||| b.toNat
    let (out, nbits) := emit bits (nbits + 8)
    out ++ encodeInto bits nbits input

def encodeLower (p : Bytes) : Bytes := (encodeInto 0 0 p).map toAsciiLowercase

def decodeChar (c : UInt8) : Except Error Nat :=
  let upper := toAsciiUppercase c
  if 65 ≤ upper ∧ upper ≤ 90 then .ok (upper - 65).toNat
  else if 50 ≤ upper ∧ upper ≤ 55 then .ok (upper - 50 + 26).toNat
  else .error (.invalidChar c)

def decodeLoop (bits nbits : Nat) : Bytes → Except Error Bytes
  | [] => .ok []
  | c :: p => do
    let v ← decodeChar c
    let bits := (bits <<< 5) % 2 ^ 32 ||| v
    let nbits := nbits + 5
    if 8 ≤ nbits then
      let out ← decodeLoop bits (nbits - 8) p
      .ok (UInt8.ofNat (bits >>> (nbits - 8)) :: out)
    else decodeLoop bits nbits p

def decodeUpper (p : Bytes) : Except Error Bytes := decodeLoop 0 0 p

theorem and_group (v : Nat) : v &&& 0x1f = v % 2 ^ 5 := Nat.and_two_pow_sub_one_eq_mod v 5

theorem group_lt (v : Nat) : v &&& 0x1f < 2 ^ 5 := by
  rw [and_group]
  exact Nat.mod_lt _ (by decide)

theorem emit_spec (bits nbits : Nat) : ∃ vals : List Nat, (emit bits nbits).1 = vals.map symbol ∧
    (∀ v ∈ vals, v < 2 ^ 5) ∧ (emit bits nbits).2 < 5 ∧
    bitsAll 5 vals ++ bitsOf (emit bits nbits).2 bits = bitsOf nbits bits := by
  fun_induction emit bits nbits with
  | case1 nbits h out left hr ih =>
    rw [hr] at ih
    obtain ⟨vals, rfl, hlt, hl, hb⟩ := ih
    refine ⟨_ :: vals, rfl, forall_mem_cons.mpr ⟨group_lt _, hlt⟩, hl, ?_⟩
    have hs := bitsOf_add 5 (nbits - 5) bits
    rw [show 5 + (nbits - 5) = nbits by omega] at hs
    rw [hs, ← hb, bitsAll_cons, and_group, bitsOf_mod (le_refl 5), append_assoc]
  | case2 nbits h => exact ⟨[], rfl, by simp, by simpa using h, rfl⟩

theorem encodeInto_spec (bits nbits : Nat) (hn : nbits < 5) (p : Bytes) :
    ∃ (vals : List Nat) (k : Nat), encodeInto bits nbits p = vals.map symbol ∧
      (∀ v ∈ vals, v < 2 ^ 5) ∧ k < 5 ∧
      bitsAll 5 vals = bitsOf nbits bits ++ byteBits p ++ replicate k false := by
  induction p generalizing bits nbits with
  | nil =>
    by_cases h0 : 0 < nbits
    · refine ⟨[_], 5 - nbits, by rw [encodeInto, if_pos h0]; rfl, ?_, by omega, ?_⟩
      · simpa using group_lt _
      have hp := bitsOf_push_mod (m := nbits) (w := 32) bits
        (Nat.two_pow_pos (5 - nbits)) (by omega)
      rw [show nbits + (5 - nbits) = 5 by omega, Nat.or_zero, bitsOf_zero] at hp
      simp only [bitsAll_cons, bitsAll_nil, and_group, bitsOf_mod (le_refl 5), hp,
        byteBits_nil, append_nil]
    · obtain rfl : nbits = 0 := by omega
      exact ⟨[], 0, rfl, by simp, by decide, rfl⟩
  | cons b p ih =>
    obtain ⟨vals1, ho, hlt1, hl, hb1⟩ := emit_spec ((bits <<< 8) % 2 ^ 32 ||| b.toNat) (nbits + 8)
    obtain ⟨vals2, k, hrest, hlt2, hk, hb2⟩ := ih ((bits <<< 8) % 2 ^ 32 ||| b.toNat) _ hl
    refine ⟨vals1 ++ vals2, k, ?_, forall_mem_append.mpr ⟨hlt1, hlt2⟩, hk, ?_⟩
    · rw [encodeInto]
      simp only [ho, hrest, map_append]
    · rw [bitsAll_append, hb2, ← append_assoc, ← append_assoc, hb1,
        bitsOf_push_mod bits b.toNat_lt (by omega), byteBits_cons, append_assoc (bitsOf nbits bits)]

theorem decodeLoop_spec (hf : ∀ v < 2 ^ 5, decodeChar (f v) = .ok v)
    (bits nbits : Nat) (hn : nbits < 8) (vals : List Nat) (hlt : ∀ v ∈ vals, v < 2 ^ 5) :
    ∃ out r, decodeLoop bits nbits (vals.map f) = .ok out ∧ r.length < 8 ∧
      byteBits out ++ r = bitsOf nbits bits ++ bitsAll 5 vals := by
  induction vals generalizing bits nbits with
  | nil => exact ⟨[], bitsOf nbits bits, rfl, by simpa using hn, by simp⟩
  | cons v vals ih =>
    obtain ⟨hv, hlt⟩ := forall_mem_cons.mp hlt
    have hp := bitsOf_push_mod (m := nbits) (w := 32) bits hv (by omega)
    rw [map_cons, decodeLoop, hf v hv, ok_bind]
    generalize (bits <<< 5) % 2 ^ 32 ||| v = next at hp ⊢
    by_cases h8 : 8 ≤ nbits + 5
    · obtain ⟨out, r, ho, hr, hb⟩ := ih next (nbits + 5 - 8) (by omega) hlt
      refine ⟨UInt8.ofNat (next >>> (nbits + 5 - 8)) :: out, r, ?_, hr, ?_⟩
      · rw [if_pos h8, ho]
        rfl
      have hs := bitsOf_add 8 (nbits + 5 - 8) next
      rw [show 8 + (nbits + 5 - 8) = nbits + 5 by omega, hp] at hs
      rw [byteBits_cons, UInt8.toNat_ofNat', bitsOf_mod (le_refl 8), append_assoc, hb,
        ← append_assoc, ← hs, bitsAll_cons, append_assoc]
    · obtain ⟨out, r, ho, hr, hb⟩ := ih next (nbits + 5) (by omega) hlt
      refine ⟨out, r, by dsimp only; rw [if_neg h8, ho], hr, ?_⟩
      rw [hb, hp, bitsAll_cons, append_assoc]

theorem decodeChar_symbol (v : Nat) (hv : v < 2 ^ 5) :
    decodeChar (toAsciiUppercase (toAsciiLowercase (symbol v))) = .ok v := by
  have hall : ∀ v < 2 ^ 5,
      decodeChar (toAsciiUppercase (toAsciiLowercase (symbol v))) = .ok v := by decide
  exact hall v hv

theorem length_encodeLower (p : Bytes) : (encodeLower p).length = encodedLen p.length := by
  obtain ⟨vals, k, hv, -, hk, hb⟩ := encodeInto_spec 0 0 (by decide) p
  have hl := congrArg length hb
  simp only [length_bitsAll, length_append, length_bitsOf, length_byteBits, length_replicate] at hl
  rw [encodeLower, length_map, hv, length_map, encodedLen]
  omega

theorem decodeUpper_encodeLower (p : Bytes) :
    decodeUpper ((encodeLower p).map toAsciiUppercase) = .ok p := by
  obtain ⟨vals, k, hv, hlt, hk, hb⟩ := encodeInto_spec 0 0 (by decide) p
  obtain ⟨out, r, ho, hr, heq⟩ := decodeLoop_spec decodeChar_symbol 0 0 (by decide) vals hlt
  have hc : (encodeLower p).map toAsciiUppercase =
      vals.map fun v => toAsciiUppercase (toAsciiLowercase (symbol v)) := by
    simp [encodeLower, hv, Function.comp_def]
  have hs : byteBits out ++ r = byteBits p ++ replicate k false := by
    rw [heq, hb]
    rfl
  rw [decodeUpper, hc, ho, (byteBits_append_inj hr (by simp; omega) hs).1]

end Base32

end XrayCore.Xdns
