import Mathlib.Data.List.Perm.Basic
import Mathlib.Data.Nat.Bitwise
import XrayCore.Lib.BigEndian
import XrayCore.Lib.Fallible

/-!
# Layouts

A layout says how groups of six bits are written as bytes and which bytes are padding. The two fixed
layouts have high entropy or are printable; a custom one is given by a pattern of eight letters, for
the bits of a byte: two `x` that mark a group, two `p` and four `v` that hold it. Padding is what
has only one of the two marks.
-/

namespace XrayCore.Sudoku

open Lib List

inductive SudokuError
  | asciiMode (other : List Char)
  | patternLength (n : Nat)
  | patternChar (c : Char)
  | patternCounts
  | emptyPaddingPool
  | gridWithoutClues (grid : Nat)
  | notEnoughGrids (n : Nat)
  | noValidClueSet (grid : Nat)
  | keyCollision (old b : UInt8)
  | tableSetMissing
  | encodeMissing (b : UInt8)
  | hintTuple
  | layoutSetMissing
  | packedByte (b : UInt8)
  deriving DecidableEq

def SudokuError.message : SudokuError → String
  | asciiMode other => "invalid sudoku ascii mode: " ++ String.ofList other
  | patternLength n => "customTable must be 8 chars, got " ++ toString n
  | patternChar c => "customTable has invalid char " ++ c.quote
  | patternCounts => "customTable must contain exactly 2 x, 2 p and 4 v"
  | emptyPaddingPool => "customTable produced empty padding pool"
  | gridWithoutClues grid => "grid " ++ toString grid ++ " has no uniquely decodable clue set"
  | notEnoughGrids n => "not enough sudoku grids: " ++ toString n
  | noValidClueSet grid => "grid " ++ toString grid ++ " has no valid clue set"
  | keyCollision old b =>
    "decode key collision for byte " ++ toString old ++ " and " ++ toString b
  | tableSetMissing => "sudoku table set missing"
  | encodeMissing b => "sudoku encode table missing for byte " ++ toString b
  | hintTuple => "invalid sudoku hint tuple"
  | layoutSetMissing => "sudoku layout set missing"
  | packedByte b => "invalid packed sudoku byte: " ++ toString b

structure Unicode where
  isWhitespace : Char → Bool
  toLowercase : List Char → List Char

def Unicode.trim (u : Unicode) (s : List Char) : List Char :=
  ((s.dropWhile u.isWhitespace).reverse.dropWhile u.isWhitespace).reverse

def bit (k : UInt8) : UInt8 := 1 <<< k

def hasBit (b k : UInt8) : Bool := b &&& bit k ≠ 0

def allBytes : Bytes := (range 256).map UInt8.ofNat

def countOnes (b : UInt8) : Nat := ((range 8).map UInt8.ofNat).countP (hasBit b)

theorem mem_allBytes (b : UInt8) : b ∈ allBytes :=
  mem_map.mpr ⟨b.toNat, mem_range.mpr b.toNat_lt, UInt8.ofNat_toNat⟩

theorem forall_byte {P : UInt8 → Prop} (h : ∀ b ∈ allBytes, P b) (b : UInt8) : P b :=
  h b (mem_allBytes b)

theorem toNat_shift : ∀ n < 8, (bit (UInt8.ofNat n)).toNat = 2 ^ n := by decide

variable {a b j k : UInt8}

theorem toNat_bit (hk : k < 8) : (bit k).toNat = 2 ^ k.toNat := by
  have := toNat_shift k.toNat (UInt8.lt_iff_toNat_lt.mp hk)
  rwa [UInt8.ofNat_toNat] at this

theorem hasBit_eq (hk : k < 8) (b : UInt8) : hasBit b k = b.toNat.testBit k.toNat := by
  rw [hasBit, Bool.eq_iff_iff, decide_eq_true_eq, ne_eq, ← UInt8.toNat_inj, UInt8.toNat_and,
    toNat_bit hk, Nat.and_two_pow]
  cases b.toNat.testBit k.toNat <;> simp

theorem hasBit_or (hk : k < 8) (a b : UInt8) : hasBit (a ||| b) k = (hasBit a k || hasBit b k) := by
  rw [hasBit_eq hk, hasBit_eq hk, hasBit_eq hk, UInt8.toNat_or, Nat.testBit_or]

theorem hasBit_and (hk : k < 8) (a b : UInt8) :
    hasBit (a &&& b) k = (hasBit a k && hasBit b k) := by
  rw [hasBit_eq hk, hasBit_eq hk, hasBit_eq hk, UInt8.toNat_and, Nat.testBit_and]

theorem hasBit_bit (hj : j < 8) (hk : k < 8) : hasBit (bit j) k = decide (j = k) := by
  rw [hasBit_eq hk, toNat_bit hj, Nat.testBit_two_pow]
  simp [UInt8.toNat_inj]

theorem hasBit_notBit (hj : j < 8) (hk : k < 8) : hasBit (~~~(bit j)) k = decide (j ≠ k) := by
  have hall : ∀ m < 8, ∀ n < 8, hasBit (~~~(bit (UInt8.ofNat m))) (UInt8.ofNat n) =
      decide (UInt8.ofNat m ≠ UInt8.ofNat n) := by decide +kernel
  have := hall j.toNat (UInt8.lt_iff_toNat_lt.mp hj) k.toNat (UInt8.lt_iff_toNat_lt.mp hk)
  rwa [UInt8.ofNat_toNat, UInt8.ofNat_toNat] at this

theorem eq_of_hasBit (h : ∀ k < 8, hasBit a k = hasBit b k) : a = b := by
  refine UInt8.toNat_inj.mp (Nat.eq_of_testBit_eq fun i => ?_)
  by_cases hi : i < 8
  · have hlt : UInt8.ofNat i < 8 := by
      exact (Nat.mod_le _ _).trans_lt hi
    have hn : (UInt8.ofNat i).toNat = i := by
      rw [UInt8.toNat_ofNat']
      omega
    have := h _ hlt
    rwa [hasBit_eq hlt, hasBit_eq hlt, hn] at this
  · have hle : 2 ^ 8 ≤ 2 ^ i := Nat.pow_le_pow_right (by decide) (by omega)
    rw [Nat.testBit_lt_two_pow (a.toNat_lt.trans_le hle),
      Nat.testBit_lt_two_pow (b.toNat_lt.trans_le hle)]

def normalizeCustomTable (u : Unicode) (pattern : List Char) : Except SudokuError (List Char) :=
  let cleaned := (u.toLowercase (u.trim pattern)).filter fun c => !u.isWhitespace c
  let len := (cleaned.map fun c => c.utf8Size).sum
  if len ≠ 8 then .error (.patternLength len)
  else
    match cleaned.find? fun c => c ≠ 'x' ∧ c ≠ 'p' ∧ c ≠ 'v' with
    | some c => .error (.patternChar c)
    | none =>
      if cleaned.count 'x' ≠ 2 ∨ cleaned.count 'p' ≠ 2 ∨ cleaned.count 'v' ≠ 4 then
        .error .patternCounts
      else .ok cleaned

def bitsFor (c : Char) (cleaned : List Char) : Bytes :=
  (cleaned.zipIdx.filter fun p => p.1 = c).map fun p => UInt8.ofNat (7 - p.2)

def encodeGroupWithDropX (group : UInt8) (xBits pBits vBits : Bytes) (xMask : UInt8)
    (dropX : Option Nat) : UInt8 :=
  let out := match dropX with
    | some drop => xMask &&& ~~~(bit (xBits.getD drop 0))
    | none => xMask
  let val := (group >>> 4) &&& 0x03
  let pos := group &&& 0x0f
  let out := if val &&& 0x02 ≠ 0 then out ||| bit (pBits.getD 0 0) else out
  let out := if val &&& 0x01 ≠ 0 then out ||| bit (pBits.getD 1 0) else out
  vBits.zipIdx.foldl (fun out p =>
    if (pos >>> (3 - UInt8.ofNat p.2)) &&& 0x01 = 1 then out ||| bit p.1 else out) out

structure CustomLayout where
  xBits : Bytes
  pBits : Bytes
  vBits : Bytes
  xMask : UInt8
  padMarker : UInt8
  paddingPool : Bytes
  deriving DecidableEq

namespace CustomLayout

def dropped (xBits pBits vBits : Bytes) (xMask : UInt8) : Bytes :=
  (range xBits.length).flatMap fun drop =>
    (range 4).flatMap fun val =>
      (range 16).map fun pos =>
        encodeGroupWithDropX ((UInt8.ofNat val <<< 4) ||| UInt8.ofNat pos) xBits pBits vBits xMask
          (some drop)

def poolOf (xBits pBits vBits : Bytes) (xMask : UInt8) : Bytes :=
  allBytes.filter fun b => b ∈ dropped xBits pBits vBits xMask ∧ countOnes b ≥ 5

def new (u : Unicode) (pattern : List Char) : Except SudokuError CustomLayout := do
  let cleaned ← normalizeCustomTable u pattern
  let xBits := bitsFor 'x' cleaned
  let pBits := bitsFor 'p' cleaned
  let vBits := bitsFor 'v' cleaned
  let xMask := xBits.foldl (fun acc b => acc ||| bit b) 0
  match poolOf xBits pBits vBits xMask with
  | [] => .error .emptyPaddingPool
  | padMarker :: pool => .ok ⟨xBits, pBits, vBits, xMask, padMarker, padMarker :: pool⟩

def encodeGroup (c : CustomLayout) (group : UInt8) : UInt8 :=
  encodeGroupWithDropX group c.xBits c.pBits c.vBits c.xMask none

def decodeGroup (c : CustomLayout) (b : UInt8) : Option UInt8 :=
  if b &&& c.xMask ≠ c.xMask then none
  else
    let val : UInt8 := if hasBit b (c.pBits.getD 0 0) then 0x02 else 0
    let val := if hasBit b (c.pBits.getD 1 0) then val ||| 0x01 else val
    let pos := c.vBits.zipIdx.foldl (fun (pos : UInt8) p =>
      if hasBit b p.1 then pos ||| bit (3 - UInt8.ofNat p.2) else pos) 0
    some (((val &&& 0x03) <<< 4) ||| (pos &&& 0x0f))

end CustomLayout

inductive Layout
  | entropy
  | ascii
  | custom (c : CustomLayout)
  deriving DecidableEq

namespace Layout

def hintMask : Layout → UInt8
  | entropy => 0x90
  | ascii => 0x40
  | custom c => c.xMask

def hintValue : Layout → UInt8
  | entropy => 0x00
  | ascii => 0x40
  | custom c => c.xMask

def padMarker : Layout → UInt8
  | entropy => 0x80
  | ascii => 0x3f
  | custom c => c.padMarker

def paddingPool : Layout → Bytes
  | entropy => (range 8).flatMap fun i => [0x80 + UInt8.ofNat i, 0x10 + UInt8.ofNat i]
  | ascii => (range 32).map fun i => 0x20 + UInt8.ofNat i
  | custom c => c.paddingPool

def encodeGroup : Layout → UInt8 → UInt8
  | entropy, group =>
    let v := group &&& 0x3f
    ((v &&& 0x30) <<< 1) ||| (v &&& 0x0f)
  | ascii, group =>
    let b := 0x40 ||| (group &&& 0x3f)
    if b = 0x7f then 10 else b
  | custom c, group => c.encodeGroup group

def decodeGroup : Layout → UInt8 → Option UInt8
  | entropy, b => if b &&& 0x90 ≠ 0 then none else some (((b >>> 1) &&& 0x30) ||| (b &&& 0x0f))
  | ascii, b =>
    if b = 10 then some 0x3f else if b &&& 0x40 = 0 then none else some (b &&& 0x3f)
  | custom c, b => c.decodeGroup b

def isHint (l : Layout) (b : UInt8) : Bool :=
  (b &&& l.hintMask) = l.hintValue || (l.hintMask = 0x40 && b = 10)

structure Sound (l : Layout) : Prop where
  hint : ∀ g, l.isHint (l.encodeGroup g) = true
  decode : ∀ g, l.decodeGroup (l.encodeGroup g) = some (g &&& 0x3f)
  pad : ∀ b ∈ l.paddingPool, l.isHint b = false
  marker : l.padMarker ∈ l.paddingPool
  other : ∃ b ∈ l.paddingPool, b ≠ l.padMarker

theorem sound_entropy : entropy.Sound := by
  refine ⟨forall_byte ?_, forall_byte ?_, ?_, ?_, ⟨0x10, ?_, ?_⟩⟩ <;> decide +kernel

theorem sound_ascii : ascii.Sound := by
  refine ⟨forall_byte ?_, forall_byte ?_, ?_, ?_, ⟨0x20, ?_, ?_⟩⟩ <;> decide +kernel

end Layout

theorem normalizeCustomTable_ok (h : normalizeCustomTable u pattern = .ok cleaned) :
    (∀ c ∈ cleaned, c = 'x' ∨ c = 'p' ∨ c = 'v') ∧ cleaned.count 'x' = 2 ∧
      cleaned.count 'p' = 2 ∧ cleaned.count 'v' = 4 := by
  unfold normalizeCustomTable at h
  dsimp only at h
  split at h
  · cases h
  split at h
  · cases h
  next hf =>
  split at h
  · cases h
  next hco =>
  obtain rfl := Except.ok.inj h
  refine ⟨fun c hc => ?_, by omega, by omega, by omega⟩
  have := find?_eq_none.mp hf c hc
  simp only [decide_eq_true_eq] at this
  tauto

theorem length_bitsFor (c : Char) (cleaned : List Char) :
    (bitsFor c cleaned).length = cleaned.count c := by
  rw [bitsFor, length_map, ← countP_eq_length_filter, count]
  conv_rhs => rw [← zipIdx_map_fst 0 cleaned, countP_map]
  refine countP_congr fun p _ => ?_
  simp

theorem bitsFor_perm (h : ∀ c ∈ cleaned, c = 'x' ∨ c = 'p' ∨ c = 'v') :
    (bitsFor 'x' cleaned ++ (bitsFor 'p' cleaned ++ bitsFor 'v' cleaned)).Perm
      ((range cleaned.length).map fun i => UInt8.ofNat (7 - i)) := by
  have hm : ∀ p ∈ cleaned.zipIdx, p.1 = 'x' ∨ p.1 = 'p' ∨ p.1 = 'v' := by
    intro p hp
    exact h p.1 (fst_mem_of_mem_zipIdx hp)
  have hall : cleaned.zipIdx.map (fun p => UInt8.ofNat (7 - p.2)) =
      (range cleaned.length).map fun i => UInt8.ofNat (7 - i) := by
    rw [range_eq_range', ← zipIdx_map_snd 0 cleaned, map_map]
    rfl
  rw [← hall, bitsFor, bitsFor, bitsFor, ← map_append, ← map_append]
  refine List.Perm.map _ ?_
  have hx := filter_append_perm (fun p : Char × Nat => decide (p.1 = 'x')) cleaned.zipIdx
  refine (List.Perm.append_left _ ?_).trans hx
  have hp := filter_append_perm (fun p : Char × Nat => decide (p.1 = 'p'))
    (cleaned.zipIdx.filter fun p => !decide (p.1 = 'x'))
  rw [filter_filter, filter_filter] at hp
  convert hp using 2
  · refine filter_congr fun p hp => ?_
    rcases hm p hp with h | h | h <;> simp [h]
  · refine filter_congr fun p hp => ?_
    rcases hm p hp with h | h | h <;> simp [h]

theorem hasBit_orIf (hj : j < 8) (hk : k < 8) (c : Prop) [Decidable c] (a : UInt8) :
    hasBit (if c then a ||| bit j else a) k = (hasBit a k || (decide c && decide (j = k))) := by
  split <;> simp_all [hasBit_or hk, hasBit_bit hj hk]

def groupBit (p₀ p₁ v₀ v₁ v₂ v₃ g k : UInt8) : Bool :=
  hasBit g 5 && decide (p₀ = k) || hasBit g 4 && decide (p₁ = k) ||
    hasBit g 3 && decide (v₀ = k) || hasBit g 2 && decide (v₁ = k) ||
    hasBit g 1 && decide (v₂ = k) || hasBit g 0 && decide (v₃ = k)

theorem hasBit_encode {p₀ p₁ v₀ v₁ v₂ v₃ mask : UInt8} (xs : Bytes) (dropX : Option Nat)
    (group : UInt8) (hp : ∀ i ∈ [p₀, p₁, v₀, v₁, v₂, v₃], i < 8) (hk : k < 8) :
    hasBit (encodeGroupWithDropX group xs [p₀, p₁] [v₀, v₁, v₂, v₃] mask dropX) k =
      (hasBit (match dropX with
        | some drop => mask &&& ~~~(bit (xs.getD drop 0))
        | none => mask) k || groupBit p₀ p₁ v₀ v₁ v₂ v₃ group k) := by
  simp only [forall_mem_cons] at hp
  obtain ⟨hp0, hp1, hv0, hv1, hv2, hv3, -⟩ := hp
  have hg : ∀ g : UInt8, decide ((g >>> 4) &&& 0x03 &&& 0x02 ≠ 0) = hasBit g 5 ∧
      decide ((g >>> 4) &&& 0x03 &&& 0x01 ≠ 0) = hasBit g 4 ∧
      decide ((g &&& 0x0f) >>> (3 - UInt8.ofNat 0) &&& 0x01 = 1) = hasBit g 3 ∧
      decide ((g &&& 0x0f) >>> (3 - UInt8.ofNat 1) &&& 0x01 = 1) = hasBit g 2 ∧
      decide ((g &&& 0x0f) >>> (3 - UInt8.ofNat 2) &&& 0x01 = 1) = hasBit g 1 ∧
      decide ((g &&& 0x0f) >>> (3 - UInt8.ofNat 3) &&& 0x01 = 1) = hasBit g 0 :=
    forall_byte (by decide +kernel)
  obtain ⟨h5, h4, h3, h2, h1, h0⟩ := hg group
  simp only [encodeGroupWithDropX, zipIdx_cons, zipIdx_nil, foldl_cons,
    foldl_nil, getD_cons_zero, getD_cons_succ, hasBit_orIf hp0 hk,
    hasBit_orIf hp1 hk, hasBit_orIf hv0 hk, hasBit_orIf hv1 hk, hasBit_orIf hv2 hk,
    hasBit_orIf hv3 hk, zero_add, Nat.reduceAdd, h5, h4, h3, h2, h1, h0, groupBit, Bool.or_assoc]

namespace CustomLayout

structure Shape (c : CustomLayout) (x₀ x₁ p₀ p₁ v₀ v₁ v₂ v₃ : UInt8) : Prop where
  xBits : c.xBits = [x₀, x₁]
  pBits : c.pBits = [p₀, p₁]
  vBits : c.vBits = [v₀, v₁, v₂, v₃]
  perm : [x₀, x₁, p₀, p₁, v₀, v₁, v₂, v₃].Perm ((range 8).map fun i => UInt8.ofNat (7 - i))
  xMask : c.xMask = bit x₀ ||| bit x₁
  pool : c.paddingPool = poolOf c.xBits c.pBits c.vBits c.xMask
  marker : c.padMarker ∈ c.paddingPool

theorem new_shape
    (h : new u pattern = .ok c) : ∃ x₀ x₁ p₀ p₁ v₀ v₁ v₂ v₃, c.Shape x₀ x₁ p₀ p₁ v₀ v₁ v₂ v₃ := by
  obtain ⟨cleaned, hc, h⟩ := bind_ok.mp h
  obtain ⟨hch, hx, hp, hv⟩ := normalizeCustomTable_ok hc
  have hpe := bitsFor_perm hch
  have hl := hpe.length_eq
  rw [← length_bitsFor] at hx hp hv
  rw [length_append, length_append, hx, hp, hv, length_map, length_range] at hl
  dsimp only at h
  split at h
  · cases h
  next marker pool hpo =>
  obtain rfl := Except.ok.inj h
  obtain ⟨x₀, x₁, hxs⟩ := length_eq_two.mp hx
  obtain ⟨p₀, p₁, hps⟩ := length_eq_two.mp hp
  obtain ⟨v₀, v₁, v₂, v₃, hvs⟩ : ∃ v₀ v₁ v₂ v₃, bitsFor 'v' cleaned = [v₀, v₁, v₂, v₃] := by
    match hb : bitsFor 'v' cleaned, hv with
    | [v₀, v₁, v₂, v₃], _ => exact ⟨v₀, v₁, v₂, v₃, rfl⟩
  rw [hxs, hps, hvs, ← hl] at hpe
  refine ⟨x₀, x₁, p₀, p₁, v₀, v₁, v₂, v₃, hxs, hps, hvs, hpe, ?_, hpo.symm, by simp⟩
  simp [hxs]

variable {c : CustomLayout} {x₀ x₁ p₀ p₁ v₀ v₁ v₂ v₃ : UInt8}

variable (h : c.Shape x₀ x₁ p₀ p₁ v₀ v₁ v₂ v₃)

include h

theorem Shape.lt : ∀ i ∈ [x₀, x₁, p₀, p₁, v₀, v₁, v₂, v₃], i < 8 := by
  intro i hi
  have hall : ∀ i ∈ (range 8).map fun i => UInt8.ofNat (7 - i), i < 8 := by
    decide +kernel
  exact hall i (h.perm.mem_iff.mp hi)

theorem Shape.nodup : [x₀, x₁, p₀, p₁, v₀, v₁, v₂, v₃].Nodup := h.perm.nodup_iff.mpr (by decide)

theorem Shape.mem (hk : k < 8) : k ∈ [x₀, x₁, p₀, p₁, v₀, v₁, v₂, v₃] := by
  have hall : ∀ n < 8, UInt8.ofNat n ∈ (range 8).map fun i => UInt8.ofNat (7 - i) := by decide
  have := hall k.toNat (UInt8.lt_iff_toNat_lt.mp hk)
  rw [UInt8.ofNat_toNat] at this
  exact h.perm.mem_iff.mpr this

theorem Shape.hasBit_xMask (hk : k < 8) :
    hasBit c.xMask k = (decide (x₀ = k) || decide (x₁ = k)) := by
  rw [h.xMask, hasBit_or hk, hasBit_bit (h.lt _ (by simp)) hk, hasBit_bit (h.lt _ (by simp)) hk]

theorem Shape.hasBit_group (g : UInt8) (hk : k < 8) :
    hasBit (c.encodeGroup g) k = (hasBit c.xMask k || groupBit p₀ p₁ v₀ v₁ v₂ v₃ g k) := by
  rw [encodeGroup, h.pBits, h.vBits, hasBit_encode _ _ _ (fun i hi => h.lt i (by simp_all)) hk]

theorem Shape.encodeGroup_and (g : UInt8) : c.encodeGroup g &&& c.xMask = c.xMask := by
  refine eq_of_hasBit fun k hk => ?_
  rw [hasBit_and hk, h.hasBit_group g hk]
  cases hasBit c.xMask k <;> simp

def groupOf (b₅ b₄ b₃ b₂ b₁ b₀ : Bool) : UInt8 :=
  (if b₅ then 32 else 0) ||| (if b₄ then 16 else 0) ||| (if b₃ then 8 else 0) |||
    (if b₂ then 4 else 0) ||| (if b₁ then 2 else 0) ||| (if b₀ then 1 else 0)

theorem Shape.decodeGroup_eq (hm : b &&& c.xMask = c.xMask) : c.decodeGroup b =
      some (groupOf (hasBit b p₀) (hasBit b p₁) (hasBit b v₀) (hasBit b v₁) (hasBit b v₂)
        (hasBit b v₃)) := by
  rw [decodeGroup, if_neg (not_not.mpr hm), h.pBits, h.vBits]
  simp only [zipIdx_cons, zipIdx_nil, foldl_cons, foldl_nil, getD_cons_zero, getD_cons_succ]
  generalize hasBit b p₀ = b₅, hasBit b p₁ = b₄, hasBit b v₀ = b₃, hasBit b v₁ = b₂,
    hasBit b v₂ = b₁, hasBit b v₃ = b₀
  revert b₅ b₄ b₃ b₂ b₁ b₀
  decide

theorem Shape.decodeGroup_encodeGroup (g : UInt8) :
    c.decodeGroup (c.encodeGroup g) = some (g &&& 0x3f) := by
  have hn := h.nodup
  simp only [nodup_cons, mem_cons, not_or] at hn
  have hlt := h.lt
  simp only [forall_mem_cons] at hlt
  obtain ⟨-, -, hp0, hp1, hv0, hv1, hv2, hv3, -⟩ := hlt
  have hg : ∀ g : UInt8, groupOf (hasBit g 5) (hasBit g 4) (hasBit g 3) (hasBit g 2)
      (hasBit g 1) (hasBit g 0) = g &&& 0x3f := forall_byte (by decide +kernel)
  rw [h.decodeGroup_eq (h.encodeGroup_and g), ← hg]
  simp [groupBit, h.hasBit_group g, h.hasBit_xMask, hp0, hp1, hv0, hv1, hv2, hv3, hn, eq_comm]

variable {x : UInt8}

theorem Shape.hasBit_dropped (hx : [x₀, x₁].getD dr 0 = x) (hx8 : x < 8) (g : UInt8) (hk : k < 8) :
    hasBit (encodeGroupWithDropX g c.xBits c.pBits c.vBits c.xMask (some dr)) k =
      (hasBit c.xMask k && decide (x ≠ k) || groupBit p₀ p₁ v₀ v₁ v₂ v₃ g k) := by
  rw [h.xBits, h.pBits, h.vBits, hasBit_encode _ _ _ (fun i hi => h.lt i (by simp_all)) hk]
  dsimp only
  rw [hx, hasBit_and hk, hasBit_notBit hx8 hk]

theorem Shape.not_hint (hb : b ∈ c.paddingPool) : b &&& c.xMask ≠ c.xMask := by
  rw [h.pool, poolOf, mem_filter, decide_eq_true_eq] at hb
  obtain ⟨-, hb, -⟩ := hb
  rw [dropped, mem_flatMap] at hb
  obtain ⟨dr, hd, hb⟩ := hb
  obtain ⟨val, -, hb⟩ := mem_flatMap.mp hb
  obtain ⟨pos, -, rfl⟩ := mem_map.mp hb
  rw [h.xBits, mem_range] at hd
  intro hma
  have hn := h.nodup
  have hlt := h.lt
  -- the mark that is left out is not among the other bits
  have hm : ∀ x, x = x₀ ∨ x = x₁ → [x₀, x₁].getD dr 0 = x → False := by
    intro x hx hd
    have hx8 : x < 8 := by rcases hx with rfl | rfl <;> simp [hlt]
    have hbi := congrArg (hasBit · x) hma
    simp only [hasBit_and hx8, h.hasBit_dropped hd hx8 _ hx8, h.hasBit_xMask hx8] at hbi
    rcases hx with rfl | rfl <;> grind [groupBit]
  match dr, hd with
  | 0, _ => exact hm x₀ (.inl rfl) rfl
  | 1, _ => exact hm x₁ (.inr rfl) rfl

omit h in
theorem countOnes_of_all_but (hx : x < 8)
    (h : ∀ k < 8, hasBit b k = decide (x ≠ k)) : countOnes b = 7 := by
  have hall : ∀ n < 8, ((range 8).map UInt8.ofNat).countP
      (fun k => decide (UInt8.ofNat n ≠ k)) = 7 := by decide +kernel
  have hx' := hall x.toNat (UInt8.lt_iff_toNat_lt.mp hx)
  rw [UInt8.ofNat_toNat] at hx'
  rw [countOnes, ← hx']
  refine countP_congr fun k hk => ?_
  have hk8 : ∀ k ∈ (range 8).map UInt8.ofNat, k < 8 := by decide +kernel
  rw [h k (hk8 k hk)]

theorem Shape.mem_pool (hd : dr < 2) (hx : [x₀, x₁].getD dr 0 = x) (hxs : x = x₀ ∨ x = x₁) :
    ∃ b ∈ c.paddingPool, ∀ k < 8, hasBit b k = decide (x ≠ k) := by
  have hn := h.nodup
  have hlt := h.lt
  have hx8 : x < 8 := by rcases hxs with rfl | rfl <;> simp [hlt]
  have hb : ∀ k < 8, hasBit (encodeGroupWithDropX 0x3f c.xBits c.pBits c.vBits c.xMask
      (some dr)) k = decide (x ≠ k) := by
    intro k hk
    have ho : hasBit 0x3f 5 ∧ hasBit 0x3f 4 ∧ hasBit 0x3f 3 ∧ hasBit 0x3f 2 ∧
        hasBit 0x3f 1 ∧ hasBit 0x3f 0 := by decide
    rw [h.hasBit_dropped hx hx8 _ hk, h.hasBit_xMask hk]
    have hm := h.mem hk
    simp only [mem_cons, not_mem_nil, or_false] at hm
    rcases hxs with rfl | rfl <;>
      rcases hm with rfl | rfl | rfl | rfl | rfl | rfl | rfl | rfl <;> grind [groupBit]
  refine ⟨_, ?_, hb⟩
  rw [h.pool, poolOf, mem_filter, decide_eq_true_eq]
  refine ⟨mem_allBytes _, ?_, ?_⟩
  · rw [dropped, mem_flatMap]
    refine ⟨dr, by rwa [mem_range, h.xBits], mem_flatMap.mpr ⟨3, by simp, ?_⟩⟩
    exact mem_map.mpr ⟨15, by simp, rfl⟩
  · rw [countOnes_of_all_but hx8 hb]
    decide

theorem Shape.sound : (Layout.custom c).Sound := by
  have hn := h.nodup
  simp only [nodup_cons, mem_cons, not_or] at hn
  have hlt := h.lt
  simp only [forall_mem_cons] at hlt
  refine ⟨fun g => ?_, h.decodeGroup_encodeGroup, fun b hb => ?_, h.marker, ?_⟩
  · simp [Layout.isHint, Layout.hintMask, Layout.hintValue, Layout.encodeGroup, h.encodeGroup_and g]
  · -- a line feed counts as a group for the mask of the printable layout only
    have hm : c.xMask ≠ 0x40 := by
      intro hm
      have ho : ∀ k < 8, (decide (x₀ = k) || decide (x₁ = k)) = hasBit 0x40 k := by
        intro k hk
        rw [← h.hasBit_xMask hk, hm]
      have hs : ∀ k < 8, hasBit 0x40 k = decide (6 = k) := fun k hk =>
        hasBit_bit (show (6 : UInt8) < 8 by decide) hk
      have h0 := ho x₀ hlt.1
      have h1 := ho x₁ hlt.2.1
      rw [hs _ hlt.1] at h0
      rw [hs _ hlt.2.1] at h1
      simp only [decide_true, Bool.true_or, Bool.or_true] at h0 h1
      exact hn.1.1 ((of_decide_eq_true h0.symm).symm.trans (of_decide_eq_true h1.symm))
    have hno := h.not_hint hb
    simp [Layout.isHint, Layout.hintMask, Layout.hintValue, hno, hm]
  · obtain ⟨a, ha, hbi⟩ := h.mem_pool (by decide) (show [x₀, x₁].getD 0 0 = x₀ from rfl) (.inl rfl)
    obtain ⟨b, hb, hb'⟩ := h.mem_pool (by decide) (show [x₀, x₁].getD 1 0 = x₁ from rfl) (.inr rfl)
    have hne : a ≠ b := by
      rintro rfl
      have := (hbi x₀ hlt.1).symm.trans (hb' x₀ hlt.1)
      simp at this
      exact hn.1.1 this.symm
    by_cases hma : a = c.padMarker
    · exact ⟨b, hb, fun heq => hne (hma.trans heq.symm)⟩
    · exact ⟨a, ha, hma⟩

end CustomLayout

end XrayCore.Sudoku
