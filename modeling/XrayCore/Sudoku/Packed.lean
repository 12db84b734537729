import XrayCore.Lib.Bits
import XrayCore.Sudoku.Codec

/-!
# The codec with groups of six bits

The encoder cuts the bits of a call into groups of six and writes each with the layout at hand. The
last group is filled up, and after it comes the marker of the next layout, with which the decoder
drops the filling. The accumulators have 64 bits.
-/

namespace XrayCore.Sudoku

open Lib Sampler List

def lowBits (bitBuf bitCount : Nat) : Nat :=
  if 0 < bitCount then bitBuf &&& ((1 <<< bitCount) - 1) else 0

def maybePad (chance : Nat) (layout : Layout) : Sampler SudokuError Bytes := do
  if ← shouldPad chance then
    let pool := layout.paddingPool
    if pool.length = 1 then return [byteAt pool 0]
    else
      let b ← drawUntil fun n =>
        let b := byteAt pool (n % pool.length)
        if b ≠ layout.padMarker then some b else none
      return [b]
  else return []

structure PackedEncoder where
  layouts : List Layout
  paddingChance : Nat
  groupIndex : Nat
  layouts_ne_nil : layouts ≠ []

structure GroupState where
  groupIndex : Nat
  bitBuf : Nat
  bitCount : Nat

namespace PackedEncoder

def layoutsOf (tables : List Table) : List Layout :=
  if tables = [] then [.entropy] else tables.map Table.layout

theorem layoutsOf_ne_nil (tables : List Table) : layoutsOf tables ≠ [] := by
  unfold layoutsOf
  split
  · exact cons_ne_nil _ _
  · next h => simpa using h

def new (tables : List Table) (pMin pMax : Nat) : Sampler SudokuError PackedEncoder := do
  let chance ← pickPaddingChance pMin pMax
  return ⟨layoutsOf tables, chance, 0, layoutsOf_ne_nil tables⟩

theorem index_lt (e : PackedEncoder) (i : Nat) : i % e.layouts.length < e.layouts.length :=
  Nat.mod_lt _ (length_pos_of_ne_nil e.layouts_ne_nil)

def layout (e : PackedEncoder) (i : Nat) : Layout := e.layouts.get ⟨i % e.layouts.length, e.index_lt i⟩

def groupLoop (e : PackedEncoder) (i bitBuf bitCount : Nat) :
    Sampler SudokuError (Bytes × GroupState) :=
  if 6 ≤ bitCount then do
    let group := UInt8.ofNat ((bitBuf >>> (bitCount - 6)) &&& 0x3f)
    let pad ← maybePad e.paddingChance (e.layout i)
    let (out, s) ← groupLoop e (i + 1) (lowBits bitBuf (bitCount - 6)) (bitCount - 6)
    return (pad ++ (e.layout i).encodeGroup group :: out, s)
  else return ([], ⟨i, bitBuf, bitCount⟩)
termination_by bitCount

def byteLoop (e : PackedEncoder) (s : GroupState) : Bytes → Sampler SudokuError (Bytes × GroupState)
  | [] => return ([], s)
  | b :: input => do
    let (out, s) ← groupLoop e s.groupIndex ((s.bitBuf <<< 8) % 2 ^ 64 ||| b.toNat) (s.bitCount + 8)
    let (rest, s) ← byteLoop e s input
    return (out ++ rest, s)

def tailGroup (e : PackedEncoder) (s : GroupState) : Sampler SudokuError (Bytes × Nat) :=
  if 0 < s.bitCount then do
    let layout := e.layout s.groupIndex
    let group := UInt8.ofNat ((s.bitBuf <<< (6 - s.bitCount)) % 2 ^ 64 &&& 0x3f)
    let pad ← maybePad e.paddingChance layout
    return (pad ++ [layout.encodeGroup group, (e.layout (s.groupIndex + 1)).padMarker],
      s.groupIndex + 1)
  else return ([], s.groupIndex)

def encode (e : PackedEncoder) (input : Bytes) : Sampler SudokuError (Bytes × PackedEncoder) := do
  let (out, s) ← byteLoop e ⟨e.groupIndex, 0, 0⟩ input
  let (tail, i) ← tailGroup e s
  let pad ← maybePad e.paddingChance (e.layout i)
  return (out ++ tail ++ pad, { e with groupIndex := i })

def encodeAll (e : PackedEncoder) : List Bytes → Sampler SudokuError (List Bytes × PackedEncoder)
  | [] => return ([], e)
  | input :: inputs => do
    let (out, e) ← e.encode input
    let (outs, e) ← encodeAll e inputs
    return (out :: outs, e)

end PackedEncoder

structure PackedDecoder where
  groupIndex : Nat := 0
  bitBuf : Nat := 0
  bitCount : Nat := 0
  deriving DecidableEq

namespace PackedDecoder

def emit (bitBuf bitCount : Nat) : Bytes × Nat × Nat :=
  if 8 ≤ bitCount then
    let (out, left) := emit (lowBits bitBuf (bitCount - 8)) (bitCount - 8)
    (UInt8.ofNat ((bitBuf >>> (bitCount - 8)) &&& 0xff) :: out, left)
  else ([], bitBuf, bitCount)
termination_by bitCount

def step (layouts : List Layout) (s : PackedDecoder × Bytes) (b : UInt8) :
    Except SudokuError (PackedDecoder × Bytes) :=
  match layouts[s.1.groupIndex % layouts.length]? with
  | none => .error .layoutSetMissing
  | some layout =>
    if !layout.isHint b then
      if b = layout.padMarker then .ok (⟨s.1.groupIndex, 0, 0⟩, s.2) else .ok s
    else
      match layout.decodeGroup b with
      | none => .error (.packedByte b)
      | some group =>
        let (bytes, bitBuf, bitCount) :=
          emit ((s.1.bitBuf <<< 6) % 2 ^ 64 ||| group.toNat) (s.1.bitCount + 6)
        .ok (⟨s.1.groupIndex + 1, bitBuf, bitCount⟩, s.2 ++ bytes)

def decodeChunk (layouts : List Layout) (s : PackedDecoder × Bytes) (input : Bytes) :
    Except SudokuError (PackedDecoder × Bytes) :=
  if layouts = [] then .error .layoutSetMissing else input.foldlM (step layouts) s

end PackedDecoder

theorem bitsOf_lowBits (v n : Nat) : bitsOf n (lowBits v n) = bitsOf n v := by
  unfold lowBits
  split
  · rw [Nat.one_shiftLeft, Nat.and_two_pow_sub_one_eq_mod, bitsOf_mod (le_refl n)]
  · next h =>
    obtain rfl : n = 0 := by omega
    rfl

theorem bitsOf_group (v : Nat) : bitsOf 6 (UInt8.ofNat (v &&& 0x3f)).toNat = bitsOf 6 v := by
  rw [UInt8.toNat_ofNat', bitsOf_mod (by decide), Nat.and_two_pow_sub_one_eq_mod v 6,
    bitsOf_mod (le_refl 6)]

theorem bitsOf_byte (v : Nat) : bitsOf 8 (UInt8.ofNat (v &&& 0xff)).toNat = bitsOf 8 v := by
  rw [UInt8.toNat_ofNat', bitsOf_mod (by decide), Nat.and_two_pow_sub_one_eq_mod v 8,
    bitsOf_mod (le_refl 8)]

def groupBits (groups : List UInt8) : List Bool := bitsAll 6 (groups.map UInt8.toNat)

@[simp] theorem groupBits_nil : groupBits [] = [] := rfl

theorem groupBits_cons (g : UInt8) (groups : List UInt8) :
    groupBits (g :: groups) = bitsOf 6 g.toNat ++ groupBits groups := rfl

theorem groupBits_append (gs hs : List UInt8) :
    groupBits (gs ++ hs) = groupBits gs ++ groupBits hs := by
  rw [groupBits, map_append, bitsAll_append]
  rfl

theorem PackedDecoder.emit_spec (bitBuf bc : Nat) : (emit bitBuf bc).2.2 < 8 ∧
      byteBits (emit bitBuf bc).1 ++ bitsOf (emit bitBuf bc).2.2 (emit bitBuf bc).2.1
        = bitsOf bc bitBuf := by
  fun_induction emit bitBuf bc with
  | case1 bitBuf bc h out left hr ih =>
    rw [hr] at ih
    obtain ⟨hlt, hb⟩ := ih
    refine ⟨hlt, ?_⟩
    have hs := bitsOf_add 8 (bc - 8) bitBuf
    rw [show 8 + (bc - 8) = bc by omega] at hs
    rw [byteBits_cons, bitsOf_byte, append_assoc, hb, bitsOf_lowBits, hs]
  | case2 bitBuf bc h => exact ⟨Nat.lt_of_not_le h, rfl⟩

def PackedDecoder.pending (d : PackedDecoder) : List Bool := bitsOf d.bitCount d.bitBuf

open PackedDecoder

def Carries (layouts : List Layout) (i : Nat) (out : Bytes) (groups : List UInt8) : Prop :=
  ∀ d acc, d.groupIndex = i → d.bitCount < 8 → ∃ d' bytes,
    out.foldlM (step layouts) (d, acc) = .ok (d', acc ++ bytes) ∧
    d'.groupIndex = i + groups.length ∧ d'.bitCount < 8 ∧
    byteBits bytes ++ d'.pending = d.pending ++ groupBits groups

variable {layouts : List Layout} {l : Layout} {i j : Nat} {out : Bytes}

theorem carries_nil : Carries layouts i [] [] :=
  fun d acc hi hlt => ⟨d, [], by rw [append_nil]; rfl, hi, hlt, by simp⟩

theorem Carries.append (h : Carries layouts i out gs)
    (h' : Carries layouts (i + gs.length) out' hs) : Carries layouts i (out ++ out') (gs ++ hs) := by
  intro d acc hi hlt
  obtain ⟨d1, b1, hr1, hi1, hlt1, hb1⟩ := h d acc hi hlt
  obtain ⟨d2, byt2, hr2, hi2, hlt2, hb2⟩ := h' d1 (acc ++ b1) hi1 hlt1
  refine ⟨d2, b1 ++ byt2, ?_, ?_, hlt2, ?_⟩
  · rw [foldlM_append, hr1, ok_bind, hr2, append_assoc]
  · rw [hi2, length_append, add_assoc]
  · rw [byteBits_append, append_assoc, hb2, ← append_assoc, hb1, append_assoc, groupBits_append]

section

variable {d : PackedDecoder} (acc : Bytes) (hl : layouts[d.groupIndex % layouts.length]? = some l)

include acc hl

theorem step_padding (hb : l.isHint b = false)
    (hm : b ≠ l.padMarker) : step layouts (d, acc) b = .ok (d, acc) := by
  simp [step, hl, hb, ↓reduceIte, hm]

theorem step_marker (hsound : l.Sound) :
    step layouts (d, acc) l.padMarker = .ok (⟨d.groupIndex, 0, 0⟩, acc) := by
  simp [step, hl, hsound.pad _ hsound.marker, ↓reduceIte]

end

theorem carries_padding (hl : layouts[i % layouts.length]? = some l)
    (ho : ∀ b ∈ out, l.isHint b = false ∧ b ≠ l.padMarker) : Carries layouts i out [] := by
  intro d acc hi hlt
  refine ⟨d, [], ?_, hi, hlt, by simp⟩
  rw [append_nil]
  induction out with
  | nil => rfl
  | cons b out ih =>
    obtain ⟨⟨hb, hm⟩, ho⟩ := forall_mem_cons.mp ho
    rw [foldlM_cons, step_padding acc (hi ▸ hl) hb hm, ok_bind]
    exact ih ho

theorem carries_group (hl : layouts[i % layouts.length]? = some l) (hsound : l.Sound) (g : UInt8) :
    Carries layouts i [l.encodeGroup g] [g] := by
  intro d acc hi hlt
  subst hi
  have he := emit_spec ((d.bitBuf <<< 6) % 2 ^ 64 ||| (g &&& 0x3f).toNat) (d.bitCount + 6)
  have hg : (g &&& 0x3f).toNat = g.toNat % 2 ^ 6 := Nat.and_two_pow_sub_one_eq_mod g.toNat 6
  rw [hg, bitsOf_push_mod d.bitBuf (Nat.mod_lt _ (by decide)) (by omega), bitsOf_mod (le_refl 6), ← hg] at he
  generalize hr : emit ((d.bitBuf <<< 6) % 2 ^ 64 ||| (g &&& 0x3f).toNat) (d.bitCount + 6) = r at he
  refine ⟨⟨d.groupIndex + 1, r.2.1, r.2.2⟩, r.1, ?_, rfl, he.1, ?_⟩
  · rw [foldlM_cons, step]
    simp only [hl, hsound.hint g, hsound.decode g, Bool.not_true, Bool.false_eq_true, ↓reduceIte,
      hr, ok_bind]
    rfl
  · exact he.2

theorem returns_maybePad (h : l.Sound) (chance : Nat) :
    Returns (maybePad chance l) fun out => ∀ b ∈ out, l.isHint b = false ∧ b ≠ l.padMarker := by
  obtain ⟨c, hc, hne⟩ := h.other
  -- a second byte in the pool: the pool is not the marker alone, and the loop can end
  have hl : l.paddingPool.length ≠ 1 := by
    intro ho
    obtain ⟨x, hx⟩ := length_eq_one_iff.mp ho
    have hm := h.marker
    rw [hx, mem_singleton] at hc hm
    exact hne (hc.trans hm.symm)
  refine (returns_shouldPad chance).bind fun pad _ => ?_
  cases pad with
  | false => exact .pure (by simp)
  | true =>
    simp only [↓reduceIte, if_neg hl]
    obtain ⟨k, hk, rfl⟩ := mem_iff_getElem.mp hc
    have hg : ∀ n, n < l.paddingPool.length → byteAt l.paddingPool n ∈ l.paddingPool := by
      intro n hn
      rw [byteAt, getD_eq_getElem _ _ hn]
      exact getElem_mem hn
    refine (Returns.drawUntil ⟨k, l.paddingPool[k], ?_⟩).bind fun b hb => .pure ?_
    · rw [Nat.mod_eq_of_lt hk, byteAt, getD_eq_getElem _ _ hk]
      exact if_pos hne
    obtain ⟨n, hn⟩ := hb
    rw [Option.ite_none_right_eq_some] at hn
    obtain ⟨hm, hb⟩ := hn
    cases hb
    have hme := hg _ (Nat.mod_lt n (length_pos_of_mem hc))
    simpa using ⟨h.pad _ hme, hm⟩

namespace PackedEncoder

variable {e : PackedEncoder}

theorem layouts_index (e : PackedEncoder) (i : Nat) :
    e.layouts[i % e.layouts.length]? = some (e.layout i) :=
  getElem?_eq_getElem (e.index_lt i)

section
variable (hsound : ∀ l ∈ e.layouts, l.Sound)
include hsound

theorem layout_sound (i : Nat) : (e.layout i).Sound := hsound _ (getElem_mem (e.index_lt i))

theorem returns_pad (i : Nat) :
    Returns (maybePad e.paddingChance (e.layout i)) fun out => Carries e.layouts i out [] :=
  (returns_maybePad (layout_sound hsound i) e.paddingChance).mono fun _ ho =>
    carries_padding (e.layouts_index i) ho

theorem returns_groupLoop (i bitBuf bc : Nat) : Returns (groupLoop e i bitBuf bc) fun r => ∃ gs,
      Carries e.layouts i r.1 gs ∧ r.2.groupIndex = i + gs.length ∧ r.2.bitCount < 6 ∧
      groupBits gs ++ bitsOf r.2.bitCount r.2.bitBuf = bitsOf bc bitBuf := by
  fun_induction groupLoop e i bitBuf bc with
  | case1 i bitBuf bc h g ih =>
    refine (returns_pad hsound i).bind fun pad hp => ih.bind fun r hr => .pure ?_
    obtain ⟨gs, ho, hi, hc, hb⟩ := hr
    have hg := carries_group (e.layouts_index i) (layout_sound hsound i) g
    refine ⟨g :: gs, hp.append (hg.append ho), ?_, hc, ?_⟩
    · rw [hi, length_cons]
      omega
    · have hs := bitsOf_add 6 (bc - 6) bitBuf
      rw [show 6 + (bc - 6) = bc by omega] at hs
      rw [groupBits_cons, bitsOf_group, append_assoc, hb, bitsOf_lowBits, hs]
  | case2 i bitBuf bc h => exact .pure ⟨[], carries_nil, rfl, by simpa using h, rfl⟩

theorem returns_byteLoop (s : GroupState) (hs : s.bitCount < 6) (input : Bytes) :
    Returns (byteLoop e s input) fun r => ∃ groups, Carries e.layouts s.groupIndex r.1 groups ∧
      r.2.groupIndex = s.groupIndex + groups.length ∧ r.2.bitCount < 6 ∧
      groupBits groups ++ bitsOf r.2.bitCount r.2.bitBuf =
        bitsOf s.bitCount s.bitBuf ++ byteBits input := by
  induction input generalizing s with
  | nil => exact .pure ⟨[], carries_nil, rfl, hs, by simp⟩
  | cons b input ih =>
    refine (returns_groupLoop hsound _ _ _).bind fun r hr => ?_
    obtain ⟨gs, ho, hi, hc, hb⟩ := hr
    refine (ih r.2 hc).bind fun r' hr' => .pure ?_
    obtain ⟨hs, ho', hi', hc', hb'⟩ := hr'
    rw [hi] at ho'
    refine ⟨gs ++ hs, ho.append ho', ?_, hc', ?_⟩
    · rw [hi', hi, length_append, add_assoc]
    · rw [groupBits_append, append_assoc, hb', ← append_assoc, hb,
        bitsOf_push_mod s.bitBuf b.toNat_lt (by omega), byteBits_cons, append_assoc]

end

def Delivers (layouts : List Layout) (i : Nat) (out : Bytes) (j : Nat) (bytes : Bytes) : Prop :=
  ∀ d acc, d.groupIndex = i → d.bitCount = 0 → ∃ d',
    out.foldlM (step layouts) (d, acc) = .ok (d', acc ++ bytes) ∧
    d'.groupIndex = j ∧ d'.bitCount = 0

variable {groups : List UInt8} {input : Bytes}

theorem delivers_whole (h : Carries e.layouts i out groups)
    (hb : groupBits groups = byteBits input) :
    Delivers e.layouts i out (i + groups.length) input := by
  intro d acc hi hz
  obtain ⟨d', b, hru, hi', hlt', hr⟩ := h d acc hi (by omega)
  have hp : d.pending = [] := by rw [pending, hz]; rfl
  rw [hp, nil_append, hb, ← append_nil (byteBits input)] at hr
  obtain ⟨rfl, hn⟩ := byteBits_append_inj (by rw [pending, length_bitsOf]; exact hlt') (by simp) hr
  refine ⟨d', hru, hi', ?_⟩
  rw [← length_bitsOf d'.bitCount d'.bitBuf]
  exact congrArg length hn

theorem delivers_marker
    (h : Carries e.layouts i out groups) (hsound : (e.layout (i + groups.length)).Sound) (hk : k < 8)
    (hb : groupBits groups = byteBits input ++ replicate k false) :
    Delivers e.layouts i (out ++ [(e.layout (i + groups.length)).padMarker]) (i + groups.length)
      input := by
  intro d acc hi hz
  obtain ⟨d', b, hru, hi', hlt', hr⟩ := h d acc hi (by omega)
  have hp : d.pending = [] := by rw [pending, hz]; rfl
  rw [hp, nil_append, hb] at hr
  obtain ⟨rfl, -⟩ := byteBits_append_inj (by rw [pending, length_bitsOf]; exact hlt')
    (by simpa using hk) hr
  refine ⟨⟨d'.groupIndex, 0, 0⟩, ?_, hi', rfl⟩
  have hl := e.layouts_index (i + groups.length)
  rw [← hi'] at hl hsound ⊢
  rw [foldlM_append, hru, ok_bind, foldlM_cons, step_marker _ hl hsound, ok_bind]
  rfl

theorem Delivers.append
    (h : Delivers layouts i out j bytes) (h' : Delivers layouts j out' m bytes') :
    Delivers layouts i (out ++ out') m (bytes ++ bytes') := by
  intro d acc hi hz
  obtain ⟨d1, hr1, hi1, hz1⟩ := h d acc hi hz
  obtain ⟨d2, hr2, hi2, hz2⟩ := h' d1 (acc ++ bytes) hi1 hz1
  refine ⟨d2, ?_, hi2, hz2⟩
  rw [foldlM_append, hr1, ok_bind, hr2, append_assoc]

theorem returns_tailGroup (hsound : ∀ l ∈ e.layouts, l.Sound) (ho : Carries e.layouts i out groups)
    (hi : s.groupIndex = i + groups.length) (hc : s.bitCount < 6)
    (hb : groupBits groups ++ bitsOf s.bitCount s.bitBuf = byteBits input) :
    Returns (tailGroup e s) fun r => Delivers e.layouts i (out ++ r.1) r.2 input := by
  unfold tailGroup
  split
  · next hpo =>
    refine (returns_pad hsound s.groupIndex).bind fun pad hp => .pure ?_
    have hg := carries_group (e.layouts_index s.groupIndex) (layout_sound hsound s.groupIndex)
      (UInt8.ofNat ((s.bitBuf <<< (6 - s.bitCount)) % 2 ^ 64 &&& 0x3f))
    rw [hi] at hp hg ⊢
    have hall := ho.append (hp.append hg)
    have hf := bitsOf_push_mod (m := s.bitCount) (w := 64) s.bitBuf
      (Nat.two_pow_pos (6 - s.bitCount)) (by omega)
    rw [show s.bitCount + (6 - s.bitCount) = 6 by omega, Nat.or_zero, bitsOf_zero] at hf
    have hfi : groupBits (groups ++ ([] ++
        [UInt8.ofNat ((s.bitBuf <<< (6 - s.bitCount)) % 2 ^ 64 &&& 0x3f)])) =
        byteBits input ++ replicate (6 - s.bitCount) false := by
      rw [groupBits_append, nil_append, groupBits_cons, groupBits_nil, append_nil,
        bitsOf_group, hf, ← append_assoc, hb]
    have hd := delivers_marker hall (layout_sound hsound _) (by omega) hfi
    rw [length_append, nil_append, length_singleton, ← add_assoc] at hd
    simpa using hd
  · next hn =>
    have hz : s.bitCount = 0 := by omega
    rw [hz, bitsOf, append_nil] at hb
    refine .pure ?_
    rw [append_nil, hi]
    exact delivers_whole ho hb

theorem delivers_pad (h : Carries layouts i out []) : Delivers layouts i out i [] := by
  intro d acc hi hz
  obtain ⟨d', b, hru, hi', hlt', hr⟩ := h d acc hi (by omega)
  have hp : d.pending = [] := by rw [pending, hz]; rfl
  rw [hp, nil_append, groupBits_nil, append_eq_nil_iff] at hr
  obtain ⟨hb, hn⟩ := hr
  obtain rfl : b = [] := by
    rw [← length_eq_zero_iff]
    have := congrArg length hb
    rw [length_byteBits, length_nil] at this
    omega
  refine ⟨d', hru, hi', ?_⟩
  rw [← length_bitsOf d'.bitCount d'.bitBuf]
  exact congrArg length hn

theorem returns_encode (hsound : ∀ l ∈ e.layouts, l.Sound) (input : Bytes) :
    Returns (e.encode input) fun r => r.2.layouts = e.layouts ∧
      Delivers e.layouts e.groupIndex r.1 r.2.groupIndex input := by
  refine (returns_byteLoop hsound ⟨e.groupIndex, 0, 0⟩ (Nat.zero_lt_succ 5) input).bind fun r hr => ?_
  obtain ⟨g, ho, hi, hc, hb⟩ := hr
  refine (returns_tailGroup hsound ho hi hc hb).bind fun r' hr' => ?_
  refine (returns_pad hsound r'.2).bind fun pad hp => .pure ⟨rfl, ?_⟩
  have hd := hr'.append (delivers_pad hp)
  rwa [append_nil] at hd

theorem returns_encodeAll (hsound : ∀ l ∈ e.layouts, l.Sound) (inputs : List Bytes) :
    Returns (e.encodeAll inputs) fun r =>
      Delivers e.layouts e.groupIndex r.1.flatten r.2.groupIndex inputs.flatten := by
  induction inputs generalizing e with
  | nil =>
    refine .pure fun d acc hi hz => ⟨d, ?_, hi, hz⟩
    rw [flatten_nil, append_nil]
    rfl
  | cons i inputs ih =>
    refine (returns_encode hsound i).bind fun r hr => ?_
    obtain ⟨hl, ho⟩ := hr
    refine (ih (hl ▸ hsound)).bind fun r' hr' => .pure ?_
    exact ho.append (hl ▸ hr')

end PackedEncoder

theorem foldlM_decodeChunk (hne : layouts ≠ []) (s : PackedDecoder × Bytes)
    (segs : List Bytes) : segs.foldlM (decodeChunk layouts) s =
      segs.flatten.foldlM (step layouts) s := by
  induction segs generalizing s with
  | nil => rfl
  | cons se segs ih =>
    rw [foldlM_cons, flatten_cons, foldlM_append, decodeChunk, if_neg hne]
    exact bind_congr fun s => ih s

end XrayCore.Sudoku
