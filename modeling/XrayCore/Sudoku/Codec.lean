import XrayCore.Lib.Sampling
import XrayCore.Sudoku.TableLaws

/-!
# The codec with one grid for a byte

The encoder writes four clues for a byte, in any order, and puts padding in between; the next byte
is written with the next table. The decoder takes what is not padding by the table at hand, and goes
on to the next table with each byte that is complete.
-/

namespace XrayCore.Sudoku

open Lib Sampler List

def PERM4 : List (List Nat) :=
  [[0, 1, 2, 3], [0, 1, 3, 2], [0, 2, 1, 3], [0, 2, 3, 1], [0, 3, 1, 2], [0, 3, 2, 1],
   [1, 0, 2, 3], [1, 0, 3, 2], [1, 2, 0, 3], [1, 2, 3, 0], [1, 3, 0, 2], [1, 3, 2, 0],
   [2, 0, 1, 3], [2, 0, 3, 1], [2, 1, 0, 3], [2, 1, 3, 0], [2, 3, 0, 1], [2, 3, 1, 0],
   [3, 0, 1, 2], [3, 0, 2, 1], [3, 1, 0, 2], [3, 1, 2, 0], [3, 2, 0, 1], [3, 2, 1, 0]]

def pickPaddingChance (pMin pMax : Nat) : Sampler SudokuError Nat :=
  let pMin := min pMin 100
  let pMax := if pMax < pMin then pMin else min pMax 100
  if pMax = pMin then return pMin
  else do
    let n ← below (pMax - pMin + 1)
    return pMin + n

def shouldPad (chance : Nat) : Sampler SudokuError Bool :=
  if chance = 0 then return false
  else if chance ≥ 100 then return true
  else do
    let n ← below 100
    return n < chance

def randomPadding (table : Table) : Sampler SudokuError UInt8 := do
  let pool := table.layout.paddingPool
  let i ← below pool.length
  return byteAt pool i

def padding (chance : Nat) (table : Table) : Sampler SudokuError Bytes := do
  if ← shouldPad chance then
    let b ← randomPadding table
    return [b]
  else return []

structure Codec where
  tables : List Table
  paddingChance : Nat
  tableIndex : Nat

def hintLoop (chance : Nat) (table : Table) (hints : Quad) : List Nat → Sampler SudokuError Bytes
  | [] => return []
  | idx :: perm => do
    let pad ← padding chance table
    let out ← hintLoop chance table hints perm
    return pad ++ byteAt hints.toList idx :: out

def encodeByte (chance : Nat) (table : Table) (b : UInt8) : Sampler SudokuError Bytes := do
  let pad ← padding chance table
  let enc := table.encode b
  if enc = [] then fail (.encodeMissing b)
  else do
    let i ← below enc.length
    let j ← below PERM4.length
    let out ← hintLoop chance table (enc.getD i ⟨0, 0, 0, 0⟩) (PERM4.getD j [])
    return pad ++ out

def encodeLoop (tables : List Table) (chance : Nat) : Nat → Bytes → Sampler SudokuError (Bytes × Nat)
  | i, [] => return ([], i)
  | i, b :: input =>
    match tables[i % tables.length]? with
    | none => fail .tableSetMissing
    | some table => do
      let out ← encodeByte chance table b
      let (rest, j) ← encodeLoop tables chance (i + 1) input
      return (out ++ rest, j)

def trailing (tables : List Table) (chance i : Nat) : Sampler SudokuError Bytes := do
  if ← shouldPad chance then
    match tables[i % tables.length]? with
    | none => return []
    | some table =>
      let b ← randomPadding table
      return [b]
  else return []

namespace Codec

def new (tables : List Table) (pMin pMax : Nat) : Sampler SudokuError Codec := do
  let chance ← pickPaddingChance pMin pMax
  return ⟨tables, chance, 0⟩

def encode (c : Codec) (input : Bytes) : Sampler SudokuError (Bytes × Codec) :=
  if input = [] then return ([], c)
  else do
    let (out, i) ← encodeLoop c.tables c.paddingChance c.tableIndex input
    let tail ← trailing c.tables c.paddingChance i
    return (out ++ tail, { c with tableIndex := i })

def encodeAll (c : Codec) : List Bytes → Sampler SudokuError (List Bytes × Codec)
  | [] => return ([], c)
  | input :: inputs => do
    let (out, c) ← c.encode input
    let (outs, c) ← encodeAll c inputs
    return (out :: outs, c)

end Codec

structure DecodeState where
  tableIndex : Nat
  hintBuf : Bytes
  out : Bytes
  deriving DecidableEq

def quadOf (buf : Bytes) : Quad := ⟨byteAt buf 0, byteAt buf 1, byteAt buf 2, byteAt buf 3⟩

def decodeStep (tables : List Table) (s : DecodeState) (b : UInt8) :
    Except SudokuError DecodeState :=
  match tables[s.tableIndex % tables.length]? with
  | none => .error .tableSetMissing
  | some table =>
    if !table.layout.isHint b then .ok s
    else
      let hintBuf := s.hintBuf ++ [b]
      if hintBuf.length < 4 then .ok { s with hintBuf := hintBuf }
      else
        match table.decode (keyOf (quadOf hintBuf)) with
        | some decoded => .ok ⟨s.tableIndex + 1, [], s.out ++ [decoded]⟩
        | none => .error .hintTuple

def decodeBytes (tables : List Table) (s : DecodeState) (input : Bytes) :
    Except SudokuError DecodeState :=
  if tables = [] then .error .tableSetMissing else input.foldlM (decodeStep tables) s

variable {tables : List Table} {t : Table} {i : Nat} {buf acc out : Bytes} {s s' s'' : DecodeState}

def Takes (tables : List Table) (s : DecodeState) (out : Bytes) (s' : DecodeState) : Prop :=
  out.foldlM (decodeStep tables) s = .ok s'

theorem Takes.append (h : Takes tables s out s') (h' : Takes tables s' out' s'') :
    Takes tables s (out ++ out') s'' := by
  rw [Takes, foldlM_append, h, ok_bind]
  exact h'

theorem takes_nil (s : DecodeState) : Takes tables s [] s := rfl

theorem takes_padding (ht : tables[s.tableIndex % tables.length]? = some t)
    (ho : ∀ b ∈ out, t.layout.isHint b = false) : Takes tables s out s := by
  induction out with
  | nil => exact takes_nil s
  | cons b out ih =>
    obtain ⟨hb, ho⟩ := forall_mem_cons.mp ho
    rw [Takes, foldlM_cons, decodeStep, ht]
    simp only [hb, Bool.not_false, ↓reduceIte, ok_bind]
    exact ih ho

variable {b : UInt8}

theorem takes_hint (ht : tables[i % tables.length]? = some t)
    (hb : t.layout.isHint b = true) (hbu : buf.length < 3) :
    Takes tables ⟨i, buf, acc⟩ [b] ⟨i, buf ++ [b], acc⟩ := by
  have hs : (buf ++ [b]).length < 4 := by
    rw [length_append, length_singleton]
    omega
  rw [Takes, foldlM_cons, decodeStep, ht]
  simp only [hb, Bool.not_true, Bool.false_eq_true, ↓reduceIte, hs, ok_bind]
  rfl

theorem takes_last (ht : tables[i % tables.length]? = some t)
    (hb : t.layout.isHint b = true) (hbu : buf.length = 3)
    (hd : t.decode (keyOf (quadOf (buf ++ [b]))) = some d) :
    Takes tables ⟨i, buf, acc⟩ [b] ⟨i + 1, [], acc ++ [d]⟩ := by
  have hf : ¬ (buf ++ [b]).length < 4 := by
    rw [length_append, length_singleton]
    omega
  rw [Takes, foldlM_cons, decodeStep, ht]
  simp only [hb, Bool.not_true, Bool.false_eq_true, ↓reduceIte, hf, hd, ok_bind]
  rfl

theorem returns_shouldPad (chance : Nat) : Returns (shouldPad chance) fun _ => True := by
  unfold shouldPad
  split
  · exact .pure trivial
  split
  · exact .pure trivial
  · exact (Returns.below (by decide)).bind fun _ _ => .pure trivial

theorem returns_randomPadding (h : t.layout.Sound) :
    Returns (randomPadding t) fun b => t.layout.isHint b = false := by
  refine (Returns.below (length_pos_of_mem h.marker)).bind fun i hi => .pure ?_
  rw [byteAt, getD_eq_getElem _ _ hi]
  exact h.pad _ (getElem_mem hi)

theorem returns_padding (h : t.layout.Sound) (chance : Nat) :
    Returns (padding chance t) fun out => ∀ b ∈ out, t.layout.isHint b = false := by
  refine (returns_shouldPad chance).bind fun pad _ => ?_
  cases pad with
  | true => exact (returns_randomPadding h).bind fun b hb => .pure (by simpa using hb)
  | false => exact .pure (by simp)

theorem returns_trailing (hsound : ∀ t ∈ tables, t.Sound) (hne : tables ≠ []) (chance : Nat) :
    Returns (trailing tables chance i) fun out => ∀ buf acc,
      Takes tables ⟨i, buf, acc⟩ out ⟨i, buf, acc⟩ := by
  have hlt : i % tables.length < tables.length := Nat.mod_lt _ (length_pos_of_ne_nil hne)
  have ht := List.getElem?_eq_getElem hlt
  refine (returns_shouldPad chance).bind fun pad _ => ?_
  cases pad with
  | true =>
    simp only [↓reduceIte, ht]
    exact (returns_randomPadding (hsound _ (getElem_mem hlt)).layout).bind fun b hb =>
      .pure fun buf acc => takes_padding ht (by simpa using hb)
  | false => exact .pure fun buf acc => takes_nil _

variable {perm : List Nat}

theorem returns_hintLoop (h : t.layout.Sound) (ht : tables[i % tables.length]? = some t)
    (chance : Nat) (hh : ∀ j < 4, t.layout.isHint (byteAt hints.toList j) = true)
    (hp : ∀ j ∈ perm, j < 4) :
    Returns (hintLoop chance t hints perm) fun out => (perm = [] → out = []) ∧
      ∀ buf acc d, perm ≠ [] → buf.length + perm.length = 4 →
        t.decode (keyOf (quadOf (buf ++ perm.map (byteAt hints.toList)))) = some d →
        Takes tables ⟨i, buf, acc⟩ out ⟨i + 1, [], acc ++ [d]⟩ := by
  induction perm with
  | nil => exact .pure ⟨fun _ => rfl, fun _ _ _ hne => absurd rfl hne⟩
  | cons idx perm ih =>
    obtain ⟨hi, hp⟩ := forall_mem_cons.mp hp
    refine (returns_padding h chance).bind fun pad hpa => (ih hp).bind fun out ho => .pure ?_
    refine ⟨fun hn => absurd hn (cons_ne_nil _ _), fun buf acc d _ hle hd => ?_⟩
    refine (takes_padding ht hpa).append ?_
    rw [length_cons] at hle
    rw [map_cons] at hd
    by_cases hl : perm = []
    · rw [ho.1 hl]
      rw [hl, map_nil] at hd
      rw [hl, length_nil] at hle
      exact takes_last ht (hh idx hi) (by omega) hd
    · have hpo := length_pos_of_ne_nil hl
      refine (takes_hint ht (hh idx hi) (by omega)).append (ho.2 _ acc d hl ?_ ?_)
      · rw [length_append, length_singleton]
        omega
      · rwa [append_assoc]

theorem perm4_mem (h : perm ∈ PERM4) : perm.Perm [0, 1, 2, 3] := by
  have hall : ∀ perm ∈ PERM4, perm.Perm [0, 1, 2, 3] := by decide
  exact hall perm h

theorem keyOf_perm4 (h : perm ∈ PERM4) (hints : Quad) :
    keyOf (quadOf (perm.map (byteAt hints.toList))) = keyOf hints := by
  have hall : ∀ perm ∈ PERM4, ∃ j0 j1 j2 j3, perm = [j0, j1, j2, j3] := by
    simp [PERM4]
  obtain ⟨j0, j1, j2, j3, rfl⟩ := hall perm h
  exact keyOf_eq_iff.mpr ((perm4_mem h).map (byteAt hints.toList))

theorem Table.Covers.hint (hc : t.Covers b) (h : t.layout.Sound)
    (hh : hints ∈ t.encode b) : ∀ j < 4, t.layout.isHint (byteAt hints.toList j) = true := by
  obtain ⟨gs, rfl⟩ := hc.groups hints hh
  intro j hj
  match j, hj with
  | 0, _ | 1, _ | 2, _ | 3, _ => exact h.hint _

theorem returns_encodeByte (h : t.Sound) (ht : tables[i % tables.length]? = some t) (chance : Nat)
    (b : UInt8) : Returns (encodeByte chance t b) fun out => ∀ acc,
      Takes tables ⟨i, [], acc⟩ out ⟨i + 1, [], acc ++ [b]⟩ := by
  have hc := h.covers b
  refine (returns_padding h.layout chance).bind fun pad hpa => ?_
  rw [if_neg hc.some_hints]
  refine (Returns.below (length_pos_of_ne_nil hc.some_hints)).bind fun k hk => ?_
  refine (Returns.below (by decide)).bind fun j hj => ?_
  rw [getD_eq_getElem _ _ hk, getD_eq_getElem _ _ hj]
  have hh := getElem_mem hk
  have hp := perm4_mem (getElem_mem hj)
  refine (returns_hintLoop h.layout ht chance (hc.hint h.layout hh) fun l hl => ?_).bind
    fun out ho => .pure fun acc => ?_
  · have := hp.mem_iff.mp hl
    simp only [mem_cons, not_mem_nil, or_false] at this
    omega
  refine (takes_padding ht hpa).append (ho.2 [] acc b ?_ ?_ ?_)
  · exact ne_nil_of_length_pos (by rw [hp.length_eq]; decide)
  · rw [hp.length_eq]
    rfl
  · rw [nil_append, keyOf_perm4 (getElem_mem hj)]
    exact hc.reads _ hh

section
variable (hsound : ∀ t ∈ tables, t.Sound) (hne : tables ≠ [])
include hsound hne

theorem returns_encodeLoop (chance i : Nat) (inp : Bytes) :
    Returns (encodeLoop tables chance i inp) fun r => r.2 = i + inp.length ∧ ∀ acc,
      Takes tables ⟨i, [], acc⟩ r.1 ⟨i + inp.length, [], acc ++ inp⟩ := by
  induction inp generalizing i with
  | nil =>
    refine .pure ⟨rfl, fun acc => ?_⟩
    rw [append_nil]
    exact takes_nil _
  | cons b inp ih =>
    have hlt : i % tables.length < tables.length := Nat.mod_lt _ (length_pos_of_ne_nil hne)
    have ht := List.getElem?_eq_getElem hlt
    simp only [encodeLoop, ht]
    refine (returns_encodeByte (hsound _ (getElem_mem hlt)) ht chance b).bind fun out ho =>
      (ih (i + 1)).bind fun r hr => ?_
    obtain ⟨hi, hrest⟩ := hr
    have hl : i + (b :: inp).length = i + 1 + inp.length := by
      rw [length_cons]
      omega
    refine .pure ⟨hi.trans hl.symm, fun acc => ?_⟩
    rw [hl, append_cons acc b inp]
    exact (ho acc).append (hrest _)

theorem returns_encode {c : Codec} (hc : c.tables = tables) (inp : Bytes) :
    Returns (c.encode inp) fun r => r.2.tables = tables ∧
      r.2.tableIndex = c.tableIndex + inp.length ∧
      ∀ acc, Takes tables ⟨c.tableIndex, [], acc⟩ r.1 ⟨r.2.tableIndex, [], acc ++ inp⟩ := by
  unfold Codec.encode
  split
  · next hn =>
    subst hn
    refine .pure ⟨hc, rfl, fun acc => ?_⟩
    rw [append_nil]
    exact takes_nil _
  · rw [hc]
    refine (returns_encodeLoop hsound hne c.paddingChance c.tableIndex inp).bind fun r hr => ?_
    obtain ⟨hi, ho⟩ := hr
    refine (returns_trailing hsound hne c.paddingChance).bind fun tail ht => ?_
    refine .pure ⟨rfl, hi, fun acc => ?_⟩
    rw [← hi] at ho
    exact (ho acc).append (ht _ _)

theorem returns_encodeAll {c : Codec} (hc : c.tables = tables) (inputs : List Bytes) :
    Returns (c.encodeAll inputs) fun r => ∀ acc, Takes tables ⟨c.tableIndex, [], acc⟩ r.1.flatten
        ⟨r.2.tableIndex, [], acc ++ inputs.flatten⟩ := by
  induction inputs generalizing c with
  | nil =>
    refine .pure fun acc => ?_
    rw [flatten_nil, append_nil]
    exact takes_nil _
  | cons i inputs ih =>
    refine (returns_encode hsound hne hc i).bind fun r hr => ?_
    obtain ⟨ht, -, ho⟩ := hr
    refine (ih ht).bind fun r' hr' => .pure fun acc => ?_
    rw [flatten_cons, flatten_cons, ← append_assoc]
    exact (ho acc).append (hr' _)

end

theorem returns_pickPaddingChance (pMin pMax : Nat) :
    Returns (pickPaddingChance pMin pMax) fun _ => True := by
  unfold pickPaddingChance
  dsimp only
  generalize (if pMax < min pMin 100 then min pMin 100 else min pMax 100) = high
  split
  · exact .pure trivial
  · exact (Returns.below (Nat.succ_pos _)).bind fun _ _ => .pure trivial

theorem foldlM_decodeBytes (hne : tables ≠ []) (s : DecodeState) (segs : List Bytes) :
    segs.foldlM (decodeBytes tables) s = segs.flatten.foldlM (decodeStep tables) s := by
  induction segs generalizing s with
  | nil => rfl
  | cons se segs ih =>
    rw [foldlM_cons, flatten_cons, foldlM_append, decodeBytes, if_neg hne]
    exact bind_congr fun s => ih s

end XrayCore.Sudoku
