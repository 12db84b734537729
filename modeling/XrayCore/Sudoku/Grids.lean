import XrayCore.Sudoku.TableLaws
import Mathlib.Algebra.Order.BigOperators.Group.List

/-!
# Every table can be built

There are enough grids, each of them has clues of its own, and clues of different grids never have
the same key; so `buildTable` succeeds with every password and every layout.
-/

namespace XrayCore.Sudoku

open Lib List

def solved (g : Grid) : Bool := (List.range 16).all fun k => byteAt g k ∈ [1, 2, 3, 4]

def digit (g : Grid) (k : Nat) : Nat := (byteAt g k - 1).toNat

variable {g g' : Grid}

theorem byteAt_solved (h : solved g = true) (hk : k < 16) : byteAt g k ∈ [1, 2, 3, 4] :=
  of_decide_eq_true (all_eq_true.mp h k (mem_range.mpr hk))

theorem digit_lt (h : solved g = true) (hk : k < 16) : digit g k < 4 := by
  have hall : [1, 2, 3, 4].all (fun b : UInt8 => (b - 1).toNat < 4) = true := by decide
  exact of_decide_eq_true (all_eq_true.mp hall _ (byteAt_solved h hk))

theorem clueGroup_toNat (h : solved g = true) (hp : p < 16) :
    (clueGroup g p).toNat = 16 * digit g p.toNat + p.toNat := by
  have hall : ∀ b ∈ [1, 2, 3, 4], ∀ k < 16, ((b - 1) <<< 4 ||| (UInt8.ofNat k &&& 0x0f)).toNat =
      16 * (b - 1 : UInt8).toNat + k := by decide +kernel
  have hk := UInt8.lt_iff_toNat_lt.mp hp
  have := hall _ (byteAt_solved h hk) p.toNat hk
  rwa [UInt8.ofNat_toNat] at this

structure Quad.Cells (ps : Quad) : Prop where
  sorted : ps.toList.Pairwise (· ≤ ·)
  lt : ∀ p ∈ ps.toList, p < 16

instance (ps : Quad) : Decidable ps.Cells :=
  @decidable_of_iff _ (_ ∧ _) ⟨fun h => ⟨h.1, h.2⟩, fun h => ⟨h.sorted, h.lt⟩⟩
    (@instDecidableAnd _ _ _ (decidableBAll _ _))

theorem mem_hintPositions : ps ∈ hintPositions ↔ ∃ a b c d, a < b ∧ b < c ∧ c < d ∧ d < 16 ∧
    ps = ⟨UInt8.ofNat a, UInt8.ofNat b, UInt8.ofNat c, UInt8.ofNat d⟩ := by
  simp only [hintPositions, mem_flatMap, mem_map, mem_range, mem_range'_1]
  constructor
  · rintro ⟨a, ha, b, hb, c, hc, d, hd, rfl⟩
    exact ⟨a, b, c, d, by omega, by omega, by omega, by omega, rfl⟩
  · rintro ⟨a, b, c, d, ha, hb, hc, hd, rfl⟩
    exact ⟨a, by omega, b, by omega, c, by omega, d, by omega, rfl⟩

theorem hintPositions_cells (ps : Quad) (h : ps ∈ hintPositions) : ps.Cells := by
  obtain ⟨a, b, c, d, ha, hb, hc, hd, rfl⟩ := mem_hintPositions.mp h
  constructor <;> simp [Quad.toList, UInt8.le_iff_toNat_le, UInt8.lt_iff_toNat_lt] <;> omega

variable {ps qs : Quad}

theorem clues_perm (hg : solved g = true) (hg' : solved g' = true) (hps : ps.Cells)
    (hqs : qs.Cells) (h : (clues ps g).toList.Perm (clues qs g').toList) :
    ps = qs ∧ ∀ p ∈ ps.toList, digit g p.toNat = digit g' p.toNat := by
  have hpe : (ps.toList.map (clueGroup g)).Perm (qs.toList.map (clueGroup g')) :=
    (sort4_perm _).symm.trans (h.trans (sort4_perm _))
  have hc : ∀ {ps : Quad} {g : Grid}, solved g = true → ps.Cells →
      (ps.toList.map (clueGroup g)).map (fun v => UInt8.ofNat (v.toNat % 16)) = ps.toList := by
    intro ps g hg hps
    rw [map_map]
    refine (map_congr_left fun p hp => ?_).trans (map_id _)
    have hlt : p.toNat < 16 := UInt8.lt_iff_toNat_lt.mp (hps.lt p hp)
    rw [Function.comp_apply, clueGroup_toNat hg (hps.lt p hp), Nat.mul_add_mod,
      Nat.mod_eq_of_lt hlt, UInt8.ofNat_toNat, id_eq]
  have hs : ps = qs := by
    have := hpe.map fun v : UInt8 => UInt8.ofNat (v.toNat % 16)
    rw [hc hg hps, hc hg' hqs] at this
    exact Quad.toList_inj
      (this.eq_of_pairwise (fun a b _ _ => UInt8.le_antisymm) hps.sorted hqs.sorted)
  refine ⟨hs, fun p hp => ?_⟩
  obtain ⟨q, hq, heq⟩ := mem_map.mp (hpe.mem_iff.mp (mem_map_of_mem hp))
  have hv := congrArg UInt8.toNat heq
  rw [clueGroup_toNat hg' (hqs.lt q hq), clueGroup_toNat hg (hps.lt p hp)] at hv
  have hlp : p.toNat < 16 := UInt8.lt_iff_toNat_lt.mp (hps.lt p hp)
  have hlq : q.toNat < 16 := UInt8.lt_iff_toNat_lt.mp (hqs.lt q hq)
  have hpq : p.toNat = q.toNat := by omega
  rw [hpq] at hv ⊢
  omega

theorem clues_lt (hg : solved g = true) (hps : ps.Cells) :
    ∀ v ∈ (clues ps g).toList, v.toNat < 64 := by
  intro v hv
  rw [clues, (sort4_perm _).mem_iff, Quad.toList_map] at hv
  obtain ⟨p, hp, rfl⟩ := mem_map.mp hv
  have hc : p.toNat < 16 := UInt8.lt_iff_toNat_lt.mp (hps.lt p hp)
  have hd := digit_lt hg hc
  rw [clueGroup_toNat hg (hps.lt p hp)]
  omega

theorem keyOf_hintsOf_inj (hl : layout.Sound)
    (hv : ∀ x ∈ v.toList, x.toNat < 64) (hw : ∀ x ∈ w.toList, x.toNat < 64)
    (h : keyOf (hintsOf layout v) = keyOf (hintsOf layout w)) : v.toList.Perm w.toList := by
  have hp := (keyOf_eq_iff.mp h).map fun x => (layout.decodeGroup x).getD 0
  have hb : ∀ {v : Quad}, (∀ x ∈ v.toList, x.toNat < 64) →
      (hintsOf layout v).toList.map (fun x => (layout.decodeGroup x).getD 0) = v.toList := by
    intro v hv
    rw [hintsOf, Quad.toList_map, map_map]
    refine (map_congr_left fun x hx => ?_).trans (map_id _)
    rw [Function.comp_apply, hl.decode, Option.getD_some, ← UInt8.toNat_inj, UInt8.toNat_and, id_eq]
    exact (Nat.and_two_pow_sub_one_eq_mod x.toNat 6).trans (Nat.mod_eq_of_lt (hv x hx))
  rwa [hb hv, hb hw] at hp

def tellingCells : List Quad := [⟨0, 2, 9, 11⟩, ⟨0, 3, 13, 14⟩, ⟨0, 2, 13, 15⟩, ⟨0, 3, 9, 10⟩]

def agree (ps : Quad) (g d : Grid) : Bool :=
  ps.toList.all fun p => byteAt d p.toNat = byteAt g p.toNat

structure Told (grids : List Grid) : Prop where
  long : 256 ≤ grids.length
  solved : ∀ g ∈ grids, solved g = true
  telling : ∀ g ∈ grids, ∃ ps ∈ tellingCells, grids.countP (agree ps g) ≤ 1

def gridsFrom (n : UInt8) : List Grid := gridDfs 15 ((List.replicate 16 0).set 0 n)

theorem generateAllGrids_eq : generateAllGrids = [1, 2, 3, 4].flatMap gridsFrom := by
  have hf : ([1, 2, 3, 4].all fun n => fits (List.replicate 16 0) 0 n) = true := by decide +kernel
  unfold generateAllGrids gridDfs
  exact flatMap_congr fun n hn => if_pos (all_eq_true.mp hf n hn)

theorem gridsFrom_one : 64 ≤ (gridsFrom 1).length ∧ ∀ g ∈ gridsFrom 1, solved g = true ∧
    byteAt g 0 = 1 ∧ ∃ ps ∈ tellingCells, (gridsFrom 1).countP (agree ps g) ≤ 1 := by
  decide +kernel

/-! ### Renaming the numbers -/

section

variable {σ : Equiv.Perm UInt8} (h0 : σ 0 = 0)

include h0

theorem byteAt_map (g : Grid) (k : Nat) : byteAt (g.map σ) k = σ (byteAt g k) := by
  rw [byteAt, byteAt, getD_eq_getElem?_getD, getElem?_map, getD_eq_getElem?_getD]
  cases g[k]? with
  | none => exact h0.symm
  | some b => rfl

theorem fits_map (g : Grid) (idx : Nat) (num : UInt8) :
    fits (g.map σ) idx (σ num) = fits g idx num := by
  simp [fits, byteAt_map h0]

theorem agree_map (ps : Quad) (g d : Grid) : agree ps (g.map σ) (d.map σ) = agree ps g d := by
  simp [agree, byteAt_map h0]

variable (hp : [1, 2, 3, 4].Perm ([1, 2, 3, 4].map σ))

include hp

theorem gridDfs_map (left : Nat) (g : Grid) :
    (gridDfs left (g.map σ)).Perm ((gridDfs left g).map (map σ)) := by
  induction left generalizing g with
  | zero => exact .refl _
  | succ left ih =>
    rw [gridDfs, gridDfs, map_flatMap]
    refine (hp.flatMap_right _).trans ?_
    rw [flatMap_map]
    refine Perm.flatMap_left _ fun num _ => ?_
    rw [fits_map h0]
    split
    · rw [← map_set]
      exact ih _
    · exact .refl _

theorem solved_map (h : solved g = true) : solved (g.map σ) = true := by
  refine all_eq_true.mpr fun k hk => decide_eq_true ?_
  rw [byteAt_map h0]
  exact hp.mem_iff.mpr (mem_map_of_mem (byteAt_solved h (mem_range.mp hk)))

end

theorem gridsFrom_perm (hn : n ∈ [1, 2, 3, 4]) :
    Equiv.swap 1 n 0 = 0 ∧ [1, 2, 3, 4].Perm ([1, 2, 3, 4].map (Equiv.swap 1 n)) ∧
      (gridsFrom n).Perm ((gridsFrom 1).map (map (Equiv.swap 1 n))) := by
  have hs : Equiv.swap 1 n 0 = 0 ∧ [1, 2, 3, 4].Perm ([1, 2, 3, 4].map (Equiv.swap 1 n)) := by
    simp only [mem_cons, not_mem_nil, or_false] at hn
    rcases hn with rfl | rfl | rfl | rfl <;> decide
  refine ⟨hs.1, hs.2, ?_⟩
  have := gridDfs_map hs.1 hs.2 15 ((List.replicate 16 0).set 0 1)
  rwa [map_set, map_replicate, hs.1, Equiv.swap_apply_left] at this

theorem told_generateAllGrids : Told generateAllGrids := by
  obtain ⟨hl, h⟩ := gridsFrom_one
  -- a grid with the first number `n` is one with the first number 1, renamed
  have hr : ∀ n ∈ [1, 2, 3, 4], ∀ g ∈ gridsFrom n, solved g = true ∧ byteAt g 0 = n ∧
      ∃ ps ∈ tellingCells, (gridsFrom n).countP (agree ps g) ≤ 1 := by
    intro n hn g hg
    obtain ⟨h0, hp, hpe⟩ := gridsFrom_perm hn
    obtain ⟨d, hd, rfl⟩ := mem_map.mp (hpe.mem_iff.mp hg)
    obtain ⟨hs, hb, ps, hps, hc⟩ := h d hd
    refine ⟨solved_map h0 hp hs, by rw [byteAt_map h0, hb, Equiv.swap_apply_left], ps, hps, ?_⟩
    rw [hpe.countP_eq, countP_map]
    exact (countP_congr fun e _ => by rw [Function.comp_apply, agree_map h0]).trans_le hc
  rw [generateAllGrids_eq]
  refine ⟨?_, fun g hg => ?_, fun g hg => ?_⟩
  · rw [length_flatMap]
    have hle : ∀ n ∈ [1, 2, 3, 4], 64 ≤ (gridsFrom n).length := fun n hn => by
      rwa [(gridsFrom_perm hn).2.2.length_eq, length_map]
    exact sum_le_sum (f := fun _ => 64) hle
  · obtain ⟨n, hn, hg⟩ := mem_flatMap.mp hg
    exact (hr n hn g hg).1
  · obtain ⟨n, hn, hg⟩ := mem_flatMap.mp hg
    obtain ⟨-, hb, ps, hps, hc⟩ := hr n hn g hg
    have h0 : 0 ∈ ps.toList := by
      simp only [tellingCells, mem_cons, not_mem_nil, or_false] at hps
      rcases hps with rfl | rfl | rfl | rfl <;> decide
    have hle : ∀ m ∈ [1, 2, 3, 4], (gridsFrom m).countP (agree ps g) ≤ if m = n then 1 else 0 := by
      intro m hm
      split
      · next he => exact he ▸ hc
      · next hne =>
        refine (countP_eq_zero.mpr fun d hd ha => hne ?_).le
        have := of_decide_eq_true (all_eq_true.mp ha 0 h0)
        rw [← (hr m hm d hd).2.1, ← hb]
        exact this
    refine ⟨ps, hps, ?_⟩
    rw [countP_flatMap]
    refine (sum_le_sum hle).trans ?_
    simp only [mem_cons, not_mem_nil, or_false] at hn
    rcases hn with rfl | rfl | rfl | rfl <;> decide

theorem tellingCells_mem : ∀ ps ∈ tellingCells, ps ∈ hintPositions := by
  simp only [tellingCells, mem_cons, not_mem_nil, or_false, forall_eq_or_imp, forall_eq]
  refine ⟨?_, ?_, ?_, ?_⟩ <;> rw [mem_hintPositions]
  · exact ⟨0, 2, 9, 11, by decide⟩
  · exact ⟨0, 3, 13, 14, by decide⟩
  · exact ⟨0, 2, 13, 15, by decide⟩
  · exact ⟨0, 3, 9, 10, by decide⟩

variable {grids : List Grid}

theorem exists_telling (h : Told grids) (hg : g ∈ grids) :
    ∃ ps ∈ hintPositions, counts grids ps (packKey (clues ps g)) = 1 := by
  obtain ⟨ps, hps, ht⟩ := h.telling g hg
  have hme := tellingCells_mem ps hps
  refine ⟨ps, hme, ?_⟩
  have hm : counts grids ps (packKey (clues ps g)) ≤ grids.countP (agree ps g) := by
    refine countP_mono_left fun d hd hk => ?_
    have hce := hintPositions_cells ps hme
    have hpe : (clues ps d).toList.Perm (clues ps g).toList := by
      rw [packKey_inj (of_decide_eq_true hk)]
    obtain ⟨-, hdi⟩ := clues_perm (h.solved d hd) (h.solved g hg) hce hce hpe
    refine all_eq_true.mpr fun p hp => decide_eq_true ?_
    simpa [digit, UInt8.toNat_inj] using hdi p hp
  have hpo : 0 < counts grids ps (packKey (clues ps g)) :=
    countP_pos_iff.mpr ⟨g, hg, decide_eq_true rfl⟩
  omega

def patternsOf (grids : List Grid) (g : Grid) : List Quad :=
  (hintPositions.filter fun ps => counts grids ps (packKey (clues ps g)) = 1).map (clues · g)

theorem patternsOf_ne_nil (h : Told grids) (hg : g ∈ grids) : patternsOf grids g ≠ [] := by
  obtain ⟨ps, hps, ho⟩ := exists_telling h hg
  rw [patternsOf, ne_eq, map_eq_nil_iff]
  exact ne_nil_of_mem (mem_filter.mpr ⟨hps, decide_eq_true ho⟩)

theorem patternsOf_lt (hg : solved g = true) (hv : v ∈ patternsOf grids g) :
    ∀ x ∈ v.toList, x.toNat < 64 := by
  obtain ⟨ps, hps, rfl⟩ := mem_map.mp hv
  exact clues_lt hg (hintPositions_cells ps (mem_filter.mp hps).1)

theorem foldl_addPatterns (grids : List Grid) (f : Grid → List Quad) (poss : List Quad) :
    poss.foldl (addPatterns grids) (grids.map f) = grids.map fun g =>
      f g ++ (poss.filter fun ps => counts grids ps (packKey (clues ps g)) = 1).map (clues · g) := by
  induction poss generalizing f with
  | nil => simp
  | cons ps poss ih =>
    have hz : (grids.map f).zip grids = grids.map fun g => (f g, g) := by
      have := zip_map' (f := f) (g := id) (l := grids)
      rwa [map_id] at this
    rw [foldl_cons, addPatterns, hz, map_map]
    refine (ih _).trans (map_congr_left fun g _ => ?_)
    by_cases ho : counts grids ps (packKey (clues ps g)) = 1 <;> simp [ho]

theorem foldl_hintPositions (grids : List Grid) :
    hintPositions.foldl (addPatterns grids) (List.replicate grids.length []) =
      grids.map (patternsOf grids) := by
  rw [← map_const', foldl_addPatterns]
  rfl

theorem checkPatterns_ok (h : ∀ pats ∈ patterns, pats ≠ []) :
    checkPatterns patterns = .ok patterns := by
  have hn : patterns.findIdx? (· = []) = none := by
    rw [List.findIdx?_eq_none_iff]
    exact fun pats hp => decide_eq_false (h pats hp)
  rw [checkPatterns, hn]

theorem buildBasePatterns_eq :
    buildBasePatterns = .ok (generateAllGrids.map (patternsOf generateAllGrids)) := by
  rw [buildBasePatterns, foldl_hintPositions]
  refine checkPatterns_ok fun pats hp => ?_
  obtain ⟨g, hg, rfl⟩ := mem_map.mp hp
  exact patternsOf_ne_nil told_generateAllGrids hg

theorem index_unique {α : Type} {p : α → Bool} {l : List α} {i j : Nat} (h : l.countP p ≤ 1)
    (hi : i < l.length) (hj : j < l.length) (hpi : p l[i] = true) (hpj : p l[j] = true) : i = j := by
  induction l generalizing i j with
  | nil => exact absurd hi (Nat.not_lt_zero i)
  | cons x l ih =>
    rw [countP_cons] at h
    -- two places, one of them the head, would be counted twice
    have hh : p x = true → ∀ k (hk : k < l.length), p l[k] = true → False := by
      intro hx k hk hpk
      have := countP_pos_iff.mpr ⟨l[k], getElem_mem hk, hpk⟩
      rw [if_pos hx] at h
      omega
    match i, j with
    | 0, 0 => rfl
    | 0, j + 1 => exact (hh hpi j (Nat.lt_of_succ_lt_succ hj) hpj).elim
    | i + 1, 0 => exact (hh hpj i (Nat.lt_of_succ_lt_succ hi) hpi).elim
    | i + 1, j + 1 =>
      rw [ih (by omega) (Nat.lt_of_succ_lt_succ hi) (Nat.lt_of_succ_lt_succ hj) hpi hpj]

theorem patternsOf_inj (h : Told grids) {i j : Nat} (hi : i < grids.length) (hj : j < grids.length)
    {v w : Quad} (hv : v ∈ patternsOf grids grids[i]) (hw : w ∈ patternsOf grids grids[j])
    (hp : v.toList.Perm w.toList) : i = j := by
  obtain ⟨ps, hps, rfl⟩ := mem_map.mp hv
  obtain ⟨qs, hqs, rfl⟩ := mem_map.mp hw
  obtain ⟨hps, ho⟩ := mem_filter.mp hps
  obtain ⟨rfl, -⟩ := clues_perm (h.solved _ (getElem_mem hi)) (h.solved _ (getElem_mem hj))
    (hintPositions_cells ps hps) (hintPositions_cells qs (mem_filter.mp hqs).1) hp
  have hk : packKey (clues ps grids[i]) = packKey (clues ps grids[j]) := by
    have := sort4_eq_iff.mpr ((sort4_perm _).symm.trans (hp.trans (sort4_perm _)))
    rw [clues, clues, this]
  rw [decide_eq_true_eq, counts] at ho
  exact index_unique ho.le hi hj (decide_eq_true rfl) (decide_eq_true hk.symm)

section
variable {layout : Layout} {patterns : List (List Quad)} {order : List Nat}

def patternsFor (patterns : List (List Quad)) (order : List Nat) (b : UInt8) : List Quad :=
  patterns.getD (order.getD b.toNat 0) []

def Owned (layout : Layout) (patterns : List (List Quad)) (order : List Nat)
    (decode : UInt32 → Option UInt8) : Prop :=
  ∀ key b, decode key = some b →
    ∃ groups ∈ patternsFor patterns order b, key = keyOf (hintsOf layout groups)

def NoCollision (layout : Layout) (patterns : List (List Quad)) (order : List Nat) : Prop :=
  ∀ b b' v w, v ∈ patternsFor patterns order b → w ∈ patternsFor patterns order b' →
    keyOf (hintsOf layout v) = keyOf (hintsOf layout w) → b = b'

variable {b : UInt8} {t : (UInt32 → Option UInt8) × List Quad}

theorem Owned.update (h : Owned layout patterns order decode)
    (hg : groups ∈ patternsFor patterns order b) : Owned layout patterns order
      (Function.update decode (keyOf (hintsOf layout groups)) (some b)) := by
  intro key b' hk
  by_cases heq : key = keyOf (hintsOf layout groups)
  · rw [heq, Function.update_self] at hk
    obtain rfl := Option.some.inj hk
    exact ⟨groups, hg, heq⟩
  · rw [Function.update_of_ne heq] at hk
    exact h key b' hk

section

variable (hno : NoCollision layout patterns order)

include hno

theorem addPattern_succeeds
    (ht : Owned layout patterns order t.1) (hg : groups ∈ patternsFor patterns order b) :
    ∃ t', addPattern layout b t groups = .ok t' ∧ Owned layout patterns order t'.1 := by
  have hu := ht.update hg
  have hs : ∀ old, t.1 (keyOf (hintsOf layout groups)) = some old → old = b := by
    intro old hold
    obtain ⟨g', hg', hk⟩ := ht _ _ hold
    exact hno old b g' groups hg' hg hk.symm
  unfold addPattern
  dsimp only
  generalize keyOf (hintsOf layout groups) = key at hs hu ⊢
  cases hk : t.1 key with
  | none => exact ⟨_, rfl, hu⟩
  | some old => exact ⟨_, if_neg (not_not.mpr (hs old hk)), hu⟩

theorem foldlM_addPattern_succeeds (ht : Owned layout patterns order t.1) {pats : List Quad}
    (hp : ∀ gs ∈ pats, gs ∈ patternsFor patterns order b) :
    ∃ t', pats.foldlM (addPattern layout b) t = .ok t' ∧ Owned layout patterns order t'.1 := by
  induction pats generalizing t with
  | nil => exact ⟨t, rfl, ht⟩
  | cons gs pats ih =>
    obtain ⟨hg, hp⟩ := forall_mem_cons.mp hp
    obtain ⟨t1, hs, ht1⟩ := addPattern_succeeds hno ht hg
    rw [foldlM_cons, hs, ok_bind]
    exact ih ht1 hp

theorem foldlM_addByte_succeeds
    (hsome : ∀ b, patternsFor patterns order b ≠ []) {t : Table} (hl : t.layout = layout)
    (ht : Owned layout patterns order t.decode) {bs : List Nat} (hbs : ∀ b ∈ bs, b < 256) :
    ∃ t', bs.foldlM (addByte patterns order) t = .ok t' := by
  induction bs generalizing t with
  | nil => exact ⟨t, rfl⟩
  | cons b bs ih =>
    obtain ⟨hb, hbs⟩ := forall_mem_cons.mp hbs
    have hfo : patternsFor patterns order (UInt8.ofNat b) = patterns.getD (order.getD b 0) [] := by
      rw [patternsFor, UInt8.toNat_ofNat', Nat.mod_eq_of_lt hb]
    have hne := hsome (UInt8.ofNat b)
    obtain ⟨⟨decode, enc⟩, hf, hd⟩ := foldlM_addPattern_succeeds (t := (t.decode, []))
      hno ht fun g hg => hg
    rw [hfo] at hne hf
    rw [foldlM_cons, addByte]
    rw [if_neg hne, hl, hf, ok_bind, ok_bind]
    exact ih rfl hd hbs

end

end

theorem patternsFor_eq (h : Told grids) (ho : order.Perm (List.range grids.length)) (b : UInt8) :
    ∃ (i : Nat) (hi : i < grids.length), order[b.toNat]? = some i ∧
      patternsFor (grids.map (patternsOf grids)) order b = patternsOf grids grids[i] := by
  have hl : b.toNat < order.length := by
    rw [ho.length_eq, length_range]
    exact b.toNat_lt.trans_le h.long
  have hi : order[b.toNat] < grids.length := mem_range.mp (ho.mem_iff.mp (getElem_mem hl))
  refine ⟨order[b.toNat], hi, List.getElem?_eq_getElem hl, ?_⟩
  rw [patternsFor, getD_eq_getElem _ _ hl, getD_eq_getElem _ _ (by simpa using hi), getElem_map]

theorem buildTable_succeeds (sh : Shuffle) (pw : List Char) {layout : Layout}
    (hl : layout.Sound) : ∃ t, buildTable sh pw layout = .ok t := by
  have h := told_generateAllGrids
  rw [buildTable, buildBasePatterns_eq, ok_bind]
  generalize generateAllGrids = grids at h ⊢
  have ho := sh.perm pw grids.length
  rw [length_map, if_neg (not_lt.mpr h.long)]
  have he : Owned layout (grids.map (patternsOf grids)) (sh.order pw grids.length)
      (Table.empty layout).decode := by
    intro key b hk
    cases hk
  refine foldlM_addByte_succeeds ?_ ?_ rfl he fun b hb => mem_range.mp hb
  · intro b b' v w hv hw hk
    obtain ⟨i, hi, hib, hpa⟩ := patternsFor_eq h ho b
    obtain ⟨i', hi', hib', hp'⟩ := patternsFor_eq h ho b'
    rw [hpa] at hv
    rw [hp'] at hw
    obtain rfl := patternsOf_inj h hi hi' hv hw (keyOf_hintsOf_inj hl
      (patternsOf_lt (h.solved _ (getElem_mem hi)) hv)
      (patternsOf_lt (h.solved _ (getElem_mem hi')) hw) hk)
    have hn := ho.nodup_iff.mpr nodup_range
    obtain ⟨hln, heq⟩ := List.getElem?_eq_some_iff.mp hib
    obtain ⟨hl', heq'⟩ := List.getElem?_eq_some_iff.mp hib'
    exact UInt8.toNat_inj.mp ((hn.getElem_inj_iff).mp (heq.trans heq'.symm))
  · intro b
    obtain ⟨i, hi, -, hpa⟩ := patternsFor_eq h ho b
    rw [hpa]
    exact patternsOf_ne_nil h (getElem_mem hi)

theorem buildTables_succeeds (u : Unicode) (sh : Shuffle) (key : TableCacheKey)
    (h : ∀ pat ∈ key.patterns, ∃ layout, resolveLayout u key.mode pat = .ok layout) :
    ∃ tables, buildTables u sh key = .ok tables := by
  rw [buildTables]
  generalize key.patterns = pats at h ⊢
  induction pats with
  | nil => exact ⟨[], rfl⟩
  | cons pat pats ih =>
    obtain ⟨⟨layout, hl⟩, h⟩ := forall_mem_cons.mp h
    obtain ⟨t, ht⟩ := buildTable_succeeds sh key.password (resolveLayout_sound hl)
    obtain ⟨tables, hta⟩ := ih h
    exact ⟨t :: tables, by rw [mapM_cons, hl, ok_bind, ht, ok_bind, hta]; rfl⟩

theorem getTables_succeeds (sh : Shuffle) (cache : Cache) (pw : List Char)
    (hm : normalizeAscii u ascii = .ok mode)
    (hp : normalizedCustomPatterns u customTables mode = .ok patterns)
    (hl : ∀ pattern ∈ patterns, ∃ layout, resolveLayout u mode pattern = .ok layout) :
    ∃ tables cache', getTables u sh cache pw ascii customTables = .ok (tables, cache') := by
  rw [getTables, hm, ok_bind, hp, ok_bind]
  dsimp only
  cases hc : cache ⟨pw, mode, patterns⟩ with
  | some c => exact ⟨c, cache, rfl⟩
  | none =>
    obtain ⟨tables, ht⟩ := buildTables_succeeds u sh ⟨pw, mode, patterns⟩ hl
    exact ⟨tables, _, by dsimp only; rw [ht]; rfl⟩

end XrayCore.Sudoku
