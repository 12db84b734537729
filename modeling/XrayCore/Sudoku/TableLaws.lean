import Mathlib.Data.List.Sort
import XrayCore.Sudoku.Table

/-!
# What a table that has been built can do

`Table.Sound` is all that the codecs need: each byte has clues, its clues are groups of the layout,
and the byte is read from its clues whatever order they come in.
-/

namespace XrayCore.Sudoku

open Lib List

variable {v w : Quad}

theorem sort4_perm (v : Quad) : (sort4 v).toList.Perm v.toList := by
  have swap1 : ∀ v : Quad, (Quad.mk v.b v.a v.c v.d).toList.Perm v.toList := fun v =>
    .swap _ _ _
  have swap2 : ∀ v : Quad, (Quad.mk v.a v.b v.d v.c).toList.Perm v.toList := fun v =>
    .cons _ (.cons _ (.swap _ _ _))
  have swap3 : ∀ v : Quad, (Quad.mk v.a v.c v.b v.d).toList.Perm v.toList := fun v =>
    .cons _ (.swap _ _ _)
  have swap4 : ∀ v : Quad, (Quad.mk v.c v.b v.a v.d).toList.Perm v.toList := fun v =>
    ((swap3 _).trans (swap1 _)).trans (swap3 v)
  have swap5 : ∀ v : Quad, (Quad.mk v.a v.d v.c v.b).toList.Perm v.toList := fun v =>
    ((swap2 _).trans (swap3 _)).trans (swap2 v)
  have step : ∀ (c : Prop) [Decidable c] (v w : Quad), w.toList.Perm v.toList →
      (if c then w else v).toList.Perm v.toList := by
    intro c _ v w h
    split
    · exact h
    · exact .refl _
  unfold sort4
  extract_lets v1 v2 v3 v4
  have h1 : v1.toList.Perm v.toList := step _ _ _ (swap1 v)
  have h2 : v2.toList.Perm v1.toList := step _ _ _ (swap2 v1)
  have h3 : v3.toList.Perm v2.toList := step _ _ _ (swap4 v2)
  have h4 : v4.toList.Perm v3.toList := step _ _ _ (swap5 v3)
  exact (step _ _ _ (swap3 v4)).trans (h4.trans (h3.trans (h2.trans h1)))

theorem sort4_sorted (v : Quad) : (sort4 v).toList.Pairwise (· ≤ ·) := by
  simp only [sort4, Quad.toList]
  grind

theorem sort4_eq_iff : sort4 v = sort4 w ↔ v.toList.Perm w.toList := by
  constructor
  · intro h
    have hw := sort4_perm w
    rw [← h] at hw
    exact (sort4_perm v).symm.trans hw
  · intro h
    refine Quad.toList_inj (List.Perm.eq_of_pairwise (fun a b _ _ => UInt8.le_antisymm)
      (sort4_sorted v) (sort4_sorted w) ?_)
    exact (sort4_perm v).trans (h.trans (sort4_perm w).symm)

theorem packKey_inj (h : packKey v = packKey w) : v = w := by
  have := congrArg be32 h
  rw [packKey, packKey, be32_ofBe32, be32_ofBe32] at this
  exact Quad.toList_inj this

theorem keyOf_eq_iff : keyOf v = keyOf w ↔ v.toList.Perm w.toList := by
  rw [← sort4_eq_iff]
  exact ⟨packKey_inj, congrArg packKey⟩

def Extends (decode decode' : UInt32 → Option UInt8) : Prop :=
  ∀ key b, decode key = some b → decode' key = some b

theorem Extends.trans (hfg : Extends f g) (hgh : Extends g h) :
    Extends f h := fun key b hf => hgh key b (hfg key b hf)

variable {layout : Layout} {b : UInt8} {t t' : (UInt32 → Option UInt8) × List Quad}

theorem addPattern_ok (h : addPattern layout b t gs = .ok t') :
    t'.2 = t.2 ++ [hintsOf layout gs] ∧ t'.1 (keyOf (hintsOf layout gs)) = some b ∧
      Extends t.1 t'.1 := by
  unfold addPattern at h
  dsimp only at h
  generalize keyOf (hintsOf layout gs) = key at h ⊢
  have he : (∀ old, t.1 key = some old → old = b) →
      Extends t.1 (Function.update t.1 key (some b)) := by
    intro hold key' v hv
    by_cases hk : key' = key
    · subst hk
      rw [Function.update_self, hold v hv]
    · rwa [Function.update_of_ne hk]
  cases hk : t.1 key with
  | none =>
    rw [hk] at h
    obtain rfl := Except.ok.inj h
    exact ⟨rfl, Function.update_self .., he fun old hold => by simp [hk] at hold⟩
  | some old =>
    rw [hk] at h
    dsimp only at h
    split at h
    · cases h
    next heq =>
    obtain rfl := Except.ok.inj h
    refine ⟨rfl, Function.update_self .., he fun old' hold => ?_⟩
    rw [← Option.some.inj (hk.symm.trans hold)]
    exact not_not.mp heq

theorem foldlM_addPattern_ok {pats : List Quad} (h : pats.foldlM (addPattern layout b) t = .ok t') :
    t'.2 = t.2 ++ pats.map (hintsOf layout) ∧
      (∀ gs ∈ pats, t'.1 (keyOf (hintsOf layout gs)) = some b) ∧ Extends t.1 t'.1 := by
  induction pats generalizing t with
  | nil =>
    cases h
    exact ⟨by simp, by simp, fun _ _ h => h⟩
  | cons gs pats ih =>
    rw [foldlM_cons, bind_ok] at h
    obtain ⟨t1, hs, hrest⟩ := h
    obtain ⟨he, hke, hex⟩ := addPattern_ok hs
    obtain ⟨hen', hk, he'⟩ := ih hrest
    refine ⟨by rw [hen', he]; simp, forall_mem_cons.mpr ⟨he' _ _ hke, hk⟩, hex.trans he'⟩

structure Table.Covers (t : Table) (b : UInt8) : Prop where
  some_hints : t.encode b ≠ []
  groups : ∀ hints ∈ t.encode b, ∃ groups, hints = hintsOf t.layout groups
  reads : ∀ hints ∈ t.encode b, t.decode (keyOf hints) = some b

variable {patterns : List (List Quad)} {order : List Nat}

theorem addByte_ok {t t' : Table} {b : Nat} (h : addByte patterns order t b = .ok t') :
    t'.layout = t.layout ∧ Extends t.decode t'.decode ∧ t'.Covers (UInt8.ofNat b) ∧
      ∀ b', b' ≠ UInt8.ofNat b → t'.encode b' = t.encode b' := by
  unfold addByte at h
  dsimp only at h
  split at h
  · cases h
  next hne =>
  obtain ⟨⟨decode, enc⟩, hf, h⟩ := bind_ok.mp h
  obtain rfl := Except.ok.inj h
  obtain ⟨he, hk, hex⟩ := foldlM_addPattern_ok hf
  dsimp only at he hk hex
  have hs : Function.update t.encode (UInt8.ofNat b) enc (UInt8.ofNat b) = enc :=
    Function.update_self ..
  refine ⟨rfl, hex, ⟨?_, fun hints hh => ?_, fun hints hh => ?_⟩,
    fun b' hb' => Function.update_of_ne hb' ..⟩
  · dsimp only
    rw [hs, he]
    simpa using hne
  · dsimp only at hh
    rw [hs, he] at hh
    obtain ⟨g, -, rfl⟩ := mem_map.mp hh
    exact ⟨g, rfl⟩
  · dsimp only at hh
    rw [hs, he] at hh
    obtain ⟨g, hg, rfl⟩ := mem_map.mp hh
    exact hk g hg

theorem Table.Covers.addByte {t t' : Table}
    {b : Nat} {b' : UInt8} (hc : t.Covers b') (h : addByte patterns order t b = .ok t') :
    t'.Covers b' := by
  obtain ⟨hl, he, hco, ho⟩ := addByte_ok h
  by_cases hb : b' = UInt8.ofNat b
  · exact hb ▸ hco
  refine ⟨by rw [ho b' hb]; exact hc.some_hints, ?_, ?_⟩
  · rw [ho b' hb, hl]
    exact hc.groups
  · rw [ho b' hb]
    exact fun hints hh => he _ _ (hc.reads hints hh)

theorem foldlM_addByte_ok {t t' : Table}
    {bs : List Nat} (h : bs.foldlM (addByte patterns order) t = .ok t') :
    t'.layout = t.layout ∧ (∀ b', t.Covers b' → t'.Covers b') ∧
      ∀ b ∈ bs, t'.Covers (UInt8.ofNat b) := by
  induction bs generalizing t with
  | nil =>
    cases h
    exact ⟨rfl, fun _ h => h, by simp⟩
  | cons b bs ih =>
    rw [foldlM_cons, bind_ok] at h
    obtain ⟨t1, hs, hrest⟩ := h
    obtain ⟨hl, hk, hall⟩ := ih hrest
    obtain ⟨hl1, -, hc, -⟩ := addByte_ok hs
    exact ⟨hl.trans hl1, fun b' hb' => hk b' (hb'.addByte hs), forall_mem_cons.mpr ⟨hk _ hc, hall⟩⟩

structure Table.Sound (t : Table) : Prop where
  layout : t.layout.Sound
  covers : ∀ b, t.Covers b

variable {password : List Char}

theorem buildTable_sound {sh : Shuffle} {layout : Layout} {t : Table}
    (hl : layout.Sound) (h : buildTable sh password layout = .ok t) : t.Sound := by
  obtain ⟨p, -, h⟩ := bind_ok.mp h
  split at h
  · cases h
  obtain ⟨hla, -, hall⟩ := foldlM_addByte_ok h
  refine ⟨by rwa [hla], fun b => ?_⟩
  have := hall b.toNat (mem_range.mpr b.toNat_lt)
  rwa [UInt8.ofNat_toNat] at this

theorem resolveLayout_sound (h : resolveLayout u mode pattern = .ok layout) : layout.Sound := by
  unfold resolveLayout at h
  split at h
  · cases h
    exact Layout.sound_ascii
  split at h
  · obtain ⟨c, hc, h⟩ := bind_ok.mp h
    cases h
    obtain ⟨_, _, _, _, _, _, _, _, hs⟩ := CustomLayout.new_shape hc
    exact hs.sound
  · cases h
    exact Layout.sound_entropy

inductive Reachable (u : Unicode) (sh : Shuffle) : Cache → Prop
  | empty : Reachable u sh fun _ => none
  | call {cache cache' : Cache} {password ascii : List Char} {customTables : List (List Char)}
      {tables : List Table} : Reachable u sh cache →
      getTables u sh cache password ascii customTables = .ok (tables, cache') →
      Reachable u sh cache'

variable {u : Unicode} {sh : Shuffle} {cache cache' : Cache} {tables : List Table}

theorem getTables_ok (h : getTables u sh cache password ascii customTables = .ok (tables, cache')) :
    ∃ key, key.patterns ≠ [] ∧ (cache key = some tables ∧ cache' = cache ∨
      buildTables u sh key = .ok tables ∧ cache' = Function.update cache key (some tables)) := by
  obtain ⟨mode, -, h⟩ := bind_ok.mp h
  obtain ⟨pats, hp, h⟩ := bind_ok.mp h
  have hne : pats ≠ [] := by
    unfold normalizedCustomPatterns at hp
    split at hp
    · cases hp
      simp
    · obtain ⟨f, -, hp⟩ := bind_ok.mp hp
      cases hp
      split <;> simp_all
  refine ⟨⟨password, mode, pats⟩, hne, ?_⟩
  dsimp only at h
  split at h
  · next hc =>
    cases h
    exact .inl ⟨hc, rfl⟩
  · obtain ⟨b, hb, h⟩ := bind_ok.mp h
    cases h
    exact .inr ⟨hb, rfl⟩

theorem Reachable.built (h : Reachable u sh cache)
    (hk : cache key = some tables) : buildTables u sh key = .ok tables := by
  induction h generalizing key tables with
  | empty => cases hk
  | @call cache cache' _ _ _ built _ hc ih =>
    obtain ⟨c, -, ⟨-, rfl⟩ | ⟨hb, rfl⟩⟩ := getTables_ok hc
    · exact ih hk
    by_cases heq : key = c
    · subst heq
      rw [Function.update_self] at hk
      rwa [← Option.some.inj hk]
    · rw [Function.update_of_ne heq] at hk
      exact ih hk

theorem buildTables_sound (h : buildTables u sh key = .ok tables) :
    tables.length = key.patterns.length ∧ ∀ t ∈ tables, t.Sound := by
  rw [buildTables] at h
  generalize key.patterns = pats at h
  induction pats generalizing tables with
  | nil =>
    cases h
    simp
  | cons p pats ih =>
    rw [mapM_cons, bind_ok] at h
    obtain ⟨t, ht, h⟩ := h
    obtain ⟨ts, hts, h⟩ := bind_ok.mp h
    cases h
    obtain ⟨l, hl, ht⟩ := bind_ok.mp ht
    obtain ⟨hle, hsound⟩ := ih hts
    exact ⟨by simp [hle], forall_mem_cons.mpr
      ⟨buildTable_sound (resolveLayout_sound hl) ht, hsound⟩⟩

theorem getTables_sound (hc : Reachable u sh cache)
    (h : getTables u sh cache password ascii customTables = .ok (tables, cache')) :
    tables ≠ [] ∧ ∀ t ∈ tables, t.Sound := by
  obtain ⟨key, hne, hk⟩ := getTables_ok h
  have hb : buildTables u sh key = .ok tables := by
    rcases hk with ⟨hca, -⟩ | ⟨hb, -⟩
    · exact hc.built hca
    · exact hb
  obtain ⟨hl, hsound⟩ := buildTables_sound hb
  refine ⟨?_, hsound⟩
  rintro rfl
  exact hne (eq_nil_of_length_eq_zero hl.symm)

end XrayCore.Sudoku
