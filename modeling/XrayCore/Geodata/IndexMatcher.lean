import XrayCore.Lib.PatternScan
import XrayCore.Geodata.DomainMatcher

/-!
# Indexed matchers

`MphIndexMatcher` numbers matchers from 1 in the order they are added: full and domain patterns go
to the perfect-hash group, keywords to an automaton that reports matches that do not overlap,
regular expressions are tried one by one.
-/

namespace XrayCore.Geodata

open Lib PatternScan List MphDomainMatcher

/-- The automaton crate with its default match kind: the patterns it refuses with a
text, and its iterator over the matches in an input. -/
structure AhoCorasick where
  build : List Bytes → Except String Unit
  findIter : List Bytes → Bytes → List Match
  scan : ∀ patterns input, Scan patterns input 0 (findIter patterns input)

inductive ACMatchKind
  | full
  | domain
  | substr
  deriving DecidableEq, Repr

structure ACMatcherEntry where
  value : Nat
  kind : ACMatchKind

inductive ACMatcherGroupError
  | buildFailed (reason : String)
  | notBuilt

def ACMatcherGroupError.toString : ACMatcherGroupError → String
  | .buildFailed reason => s!"AC自动机构建失败: {reason}"
  | .notBuilt => "AC自动机未构建，请先调用 build()"

structure ACMatcherGroup where
  patterns : List Bytes
  entries : List ACMatcherEntry
  ac : Option (List Bytes)

namespace ACMatcherGroup

variable (crate : AhoCorasick)

def new : ACMatcherGroup := ⟨[], [], none⟩

def add (g : ACMatcherGroup) (matcher : Matcher) (value : Nat) : ACMatcherGroup :=
  let kind := match matcher.matcherType with
    | .full => ACMatchKind.full
    | .domain => ACMatchKind.domain
    | .substr => ACMatchKind.substr
    | .regex => ACMatchKind.substr
  { g with patterns := g.patterns ++ [matcher.pattern], entries := g.entries ++ [⟨value, kind⟩] }

def acPatterns (g : ACMatcherGroup) : List Bytes :=
  (g.entries.zip g.patterns).map fun (entry, pattern) =>
    match entry.kind with
    | .domain => dot :: pattern
    | _ => pattern

def build (g : ACMatcherGroup) : Except ACMatcherGroupError ACMatcherGroup :=
  let patterns := if g.acPatterns.isEmpty then [[]] else g.acPatterns
  match crate.build patterns with
  | .ok () => .ok { g with ac := some patterns }
  | .error e => .error (.buildFailed e)

def accepts (kind : ACMatchKind) (pattern input : Bytes) : Bool :=
  match kind with
  | .full => input == pattern
  | .domain =>
    input == pattern || endsWith input pattern && input.length - pattern.length > 0 &&
      input[input.length - pattern.length - 1]? == some dot
  | .substr => true

def hits (g : ACMatcherGroup) (found : List Match) (input : Bytes) (kind : ACMatchKind) :
    List (Nat × Nat) :=
  found.filterMap fun m =>
    match g.entries[m.pattern]? with
    | none => none
    | some entry =>
      if entry.kind = kind ∧ accepts kind (g.patterns.getD m.pattern []) input then
        some (m.stop, entry.value)
      else none

/-- The values of the matches, those that end last first, at one place full before
domain before keyword. -/
def matchStr (g : ACMatcherGroup) (input : Bytes) : List Nat :=
  match g.ac with
  | none => []
  | some patterns =>
    let hits := g.hits (crate.findIter patterns input) input
    let all := (hits .full).map (fun h => (h.1, 0, h.2)) ++
      (hits .domain).map (fun h => (h.1, 1, h.2)) ++ (hits .substr).map (fun h => (h.1, 2, h.2))
    (all.insertionSort fun a b => b.1 < a.1 ∨ b.1 = a.1 ∧ a.2.1 ≤ b.2.1).map (·.2.2)

def matchAny (g : ACMatcherGroup) (input : Bytes) : Bool :=
  match g.ac with
  | none => false
  | some patterns => (crate.findIter patterns input).any fun m =>
    match g.entries[m.pattern]? with
    | none => false
    | some entry => accepts entry.kind (g.patterns.getD m.pattern []) input

theorem mem_hits {g : ACMatcherGroup} {pos v : Nat} : (pos, v) ∈ g.hits found input kind ↔
    ∃ m ∈ found, ∃ entry, g.entries[m.pattern]? = some entry ∧ entry.kind = kind ∧
      accepts kind (g.patterns.getD m.pattern []) input = true ∧ m.stop = pos ∧
      entry.value = v := by
  simp only [hits, mem_filterMap]
  refine exists_congr fun m => and_congr_right fun _ => ?_
  cases g.entries[m.pattern]? with
  | none => simp
  | some entry => simp [and_assoc]

theorem mem_matchStr {g : ACMatcherGroup} {pats : List Bytes} (hac : g.ac = some pats)
    (v : Nat) : v ∈ g.matchStr crate input ↔
      ∃ m ∈ crate.findIter pats input, ∃ entry, g.entries[m.pattern]? = some entry ∧
        accepts entry.kind (g.patterns.getD m.pattern []) input = true ∧ entry.value = v := by
  have hsorted : ∀ all : List (Nat × Nat × Nat), ∀ v, v ∈ (all.insertionSort fun a b =>
      b.1 < a.1 ∨ b.1 = a.1 ∧ a.2.1 ≤ b.2.1).map (·.2.2) ↔ ∃ h ∈ all, h.2.2 = v := by
    intro all v
    simp
  simp only [matchStr, hac, hsorted, mem_append, mem_map]
  constructor
  · rintro ⟨h, (⟨⟨pos, v⟩, hme, rfl⟩ | ⟨⟨pos, v⟩, hme, rfl⟩) | ⟨⟨pos, v⟩, hme, rfl⟩, rfl⟩ <;>
      obtain ⟨m, hm, entry, he, hk, ha, -, hv⟩ := mem_hits.mp hme <;>
      exact ⟨m, hm, entry, he, hk ▸ ha, hv⟩
  rintro ⟨m, hm, entry, he, ha, rfl⟩
  have hh : (m.stop, entry.value) ∈ g.hits (crate.findIter pats input) input entry.kind :=
    mem_hits.mpr ⟨m, hm, entry, he, rfl, ha, rfl, rfl⟩
  cases hk : entry.kind with
  | full => exact ⟨_, .inl (.inl ⟨_, hk ▸ hh, rfl⟩), rfl⟩
  | domain => exact ⟨_, .inl (.inr ⟨_, hk ▸ hh, rfl⟩), rfl⟩
  | substr => exact ⟨_, .inr ⟨_, hk ▸ hh, rfl⟩, rfl⟩

end ACMatcherGroup

structure MphIndexMatcher where
  mph : MPHMatcherGroup
  ac : ACMatcherGroup
  simple : SimpleMatcherGroup
  count : Nat

namespace MphIndexMatcher

variable (lower : Bytes → Bytes) (crate : AhoCorasick) (seededHash : UInt32 → Bytes → UInt32)

def new : MphIndexMatcher := ⟨.new, .new, .new, 0⟩

def add (m : MphIndexMatcher) (matcher : Matcher) : MphIndexMatcher × Nat :=
  let idx := m.count + 1
  let m := { m with count := idx }
  let m := match matcher.matcherType with
    | .full => { m with mph := m.mph.addFullMatcher lower matcher.pattern idx }
    | .domain => { m with mph := m.mph.addDomainMatcher lower matcher.pattern idx }
    | .substr => { m with ac := m.ac.add matcher idx }
    | .regex => { m with simple := m.simple.add matcher idx }
  (m, idx)

/-- Build the tables and the automaton; `none` when the tables are not done within `fuel` passes for
each bucket. What their build reports is ignored. -/
def build (fuel : Nat) (m : MphIndexMatcher) :
    Option (Except (MatcherError String) MphIndexMatcher) :=
  match m.mph.build seededHash fuel with
  | none => none
  | some (_, mph) =>
    match m.ac.build crate with
    | .ok ac => some (.ok { m with mph := mph, ac := ac })
    | .error e => some (.error (.regexCompile e.toString))

def matchStr (m : MphIndexMatcher) (input : Bytes) : List Nat :=
  compositeMatches [m.mph.matchStr seededHash input, m.ac.matchStr crate input,
    m.simple.matchStr input]

def matchAny (m : MphIndexMatcher) (input : Bytes) : Bool :=
  m.mph.matchAny seededHash input || m.ac.matchAny crate input || m.simple.matchAny input

def ofMatchers (matchers : List Matcher) : MphIndexMatcher :=
  matchers.foldl (fun m matcher => (m.add lower matcher).1) new

def tablePatterns : Matcher → List Bytes
  | .full pattern => [lower pattern]
  | .domain pattern => [lower pattern, dot :: lower pattern]
  | .substr _ => []
  | .regex _ _ => []

def keyword? : Matcher → Option Bytes
  | .substr pattern => some pattern
  | _ => none

def isRegex : Matcher → Bool
  | .regex _ _ => true
  | _ => false

def table (numbered : List (Matcher × Nat)) : List (Bytes × Nat) :=
  numbered.flatMap fun e => (tablePatterns lower e.1).map (·, e.2)

def keywords (numbered : List (Matcher × Nat)) : List (Bytes × Nat) :=
  numbered.filterMap fun e => (keyword? e.1).map (·, e.2)

theorem table_concat (numbered : List (Matcher × Nat)) (mat : Matcher) (i : Nat) :
    table lower (numbered ++ [(mat, i)]) =
      table lower numbered ++ (tablePatterns lower mat).map (·, i) := by
  simp [table]

theorem keywords_concat (numbered : List (Matcher × Nat)) (mat : Matcher) (i : Nat) :
    keywords (numbered ++ [(mat, i)]) =
      keywords numbered ++ ((keyword? mat).map (·, i)).toList := by
  rw [keywords, filterMap_append, ← keywords]
  cases h : keyword? mat <;> simp [h]

structure Stores (m : MphIndexMatcher) (numbered : List (Matcher × Nat)) : Prop where
  records : m.mph.Records (table lower numbered)
  patterns_eq : m.ac.patterns = (keywords numbered).map (·.1)
  entries_eq : m.ac.entries = (keywords numbered).map fun k => ⟨k.2, .substr⟩
  simple_eq : m.simple.entries = numbered.filter fun e => isRegex e.1

variable {numbered : List (Matcher × Nat)}

theorem Stores.add {m : MphIndexMatcher} (h : m.Stores lower numbered) (mat : Matcher) :
    (m.add lower mat).1.Stores lower (numbered ++ [(mat, m.count + 1)]) := by
  obtain ⟨hr, hp, he, hs⟩ := h
  refine ⟨?_, ?_, ?_, ?_⟩
  · rw [table_concat]
    cases mat with
    | full pat => exact hr.addFullMatcher lower pat (m.count + 1)
    | domain pat => exact hr.addDomainMatcher lower pat (m.count + 1)
    | substr pat | regex pat im =>
      rw [tablePatterns, map_nil, append_nil]
      exact hr
  · rw [keywords_concat, map_append, ← hp]
    cases mat <;> simp [keyword?, MphIndexMatcher.add, Matcher.matcherType,
      ACMatcherGroup.add, Matcher.pattern]
  · rw [keywords_concat, map_append, ← he]
    cases mat <;> simp [keyword?, MphIndexMatcher.add, Matcher.matcherType, ACMatcherGroup.add]
  · rw [filter_append, ← hs]
    cases mat <;> simp [isRegex, MphIndexMatcher.add, Matcher.matcherType, SimpleMatcherGroup.add]

theorem stores_ofMatchers (mats : List Matcher) : (ofMatchers lower mats).count = mats.length ∧
      (ofMatchers lower mats).Stores lower (mats.zipIdx 1) := by
  induction mats using reverseRec with
  | nil =>
    exact ⟨rfl, MPHMatcherGroup.records_new, rfl, rfl, rfl⟩
  | append_singleton mats m ih =>
    obtain ⟨hc, hst⟩ := ih
    have hs : ofMatchers lower (mats ++ [m]) = ((ofMatchers lower mats).add lower m).1 := by
      simp [ofMatchers]
    refine ⟨?_, ?_⟩
    · rw [hs, length_append, length_singleton, ← hc]
      cases m <;> rfl
    · rw [hs, zipIdx_append, add_comm 1, ← hc]
      exact hst.add lower m

variable {matchers : List Matcher} {i : Nat}

theorem eq_of_mem_zipIdx
    (hx : (x, i) ∈ matchers.zipIdx 1) (hy : (y, i) ∈ matchers.zipIdx 1) : x = y := by
  rw [mk_mem_zipIdx_iff_le_and_getElem?_sub] at hx hy
  simpa [hx.2] using hy.2

theorem mem_keywords : (p, i) ∈ keywords numbered ↔ (.substr p, i) ∈ numbered := by
  simp only [keywords, mem_filterMap, Option.map_eq_some_iff, Prod.mk.injEq]
  constructor
  · rintro ⟨⟨matcher, i⟩, hm, p, hk, rfl, rfl⟩
    cases matcher with
    | substr pattern =>
      cases hk
      exact hm
    | full | domain | regex => cases hk
  · exact fun hm => ⟨_, hm, p, rfl, rfl, rfl⟩

theorem keywords_sublist (numbered : List (Matcher × Nat)) :
    ((keywords numbered).map (·.2)).Sublist (numbered.map (·.2)) := by
  induction numbered with
  | nil => exact List.Sublist.slnil
  | cons e numbered ih =>
    cases h : keyword? e.1 with
    | none => simpa [keywords, h] using ih.cons e.2
    | some p => simpa [keywords, h] using ih.cons_cons e.2

theorem keywords_number_inj {j j' : Nat} (h : (keywords (matchers.zipIdx 1))[j]? = some (p, i))
    (h' : (keywords (matchers.zipIdx 1))[j']? = some (p', i)) : j = j' := by
  have hn : ((keywords (matchers.zipIdx 1)).map (·.2)).Nodup := by
    refine (keywords_sublist _).nodup ?_
    rw [zipIdx_map_snd]
    exact nodup_range'
  have hj : ((keywords (matchers.zipIdx 1)).map (·.2))[j]? = some i := by simp [h]
  have hj' : ((keywords (matchers.zipIdx 1)).map (·.2))[j']? = some i := by simp [h']
  obtain ⟨hlt, hg⟩ := List.getElem?_eq_some_iff.mp hj
  obtain ⟨hlt', hg'⟩ := List.getElem?_eq_some_iff.mp hj'
  exact (hn.getElem_inj_iff).mp (hg.trans hg'.symm)

def ReportsKeyword (found : List Match) (kws : List (Bytes × Nat)) (i : Nat) : Prop :=
  ∃ m ∈ found, ∃ p, kws[m.pattern]? = some (p, i)

def Reports (found : List Match) (kws : List (Bytes × Nat)) (input : Bytes) (i : Nat) :
    Matcher → Prop
  | .substr _ => ReportsKeyword found kws i
  | .regex _ isMatch => isMatch input = true
  | .full pattern => MPHMatcherGroup.Reaches (lower pattern) input
  | .domain pattern => MPHMatcherGroup.Reaches (lower pattern) input ∨
    MPHMatcherGroup.Reaches (dot :: lower pattern) input

def scanned (kws : List (Bytes × Nat)) : List Bytes :=
  if kws.isEmpty then [[]] else kws.map (·.1)

theorem acPatterns_eq {g : ACMatcherGroup} {kws : List (Bytes × Nat)}
    (hp : g.patterns = kws.map Prod.fst) (he : g.entries = kws.map fun k => ⟨Prod.snd k, .substr⟩) :
    g.acPatterns = kws.map (·.1) := by
  rw [ACMatcherGroup.acPatterns, hp, he, zip_map', map_map]
  rfl

theorem mem_acMatchStr {g g' : ACMatcherGroup} {kws : List (Bytes × Nat)}
    (hp : g.patterns = kws.map Prod.fst) (he : g.entries = kws.map fun k => ⟨Prod.snd k, .substr⟩)
    (hb : g.build crate = .ok g') (inp : Bytes) (i : Nat) : i ∈ g'.matchStr crate inp ↔
      ReportsKeyword (crate.findIter (scanned kws) inp) kws i := by
  have hs : (if g.acPatterns.isEmpty then [[]] else g.acPatterns) = scanned kws := by
    rw [acPatterns_eq hp he, scanned]
    cases kws <;> rfl
  simp only [ACMatcherGroup.build, hs] at hb
  split at hb
  case h_1 =>
    cases hb
    rw [ACMatcherGroup.mem_matchStr crate rfl]
    refine exists_congr fun m => and_congr_right fun _ => ?_
    simp only [he, List.getElem?_map, Option.map_eq_some_iff]
    constructor
    · rintro ⟨e, ⟨⟨p, i⟩, hk, rfl⟩, -, rfl⟩
      exact ⟨p, hk⟩
    · rintro ⟨p, hk⟩
      exact ⟨_, ⟨_, hk, rfl⟩, rfl, rfl⟩
  case h_2 => cases hb

theorem reaches_table : (∃ s, (s, i) ∈ table lower numbered ∧ MPHMatcherGroup.Reaches s input) ↔
      ∃ mat, (mat, i) ∈ numbered ∧
        ∃ s ∈ tablePatterns lower mat, MPHMatcherGroup.Reaches s input := by
  simp only [table, mem_flatMap, mem_map, Prod.mk.injEq]
  constructor
  · rintro ⟨s, ⟨⟨mat, i⟩, hm, s, hs, rfl, rfl⟩, hr⟩
    exact ⟨mat, hm, s, hs, hr⟩
  · rintro ⟨mat, hm, s, hs, hr⟩
    exact ⟨s, ⟨_, hm, s, hs, rfl, rfl⟩, hr⟩

theorem mem_matchStr_iff {m m' : MphIndexMatcher} (hst : m.Stores lower (matchers.zipIdx 1))
    (hb : m.build crate seededHash fuel = some (.ok m')) (input : Bytes) (i : Nat) :
    i ∈ m'.matchStr crate seededHash input ↔ ∃ matcher, (matcher, i) ∈ matchers.zipIdx 1 ∧
      Reports lower (crate.findIter (scanned (keywords (matchers.zipIdx 1))) input)
        (keywords (matchers.zipIdx 1)) input i matcher := by
  obtain ⟨hrc, hp, he, hsi⟩ := hst
  unfold build at hb
  split at hb
  · cases hb
  case h_2 mph ht =>
    have hf := hrc.finds_build seededHash ht
    split at hb
    case h_2 => cases hb
    case h_1 ac hac =>
      cases hb
      simp only [matchStr, mem_compositeMatches, mem_cons, not_mem_nil, or_false,
        exists_eq_or_imp, exists_eq_left, hf.mem_matchStr, reaches_table,
        mem_acMatchStr crate hp he hac, SimpleMatcherGroup.mem_matchStr, hsi,
        mem_filter]
      constructor
      · rintro (⟨matcher, hme, s, hs, hr⟩ | ⟨hit, hfo, p, hk⟩ | ⟨matcher, ⟨hme, hrg⟩, hm⟩)
        · cases matcher with
          | full pattern =>
            obtain rfl := mem_singleton.mp hs
            exact ⟨_, hme, hr⟩
          | domain pattern =>
            simp only [tablePatterns, mem_cons, not_mem_nil, or_false] at hs
            refine ⟨_, hme, ?_⟩
            rcases hs with rfl | rfl
            · exact .inl hr
            · exact .inr hr
          | substr | regex => cases hs
        · exact ⟨.substr p, mem_keywords.mp (mem_of_getElem? hk), hit, hfo, p, hk⟩
        · cases matcher with
          | regex pattern isMatch => exact ⟨_, hme, hm⟩
          | full | domain | substr => cases hrg
      · rintro ⟨matcher, hme, hre⟩
        cases matcher with
        | full pattern => exact .inl ⟨_, hme, _, mem_singleton.mpr rfl, hre⟩
        | domain pattern =>
          rcases hre with hr | hr
          · exact .inl ⟨_, hme, _, by simp [tablePatterns], hr⟩
          · exact .inl ⟨_, hme, dot :: lower pattern, by simp [tablePatterns], hr⟩
        | substr pattern => exact .inr (.inl hre)
        | regex pattern isMatch => exact .inr (.inr ⟨_, ⟨hme, rfl⟩, hre⟩)

theorem full_iff (pattern : Bytes) : (∀ inp, MPHMatcherGroup.Reaches (lower pattern) inp ↔
      (Matcher.full pattern).matchStr inp = true) ↔
      lower pattern = pattern ∧ pattern.head? ≠ some dot := by
  simp only [Matcher.matchStr, beq_iff_eq]
  constructor
  · intro h
    have hl : lower pattern = pattern := ((h (lower pattern)).mp (.inl rfl)).symm
    rw [hl] at h
    refine ⟨hl, fun hdot => ?_⟩
    -- behind another byte the pattern would be found at its dot
    have heq := (h (97 :: pattern)).mp (.inr ⟨suffix_cons 97 pattern, hdot⟩)
    exact absurd (congrArg length heq) (by simp)
  · rintro ⟨hl, hdot⟩ inp
    rw [hl]
    exact ⟨fun h => h.resolve_right fun hs => hdot hs.2, .inl⟩

theorem domain_iff (pattern : Bytes) : (∀ inp, MPHMatcherGroup.Reaches (lower pattern) inp ∨
        MPHMatcherGroup.Reaches (dot :: lower pattern) inp ↔
      (Matcher.domain pattern).matchStr inp = true) ↔
      lower pattern = pattern ∧ pattern ≠ [] ∧ pattern.head? ≠ some dot := by
  simp only [Matcher.matchStr, Matcher.matchDomain_iff]
  constructor
  · intro h
    have hl : lower pattern = pattern := by
      rcases (h (lower pattern)).mp (.inl (.inl rfl)) with heq | ⟨-, hs⟩
      · exact heq
      -- the pattern itself matches, so it is found, but what is stored is longer
      have hle := hs.length_le
      rw [length_cons] at hle
      rcases (h pattern).mpr (.inl rfl) with (heq | ⟨hs', -⟩) | heq | ⟨hs', -⟩
      · exact heq
      · exact absurd hs'.length_le (by omega)
      · exact absurd (congrArg length heq) (by simp; omega)
      · exact absurd hs'.length_le (by simp; omega)
    rw [hl] at h
    refine ⟨hl, ?_, fun hdot => ?_⟩
    · rintro rfl
      simpa using (h [dot]).mp (.inr (.inl rfl))
    rcases (h (97 :: pattern)).mp (.inl (.inr ⟨suffix_cons 97 pattern, hdot⟩)) with
      heq | ⟨-, hs⟩
    · exact absurd (congrArg length heq) (by simp)
    · have heq := hs.eq_of_length rfl
      exact absurd (cons.inj heq).1 (by decide)
  · rintro ⟨hl, hne, hdot⟩ inp
    rw [hl]
    constructor
    · rintro ((rfl | ⟨-, hh⟩) | rfl | ⟨hs, -⟩)
      · exact .inl rfl
      · exact absurd hh hdot
      · exact .inr ⟨hne, suffix_refl _⟩
      · exact .inr ⟨hne, hs⟩
    · rintro (rfl | ⟨-, hs⟩)
      · exact .inl (.inl rfl)
      · exact .inr (.inr ⟨hs, rfl⟩)

theorem keywords_map_fst (mats : List Matcher) :
    (keywords (mats.zipIdx 1)).map (·.1) = mats.filterMap keyword? := by
  have hm : ∀ n : List (Matcher × Nat),
      (keywords n).map (·.1) = (n.map (·.1)).filterMap keyword? := by
    intro n
    rw [keywords, map_filterMap, filterMap_map]
    refine filterMap_congr fun e _ => ?_
    cases h : keyword? e.1 <;> simp [h]
  rw [hm, zipIdx_map_fst]

def KeywordsFound (find : Bytes → List Match) (matchers : List Matcher) : Prop :=
  ∀ p i, (.substr p, i) ∈ matchers.zipIdx 1 → ∀ input,
    ReportsKeyword (find input) (keywords (matchers.zipIdx 1)) i ↔ p <:+: input

theorem keywordsFound_iff
    (hs : ∀ inp, Scan (scanned (keywords (matchers.zipIdx 1))) inp 0 (find inp)) :
    KeywordsFound find matchers ↔
      (matchers.filterMap keyword?).Pairwise fun p q => ¬Overlap p q := by
  rw [← keywords_map_fst]
  cases hkw : keywords (matchers.zipIdx 1) with
  | nil =>
    -- the automaton then looks for the empty string, but no number stands for it
    refine ⟨fun _ => List.Pairwise.nil, fun _ p i hme => ?_⟩
    rw [← mem_keywords, hkw] at hme
    cases hme
  | cons kw kws =>
    rw [← hkw]
    have hsc : scanned (keywords (matchers.zipIdx 1)) =
        (keywords (matchers.zipIdx 1)).map (·.1) := by
      rw [scanned, hkw]
      rfl
    rw [hsc] at hs
    rw [← reportsAll_iff hs]
    have hg : ∀ {j : Nat} {p : Bytes} {i : Nat}, (keywords (matchers.zipIdx 1))[j]? = some (p, i) →
        ((keywords (matchers.zipIdx 1)).map (·.1))[j]? = some p := by
      intro j p i h
      simp [h]
    constructor
    · intro hf inp j p hp hin
      rw [List.getElem?_map] at hp
      obtain ⟨⟨p, i⟩, hj, rfl⟩ := Option.map_eq_some_iff.mp hp
      have hme := mem_keywords.mp (mem_of_getElem? hj)
      obtain ⟨m, hm, p', hk⟩ := (hf _ i hme inp).mpr hin
      exact ⟨m, hm, keywords_number_inj hk hj⟩
    · intro hall p i hme inp
      obtain ⟨j, hj⟩ := List.getElem?_of_mem (mem_keywords.mpr hme)
      constructor
      · rintro ⟨m, hm, p', hk⟩
        obtain rfl := keywords_number_inj hk hj
        exact ((hs inp).occurs m hm).part (hg hj)
      · intro hin
        obtain ⟨m, hm, rfl⟩ := hall inp j p (hg hj) hin
        exact ⟨m, hm, p, hj⟩

/-- The matcher reports, for every input, the numbers of the matchers that match it
alone. -/
def Complete (m : MphIndexMatcher) (matchers : List Matcher) : Prop :=
  ∀ input i, i ∈ m.matchStr crate seededHash input ↔
    ∃ matcher, (matcher, i) ∈ matchers.zipIdx 1 ∧ matcher.matchStr input = true

/-- Full and domain patterns are in lower case and do not start with a dot, domains
are not empty, and no two keywords can overlap. -/
structure Indexable (matchers : List Matcher) : Prop where
  full : ∀ p, .full p ∈ matchers → lower p = p ∧ p.head? ≠ some dot
  domain : ∀ p, .domain p ∈ matchers → lower p = p ∧ p ≠ [] ∧ p.head? ≠ some dot
  keywords : (matchers.filterMap keyword?).Pairwise fun p q => ¬Overlap p q

theorem exists_mem_zipIdx : matcher ∈ matchers ↔ ∃ i, (matcher, i) ∈ matchers.zipIdx 1 := by
  constructor
  · intro hm
    rw [← zipIdx_map_fst 1 matchers] at hm
    obtain ⟨⟨_, i⟩, hp, rfl⟩ := mem_map.mp hm
    exact ⟨i, hp⟩
  · rintro ⟨i, hm⟩
    exact mem_of_getElem? (mk_mem_zipIdx_iff_le_and_getElem?_sub.mp hm).2

theorem numbered_congr {P Q : Matcher → Nat → Prop} :
    (∀ i, (∃ mat, (mat, i) ∈ matchers.zipIdx 1 ∧ P mat i) ↔
      ∃ mat, (mat, i) ∈ matchers.zipIdx 1 ∧ Q mat i) ↔
      ∀ mat i, (mat, i) ∈ matchers.zipIdx 1 → (P mat i ↔ Q mat i) := by
  constructor
  · intro h mat i hm
    constructor
    · intro hP
      obtain ⟨m', hm', hQ⟩ := (h i).mp ⟨mat, hm, hP⟩
      exact eq_of_mem_zipIdx hm' hm ▸ hQ
    · intro hQ
      obtain ⟨m', hm', hP⟩ := (h i).mpr ⟨mat, hm, hQ⟩
      exact eq_of_mem_zipIdx hm' hm ▸ hP
  · exact fun h i => exists_congr fun mat => and_congr_right (h mat i)

/-- The index reports the matchers that match alone, for every input, exactly when
the matchers are indexable. -/
theorem complete_iff_indexable {m : MphIndexMatcher} {matchers : List Matcher}
    (hbuild : (ofMatchers lower matchers).build crate seededHash fuel = some (.ok m)) :
    m.Complete crate seededHash matchers ↔ Indexable lower matchers := by
  have hstores := (stores_ofMatchers lower matchers).2
  have hscan : ∀ input, Scan (scanned (keywords (matchers.zipIdx 1))) input 0
      (crate.findIter (scanned (keywords (matchers.zipIdx 1))) input) :=
    fun input => crate.scan _ input
  have hkeywords := keywordsFound_iff hscan
  simp only [Complete, mem_matchStr_iff lower crate seededHash hstores hbuild, numbered_congr]
  constructor
  · intro h
    refine ⟨fun p hp => ?_, fun p hp => ?_, hkeywords.mp fun p i hmem input => ?_⟩
    · obtain ⟨i, hmem⟩ := exists_mem_zipIdx.mp hp
      exact (full_iff lower p).mp fun input => h input _ i hmem
    · obtain ⟨i, hmem⟩ := exists_mem_zipIdx.mp hp
      exact (domain_iff lower p).mp fun input => h input _ i hmem
    · exact (h input _ i hmem).trans decide_eq_true_iff
  · rintro ⟨hfull, hdomain, hapart⟩ input matcher i hmem
    have hmatcher := exists_mem_zipIdx.mpr ⟨i, hmem⟩
    cases matcher with
    | full pattern => exact (full_iff lower pattern).mpr (hfull pattern hmatcher) input
    | domain pattern => exact (domain_iff lower pattern).mpr (hdomain pattern hmatcher) input
    | substr pattern =>
      exact (hkeywords.mpr hapart pattern i hmem input).trans decide_eq_true_iff.symm
    | regex pattern isMatch => exact Iff.rfl

noncomputable def scanner : AhoCorasick where
  build _ := .ok ()
  findIter patterns input := (exists_scan patterns input 0).choose
  scan patterns input := (exists_scan patterns input 0).choose_spec

def domainAndKeywords : List Matcher := [.domain [98, 46, 99], .substr [120], .substr [121]]

theorem complete_iff_indexable_domainAndKeywords : ∃ m,
    (ofMatchers id domainAndKeywords).build scanner lengthHash 1 = some (.ok m) ∧
      m.Complete scanner lengthHash domainAndKeywords := by
  obtain ⟨m, hbuild⟩ : ∃ m, (ofMatchers id domainAndKeywords).build scanner
      lengthHash 1 = some (.ok m) := ⟨_, rfl⟩
  refine ⟨m, hbuild, (complete_iff_indexable id scanner _ hbuild).mpr ⟨?_, ?_, ?_⟩⟩
  · simp [domainAndKeywords]
  · simp [domainAndKeywords, dot]
  · have hkeywords : domainAndKeywords.filterMap keyword? = [[120], [121]] := rfl
    simp only [hkeywords, pairwise_pair]
    -- a part of both keywords is empty
    have hpart : ∀ x : Bytes, ∀ b c, x <:+ [b] → x <+: [c] → b ≠ c → x = [] := by
      rintro x b c hb hc hne
      rcases suffix_cons_iff.mp hb with rfl | hb
      · exact absurd (prefix_cons_iff.mp hc) (by simp [hne])
      · exact suffix_nil.mp hb
    rintro (h | h | ⟨x, hx, hb, hc⟩ | ⟨x, hx, hb, hc⟩)
    · exact absurd h (by decide)
    · exact absurd h (by decide)
    · exact hx (hpart x _ _ hb hc (by decide))
    · exact hx (hpart x _ _ hb hc (by decide))

def overlapping : List Matcher := [.substr [97, 98], .substr [98, 99]]

/-- In `abc` both keywords occur, but only the first one is reported. -/
theorem overlapping_keyword_unreported : ∃ m,
    (ofMatchers id overlapping).build scanner lengthHash 1 = some (.ok m) ∧
      (Matcher.substr [98, 99]).matchStr [97, 98, 99] = true ∧
      2 ∉ m.matchStr scanner lengthHash [97, 98, 99] := by
  obtain ⟨m, hbuild⟩ : ∃ m, (ofMatchers id overlapping).build scanner
      lengthHash 1 = some (.ok m) := ⟨_, rfl⟩
  refine ⟨m, hbuild, by decide, ?_⟩
  rw [mem_matchStr_iff id scanner _ (stores_ofMatchers id overlapping).2 hbuild]
  rintro ⟨matcher, hmem, hreports⟩
  obtain rfl : matcher = .substr [98, 99] := by simpa [overlapping] using hmem
  have hscan := scanner.scan [[97, 98], [98, 99]] [97, 98, 99]
  obtain ⟨hit, hhit, p, hk⟩ := hreports
  have hsecond : hit.pattern = 1 := by
    match h : hit.pattern with
    | 0 | n + 2 => simp [h, overlapping, keywords, keyword?] at hk
    | 1 => rfl
  -- where `ab` occurs something is reported that ends with it, so `ab` itself
  have hfirst : Occurs [[97, 98], [98, 99]] [97, 98, (99 : UInt8)] ⟨0, 0, 2⟩ :=
    ⟨by decide, by decide, by decide⟩
  obtain ⟨hit', hhit', -, hstop, -⟩ := hscan.meets hfirst (Nat.zero_le 0)
  have hocc := hscan.occurs hit' hhit'
  have hslice := hocc.eq_slice
  match h : hit'.pattern with
  | 0 =>
    have hlen := hscan.length_le zero_ne_one rfl rfl ⟨hit', hhit', h⟩ ⟨hit, hhit, hsecond⟩
    simp at hlen
  | 1 =>
    have hlen := hocc.length_eq (p := [98, 99]) (by rw [h]; rfl)
    simp only [length_cons, length_nil] at hlen hstop
    obtain ⟨hstart, hstop⟩ : hit'.start = 0 ∧ hit'.stop = 2 := by omega
    simp [h, hstart, hstop, slice] at hslice
  | n + 2 => simp [h] at hslice

end MphIndexMatcher

end XrayCore.Geodata
