import XrayCore.Lib.Displacement
import XrayCore.Geodata.Matchers
import Mathlib.Data.List.AList
import Mathlib.Data.List.Sort
import Mathlib.Data.List.FinRange

/-!
# The perfect-hash matcher group

`MPHMatcherGroup` keeps full and domain patterns in a table of two levels: the rolling hash of a
pattern selects a seed, the seeded hash of the pattern its cell. A domain pattern is stored as it is
and behind a dot, and a lookup asks the table at every dot and for the whole input. The seeded hash
and the lower-casing of the standard library are parameters.
-/

namespace XrayCore.Geodata

open Lib List

def primeRk : UInt32 := 16777619

def rollingHash (suffixHash : UInt32) (input : Bytes) : UInt32 :=
  input.foldr (fun byte hash => hash * primeRk + byte.toUInt32) suffixHash

theorem rollingHash_append (suffixHash : UInt32) (front back : Bytes) :
    rollingHash suffixHash (front ++ back) = rollingHash (rollingHash suffixHash back) front :=
  foldr_append

def nextPow2 (v : Nat) : Nat := if v ≤ 1 then 1 else 1 <<< (Nat.log2 (v - 1) + 1)

theorem nextPow2_pos (v : Nat) : 0 < nextPow2 v := by
  unfold nextPow2
  split
  · decide
  · rw [Nat.shiftLeft_eq, one_mul]
    exact Nat.two_pow_pos _

def maskIndex {size : Nat} (hsize : 0 < size) (hash : UInt32) : Fin size :=
  ⟨hash.toNat &&& (size - 1), by
    have := Nat.and_le_right (n := hash.toNat) (m := size - 1)
    omega⟩

structure MphTables where
  level0Size : Nat
  level1Size : Nat
  level0Size_pos : 0 < level0Size
  level1Size_pos : 0 < level1Size
  level0 : Fin level0Size → UInt32
  level1 : Fin level1Size → Nat

structure MphRuleInfo where
  rollingHash : UInt32
  full : List Nat
  domain : List Nat

def MphRuleInfo.push (info : MphRuleInfo) (matcherType : MatcherType) (value : Nat) : MphRuleInfo :=
  match matcherType with
  | .domain => { info with domain := info.domain ++ [value] }
  | _ => { info with full := info.full ++ [value] }

def MphRuleInfo.combined (info : MphRuleInfo) : List Nat := info.full ++ info.domain

theorem MphRuleInfo.mem_combined_push {info : MphRuleInfo} {mt : MatcherType} {value v : Nat} :
    v ∈ (info.push mt value).combined ↔ v ∈ info.combined ∨ v = value := by
  cases mt <;> simp [push, combined, or_comm, or_left_comm]

@[simp] theorem MphRuleInfo.rollingHash_push (info : MphRuleInfo) (mt : MatcherType)
    (v : Nat) : (info.push mt v).rollingHash = info.rollingHash := by
  cases mt <;> rfl

abbrev RuleInfos := AList fun _ : Bytes => MphRuleInfo

inductive MPHMatcherGroupError
  | buildFailed (reason : String)
  | notBuilt
  | empty
  deriving DecidableEq

/-- Rule number 0 stands for a failed lookup. -/
structure MPHMatcherGroup where
  rules : List Bytes
  values : List (List Nat)
  tables : Option MphTables
  ruleInfos : Option RuleInfos

namespace MPHMatcherGroup

variable (lower : Bytes → Bytes) (seededHash : UInt32 → Bytes → UInt32)

def new : MPHMatcherGroup := ⟨[[]], [[]], none, some ∅⟩

/-- Store a pattern in front of a suffix whose rolling hash is known; returns the
rolling hash of the whole. -/
def addPattern (g : MPHMatcherGroup) (suffixHash : UInt32) (suffixPattern pattern : Bytes)
    (matcherType : MatcherType) (value : Nat) : MPHMatcherGroup × UInt32 :=
  let fullPattern := pattern ++ suffixPattern
  match g.ruleInfos with
  -- the source panics when a rule is added after the build
  | none => (g, 0)
  | some infos =>
    match infos.lookup fullPattern with
    | some info =>
      ({ g with ruleInfos := some (infos.insert fullPattern (info.push matcherType value)) },
        info.rollingHash)
    | none =>
      let rh := rollingHash suffixHash pattern
      let info := MphRuleInfo.push ⟨rh, [], []⟩ matcherType value
      ({ g with
          rules := g.rules ++ [fullPattern]
          values := g.values ++ [[]]
          ruleInfos := some (infos.insert fullPattern info) }, rh)

def addFullMatcher (g : MPHMatcherGroup) (pattern : Bytes) (value : Nat) : MPHMatcherGroup :=
  (g.addPattern 0 [] (lower pattern) .full value).1

def addDomainMatcher (g : MPHMatcherGroup) (pattern : Bytes) (value : Nat) : MPHMatcherGroup :=
  let pattern := lower pattern
  let (g, hash) := g.addPattern 0 [] pattern .domain value
  (g.addPattern hash pattern [dot] .domain value).1

def collectInfos (infos : RuleInfos) :
    Nat → List Bytes → List MphRuleInfo × Option MPHMatcherGroupError
  | _, [] => ([], none)
  | ruleIdx, rule :: rules =>
    match infos.lookup rule with
    | none => ([], some (.buildFailed s!"规则 {ruleIdx} 未在 rule_infos 中找到"))
    | some info =>
      let (rest, failure) := collectInfos infos (ruleIdx + 1) rules
      (info :: rest, failure)

def bucket {size : Nat} (hsize : 0 < size) (collected : List MphRuleInfo) (b : Fin size) :
    List Nat :=
  ((collected.zipIdx 1).filter fun p => maskIndex hsize p.1.rollingHash = b).map (·.2)

def bucketOrder {size : Nat} (buckets : Fin size → List Nat) : List (Fin size) :=
  (List.finRange size).insertionSort fun a b => (buckets b).length ≤ (buckets a).length

def fillTables (fuel : Nat) (rules : List Bytes) (collected : List MphRuleInfo) (ruleCount : Nat) :
    Option MphTables :=
  let level0Size := max (nextPow2 (ruleCount / 4)) 1
  let level1Size := nextPow2 ruleCount
  have h0 : 0 < level0Size := Nat.lt_of_lt_of_le Nat.one_pos (Nat.le_max_right _ _)
  have h1 : 0 < level1Size := nextPow2_pos ruleCount
  let buckets := bucket h0 collected
  let slot := fun seed ruleIdx => maskIndex h1 (seededHash seed (rules.getD ruleIdx []))
  match Displacement.settleAll 0 slot buckets fuel (bucketOrder buckets) (fun _ => 0)
    ⟨fun _ => false, fun _ => 0⟩ with
  | none => none
  | some (level0, table) => some ⟨level0Size, level1Size, h0, h1, level0, table.cells⟩

/-- Build the tables. `none` means that the build has not returned within the
passes allowed for each bucket. -/
def build (fuel : Nat) (g : MPHMatcherGroup) :
    Option (Except MPHMatcherGroupError Unit × MPHMatcherGroup) :=
  match g.ruleInfos with
  | none => some (.error (.buildFailed "rule_infos 已被消费"), g)
  | some infos =>
    let ruleCount := infos.keys.length
    if ruleCount = 0 then some (.error .empty, g)
    else
      let (collected, failure) := collectInfos infos 1 (g.rules.drop 1)
      let values := g.values.take 1 ++ collected.map (·.combined) ++
        g.values.drop (1 + collected.length)
      match failure with
      | some e =>
        let tables : MphTables := ⟨max (nextPow2 (ruleCount / 4)) 1, nextPow2 ruleCount,
          Nat.lt_of_lt_of_le Nat.one_pos (Nat.le_max_right _ _), nextPow2_pos ruleCount,
          fun _ => 0, fun _ => 0⟩
        some (.error e, ⟨g.rules, values, some tables, none⟩)
      | none =>
        match fillTables seededHash fuel g.rules collected ruleCount with
        | none => none
        | some tables => some (.ok (), ⟨g.rules, values, some tables, none⟩)

def lookup (tables : MphTables) (rules : List Bytes) (hash : UInt32) (input : Bytes) : Nat :=
  let seed := tables.level0 (maskIndex tables.level0Size_pos hash)
  let ruleIdx := tables.level1 (maskIndex tables.level1Size_pos (seededHash seed input))
  if ruleIdx ≥ rules.length then 0
  else if rules.getD ruleIdx [] = input then ruleIdx
  else 0

def built (g : MPHMatcherGroup) : Option MphTables :=
  match g.ruleInfos with
  | none => g.tables
  | some _ => none

/-- The walk from the end of the input: its rolling hash and the values found at
dots, the last dot first. -/
def walk (find : UInt32 → Bytes → Nat) (values : List (List Nat)) : Bytes → UInt32 × List (List Nat)
  | [] => (0, [])
  | byte :: rest =>
    let (hash, found) := walk find values rest
    let hash := hash * primeRk + byte.toUInt32
    if byte = dot ∧ find hash (byte :: rest) ≠ 0 then
      (hash, found ++ [values.getD (find hash (byte :: rest)) []])
    else (hash, found)

def matchStr (g : MPHMatcherGroup) (input : Bytes) : List Nat :=
  match g.built with
  | none => []
  | some tables =>
    let find := lookup seededHash tables g.rules
    let (hash, found) := walk find g.values input
    let mphIdx := find hash input
    let found := if mphIdx ≠ 0 then found ++ [g.values.getD mphIdx []] else found
    found.reverse.flatten

def walkAny (find : UInt32 → Bytes → Nat) : Bytes → UInt32 × Bool
  | [] => (0, false)
  | byte :: rest =>
    match walkAny find rest with
    | (hash, true) => (hash, true)
    | (hash, false) =>
      let hash := hash * primeRk + byte.toUInt32
      (hash, byte = dot && find hash (byte :: rest) ≠ 0)

def matchAny (g : MPHMatcherGroup) (input : Bytes) : Bool :=
  match g.built with
  | none => false
  | some tables =>
    let find := lookup seededHash tables g.rules
    match walkAny find input with
    | (_, true) => true
    | (hash, false) => find hash input ≠ 0

/-- The group has not been built and stores exactly the given patterns with their
values. -/
structure RecordsIn (g : MPHMatcherGroup) (infos : RuleInfos) (entries : List (Bytes × Nat)) :
    Prop where
  ruleInfos_eq : g.ruleInfos = some infos
  rules_eq : ∃ keys, g.rules = [] :: keys ∧ g.values = List.replicate (keys.length + 1) [] ∧
    ∀ s, s ∈ keys ↔ s ∈ infos
  hash_eq : ∀ s info, infos.lookup s = some info → info.rollingHash = rollingHash 0 s
  mem_iff : ∀ s v, (s, v) ∈ entries ↔ ∃ info, infos.lookup s = some info ∧ v ∈ info.combined
  nonempty : ∀ s info, infos.lookup s = some info → info.combined ≠ []

def Records (g : MPHMatcherGroup) (entries : List (Bytes × Nat)) : Prop :=
  ∃ infos, g.RecordsIn infos entries

theorem records_new : new.Records [] := ⟨∅, rfl, ⟨[], rfl, rfl, by simp⟩, by simp, by simp, by simp⟩

variable {infos : RuleInfos}

theorem exists_lookup_of_mem (h : s ∈ infos) : ∃ info, infos.lookup s = some info :=
  Option.isSome_iff_exists.mp (AList.lookup_isSome.mpr h)

theorem mem_of_lookup (h : infos.lookup s = some info) : s ∈ infos := by
  rw [← AList.lookup_isSome, h]
  rfl

variable {g g' : MPHMatcherGroup}

theorem RecordsIn.insert (h : g.RecordsIn infos entries) (hh : info.rollingHash = rollingHash 0 s)
    (hv : ∀ v, v ∈ info.combined ↔ (s, v) ∈ entries ∨ v = value)
    (hin : g'.ruleInfos = some (infos.insert s info))
    (hr : ∃ keys, g'.rules = [] :: keys ∧ g'.values = List.replicate (keys.length + 1) [] ∧
      ∀ s', s' ∈ keys ↔ s' ∈ infos.insert s info) :
    g'.RecordsIn (infos.insert s info) (entries ++ [(s, value)]) := by
  have hl : ∀ s', (infos.insert s info).lookup s' =
      if s' = s then some info else infos.lookup s' := by
    intro s'
    split
    case isTrue heq =>
      subst heq
      exact AList.lookup_insert infos
    case isFalse hne => exact AList.lookup_insert_ne hne
  refine ⟨hin, hr, fun s' info' hi => ?_, fun s' v => ?_, fun s' info' hi => ?_⟩
  · rw [hl] at hi
    split at hi
    case isTrue heq =>
      cases hi
      rw [hh, heq]
    case isFalse => exact h.hash_eq s' info' hi
  · rw [hl]
    by_cases heq : s' = s
    · simp [heq, hv]
    · simp [heq, h.mem_iff s' v]
  · rw [hl] at hi
    split at hi
    · cases hi
      exact ne_nil_of_mem ((hv value).mpr (.inr rfl))
    · exact h.nonempty s' info' hi

theorem Records.addPattern (h : g.Records entries)
    (hsu : suffixHash = rollingHash 0 suffixPattern) (pat : Bytes)
    (mt : MatcherType) (value : Nat) :
    (g.addPattern suffixHash suffixPattern pat mt value).1.Records
        (entries ++ [(pat ++ suffixPattern, value)]) ∧
      (g.addPattern suffixHash suffixPattern pat mt value).2 =
        rollingHash 0 (pat ++ suffixPattern) := by
  obtain ⟨i, h⟩ := h
  obtain ⟨keys, hk, hv, hm⟩ := h.rules_eq
  simp only [MPHMatcherGroup.addPattern, h.ruleInfos_eq]
  cases hl : i.lookup (pat ++ suffixPattern) with
  | some info =>
    have hold := mem_of_lookup hl
    have hh := h.hash_eq _ info hl
    refine ⟨⟨_, h.insert (by simpa using hh) (fun v => ?_) rfl ⟨keys, hk, hv, ?_⟩⟩, hh⟩
    · rw [MphRuleInfo.mem_combined_push, h.mem_iff, hl]
      simp
    intro s
    rw [hm s, AList.mem_insert]
    constructor
    · exact .inr
    · rintro (rfl | hs)
      · exact hold
      · exact hs
  | none =>
    have hh : rollingHash suffixHash pat = rollingHash 0 (pat ++ suffixPattern) := by
      rw [rollingHash_append, hsu]
    refine ⟨⟨_, h.insert (by simpa using hh) (fun v => ?_) rfl
      ⟨keys ++ [pat ++ suffixPattern], by simp [hk], ?_, ?_⟩⟩, hh⟩
    · rw [MphRuleInfo.mem_combined_push, h.mem_iff, hl]
      simp [MphRuleInfo.combined]
    · simp [hv, replicate_succ']
    · intro s
      rw [AList.mem_insert, mem_append, mem_singleton, hm s, or_comm]

theorem Records.addFullMatcher (h : g.Records entries) (pat : Bytes) (v : Nat) :
    (g.addFullMatcher lower pat v).Records (entries ++ [(lower pat, v)]) := by
  have hz : (0 : UInt32) = rollingHash 0 [] := rfl
  simpa [MPHMatcherGroup.addFullMatcher] using (h.addPattern hz (lower pat) .full v).1

theorem Records.addDomainMatcher (h : g.Records entries) (pat : Bytes) (v : Nat) :
    (g.addDomainMatcher lower pat v).Records
      (entries ++ [(lower pat, v), (dot :: lower pat, v)]) := by
  have hz : (0 : UInt32) = rollingHash 0 [] := rfl
  obtain ⟨hf, hh⟩ := h.addPattern hz (lower pat) .domain v
  rw [append_nil] at hf hh
  simpa [MPHMatcherGroup.addDomainMatcher] using (hf.addPattern hh [dot] .domain v).1

def FindsAll (find : UInt32 → Bytes → Nat) (values : List (List Nat))
    (entries : List (Bytes × Nat)) : Prop :=
  ∀ s, (find (rollingHash 0 s) s ≠ 0 ↔ ∃ v, (s, v) ∈ entries) ∧ (find (rollingHash 0 s) s ≠ 0 →
      ∀ v, v ∈ values.getD (find (rollingHash 0 s) s) [] ↔ (s, v) ∈ entries)

theorem collectInfos_eq {rules : List Bytes} (h : ∀ s ∈ rules, s ∈ infos) (ruleIdx : Nat) :
    ∃ collected, collectInfos infos ruleIdx rules = (collected, none) ∧
      ∀ (i : Nat) s, rules[i]? = some s → ∃ info, collected[i]? = some info ∧
        infos.lookup s = some info := by
  induction rules generalizing ruleIdx with
  | nil => exact ⟨[], rfl, by simp⟩
  | cons s rules ih =>
    obtain ⟨rest, hrest, hall⟩ := ih (forall_mem_cons.mp h).2 (ruleIdx + 1)
    obtain ⟨info, hi⟩ := exists_lookup_of_mem (h s mem_cons_self)
    refine ⟨info :: rest, by simp [collectInfos, hi, hrest], fun i s' hs' => ?_⟩
    cases i with
    | zero =>
      obtain rfl : s = s' := by simpa using hs'
      exact ⟨info, rfl, hi⟩
    | succ i => simpa using hall i s' (by simpa using hs')

variable {size : Nat}

theorem mem_bucket (h : collected[i]? = some info) :
    i + 1 ∈ bucket hsize collected (maskIndex hsize info.rollingHash) := by
  simp only [bucket, mem_map, mem_filter, decide_eq_true_eq]
  refine ⟨(info, i + 1), ⟨?_, rfl⟩, rfl⟩
  rw [mk_mem_zipIdx_iff_le_and_getElem?_sub]
  simpa using h

theorem nodup_bucketOrder (buckets : Fin size → List Nat) : (bucketOrder buckets).Nodup :=
  (perm_insertionSort _ _).nodup_iff.mpr (nodup_finRange size)

theorem mem_bucketOrder (buckets : Fin size → List Nat) (b : Fin size) : b ∈ bucketOrder buckets :=
  (perm_insertionSort _ _).mem_iff.mpr (mem_finRange b)

theorem lookup_fillTables {tables : MphTables} {keys : List Bytes} {collected : List MphRuleInfo}
    (h : fillTables seededHash fuel ([] :: keys) collected ruleCount = some tables) {i : Nat}
    (hk : keys[i]? = some s) (hi : collected[i]? = some info)
    (hh : info.rollingHash = rollingHash 0 s) :
    lookup seededHash tables ([] :: keys) (rollingHash 0 s) s = i + 1 := by
  unfold fillTables at h
  simp only at h
  split at h
  · cases h
  case h_2 l t hs =>
    cases h
    obtain ⟨-, -, hho⟩ := Displacement.settleAll_spec hs (nodup_bucketOrder _)
    have hc := (hho _ (mem_bucketOrder _ _) (i + 1) (mem_bucket hi)).2
    have hr : ([] :: keys).getD (i + 1) [] = s := by simp [hk]
    have hlt : i < keys.length := (List.getElem?_eq_some_iff.mp hk).1
    rw [hr, hh] at hc
    simp only [lookup, hc, hr, if_true]
    rw [if_neg (by simpa using hlt)]

theorem lookup_eq_zero {tables : MphTables} {keys : List Bytes} {s : Bytes} (h : s ∉ keys)
    (hash : UInt32) : lookup seededHash tables ([] :: keys) hash s = 0 := by
  simp only [lookup]
  generalize tables.level1 _ = ruleIdx
  split
  · rfl
  split
  case isTrue hlt hr =>
    cases ruleIdx with
    | zero => rfl
    | succ i =>
      have hi : i < keys.length := by simpa using hlt
      refine absurd ?_ h
      rw [← hr]
      simp [hi]
  case isFalse => rfl

/-- After a build, whether it made tables or found no rules, matching goes by the
patterns stored. -/
structure Finds (g : MPHMatcherGroup) (entries : List (Bytes × Nat)) : Prop where
  of_built : ∀ tables, g.built = some tables →
    FindsAll (lookup seededHash tables g.rules) g.values entries
  of_not_built : g.built = none → entries = []

theorem RecordsIn.finds_build
    (h : g.RecordsIn infos entries) (hb : build seededHash fuel g = some (result, g')) :
    g'.Finds seededHash entries := by
  obtain ⟨keys, hk, hvl, hm⟩ := h.rules_eq
  simp only [build, h.ruleInfos_eq] at hb
  split at hb
  case isTrue hn =>
    -- no rules: nothing is built and nothing was stored
    cases hb
    refine ⟨fun t hbu => by simp [built, h.ruleInfos_eq] at hbu, fun _ => ?_⟩
    refine eq_nil_iff_forall_not_mem.mpr fun ⟨s, v⟩ he => ?_
    obtain ⟨info, hin, -⟩ := (h.mem_iff s v).mp he
    have hs := mem_of_lookup hin
    rw [AList.mem_keys, length_eq_zero_iff.mp hn] at hs
    cases hs
  case isFalse =>
    obtain ⟨c, hc, hif⟩ := collectInfos_eq (fun s hs => (hm s).mp hs) 1
    simp only [hk, hvl, drop_succ_cons, drop_zero, hc] at hb
    split at hb
    · cases hb
    case h_2 t hfi =>
      cases hb
      refine ⟨fun tables' hbu => ?_, fun hbu => by simp [built] at hbu⟩
      obtain rfl : t = tables' := by simpa [built] using hbu
      intro s
      by_cases hs : s ∈ keys
      · obtain ⟨i, hke⟩ := mem_iff_getElem?.mp hs
        obtain ⟨info, hg, hin⟩ := hif i s hke
        obtain ⟨v, hv⟩ := exists_mem_of_ne_nil _ (h.nonempty s info hin)
        have hva : ∀ v, v ∈ info.combined ↔ (s, v) ∈ entries := by
          intro v
          rw [h.mem_iff, hin]
          simp
        have hf := lookup_fillTables seededHash hfi hke hg (h.hash_eq s info hin)
        refine ⟨iff_of_true (by simp [hf]) ⟨v, (hva v).mp hv⟩, fun _ => ?_⟩
        obtain ⟨hi, rfl⟩ := List.getElem?_eq_some_iff.mp hg
        simpa [hf, List.getElem?_append, hi] using hva
      · have hn : ∀ v, (s, v) ∉ entries := by
          intro v he
          obtain ⟨info, hin, -⟩ := (h.mem_iff s v).mp he
          exact hs ((hm s).mpr (mem_of_lookup hin))
        simp [lookup_eq_zero seededHash hs, hn]

theorem Records.finds_build (h : g.Records entries)
    (hb : build seededHash fuel g = some (result, g')) : g'.Finds seededHash entries := by
  obtain ⟨i, h⟩ := h
  exact h.finds_build seededHash hb

def Reaches (s input : Bytes) : Prop := s = input ∨ s <:+ input ∧ s.head? = some dot

theorem fst_walk (find : UInt32 → Bytes → Nat) (values : List (List Nat)) (input : Bytes) :
    (walk find values input).1 = rollingHash 0 input := by
  induction input with
  | nil => rfl
  | cons byte rest ih =>
    have hc : rollingHash 0 (byte :: rest) = rollingHash 0 rest * primeRk + byte.toUInt32 := rfl
    simp only [walk, ih, hc]
    split <;> rfl

theorem mem_walk {find : UInt32 → Bytes → Nat} {values : List (List Nat)}
    (h : FindsAll find values entries) (inp : Bytes) (v : Nat) :
    v ∈ (walk find values inp).2.flatten ↔
      ∃ s, (s, v) ∈ entries ∧ s <:+ inp ∧ s.head? = some dot := by
  induction inp with
  | nil => simp [walk]
  | cons byte rest ih =>
    have hc : rollingHash 0 (byte :: rest) = rollingHash 0 rest * primeRk + byte.toUInt32 := rfl
    have hst : (∃ s, (s, v) ∈ entries ∧ s <:+ byte :: rest ∧ s.head? = some dot) ↔
        (∃ s, (s, v) ∈ entries ∧ s <:+ rest ∧ s.head? = some dot) ∨
          (byte :: rest, v) ∈ entries ∧ byte = dot := by
      simp only [suffix_cons_iff]
      constructor
      · rintro ⟨s, hs, rfl | hsu, hh⟩
        · exact .inr ⟨hs, by simpa using hh⟩
        · exact .inl ⟨s, hs, hsu, hh⟩
      · rintro (⟨s, hs, hsu, hh⟩ | ⟨hs, rfl⟩)
        · exact ⟨s, hs, .inr hsu, hh⟩
        · exact ⟨_, hs, .inl rfl, rfl⟩
    obtain ⟨hf, hv⟩ := h (byte :: rest)
    rw [hst, ← ih]
    simp only [walk, fst_walk, ← hc]
    split
    case isTrue hdot =>
      rw [flatten_concat, mem_append, hv hdot.2]
      simp [hdot.1]
    case isFalse hno =>
      have hn : ¬((byte :: rest, v) ∈ entries ∧ byte = dot) := fun hs =>
        hno ⟨hs.2, hf.mpr ⟨v, hs.1⟩⟩
      simp [hn]

theorem Finds.mem_matchStr (h : g.Finds seededHash entries) (input : Bytes)
    (v : Nat) : v ∈ g.matchStr seededHash input ↔ ∃ s, (s, v) ∈ entries ∧ Reaches s input := by
  unfold matchStr
  cases hb : g.built with
  | none => simp [h.of_not_built hb]
  | some t =>
    have hf := h.of_built t hb
    obtain ⟨hfo, hv⟩ := hf input
    have hsp : (∃ s, (s, v) ∈ entries ∧ Reaches s input) ↔
        (∃ s, (s, v) ∈ entries ∧ s <:+ input ∧ s.head? = some dot) ∨ (input, v) ∈ entries := by
      simp [Reaches, and_or_left, exists_or, or_comm]
    rw [hsp, ← mem_walk hf input v]
    simp only [fst_walk]
    split
    case isTrue hne =>
      rw [reverse_concat, flatten_cons, mem_append, hv hne, or_comm]
      simp
    case isFalse hno =>
      have hn : (input, v) ∉ entries := fun hs => hno (hfo.mpr ⟨v, hs⟩)
      simp [hn]

theorem walkAny_spec {find : UInt32 → Bytes → Nat} {values : List (List Nat)}
    (h : FindsAll find values entries) (inp : Bytes) : (∃ hash, walkAny find inp = (hash, true)) ∧
        (∃ s v, (s, v) ∈ entries ∧ s <:+ inp ∧ s.head? = some dot) ∨
      walkAny find inp = (rollingHash 0 inp, false) ∧
        ∀ s v, (s, v) ∈ entries → s <:+ inp → s.head? ≠ some dot := by
  induction inp with
  | nil =>
    refine .inr ⟨rfl, fun s v _ hsu => ?_⟩
    simp [suffix_nil.mp hsu]
  | cons byte rest ih =>
    rcases ih with ⟨⟨hash, hw⟩, s, v, hs, hsu, hh⟩ | ⟨hw, hn⟩
    · refine .inl ⟨⟨hash, by simp [walkAny, hw]⟩, s, v, hs, ?_, hh⟩
      exact hsu.trans (suffix_cons byte rest)
    have hst : walkAny find (byte :: rest) = (rollingHash 0 (byte :: rest),
        byte = dot && find (rollingHash 0 (byte :: rest)) (byte :: rest) ≠ 0) := by
      rw [walkAny, hw]
      rfl
    have hf := (h (byte :: rest)).1
    by_cases hdot : byte = dot ∧ find (rollingHash 0 (byte :: rest)) (byte :: rest) ≠ 0
    · obtain ⟨v, hv⟩ := hf.mp hdot.2
      refine .inl ⟨⟨_, hst.trans (Prod.ext rfl ?_)⟩, _, v, hv, suffix_refl _, ?_⟩
      · simpa using hdot
      · simp [hdot.1]
    · refine .inr ⟨by rw [hst]; simpa using hdot, fun s v hs hsu hh => ?_⟩
      rcases suffix_cons_iff.mp hsu with rfl | hrest
      · exact hdot ⟨by simpa using hh, hf.mpr ⟨v, hs⟩⟩
      · exact hn s v hs hrest hh

theorem Finds.matchAny_iff (h : g.Finds seededHash entries) (input : Bytes) :
    g.matchAny seededHash input = true ↔ ∃ v, v ∈ g.matchStr seededHash input := by
  simp only [h.mem_matchStr]
  unfold matchAny
  cases hb : g.built with
  | none => simp [h.of_not_built hb]
  | some t =>
    have hf := h.of_built t hb
    rcases walkAny_spec hf input with ⟨⟨hash, hw⟩, s, v, hs, hsu, hh⟩ | ⟨hw, hn⟩
    · simp only [hw, true_iff]
      exact ⟨v, s, hs, .inr ⟨hsu, hh⟩⟩
    simp only [hw, decide_eq_true_eq, (hf input).1]
    constructor
    · rintro ⟨v, hv⟩
      exact ⟨v, input, hv, .inl rfl⟩
    · rintro ⟨v, s, hs, rfl | ⟨hsu, hh⟩⟩
      · exact ⟨v, hs⟩
      · exact absurd hh (hn s v hs hsu)

end MPHMatcherGroup

end XrayCore.Geodata
