import XrayCore.Geodata.MphGroup

/-!
# Domain rules

`MphDomainMatcher` answers a list of domain rules: full and domain rules through
the perfect-hash group, keywords and regular expressions one by one. It reports the
rules that match the input when each is tried alone.
-/

namespace XrayCore.Geodata

open Lib List

/-- `str::to_lowercase`, with what the matchers need of it: lowering twice is
lowering once, and neither empties a string nor puts a dot in front. -/
structure LowerCase where
  lower : Bytes → Bytes
  lower_lower : ∀ s, lower (lower s) = lower s
  lower_ne_nil : ∀ s, s ≠ [] → lower s ≠ []
  head_lower : ∀ s, s.head? ≠ some dot → (lower s).head? ≠ some dot

def asciiLower (b : UInt8) : UInt8 := if 65 ≤ b.toNat ∧ b.toNat ≤ 90 then b + 32 else b

theorem asciiLower_eq (b : UInt8) :
    asciiLower b = b ∧ ¬(65 ≤ b.toNat ∧ b.toNat ≤ 90) ∨ 97 ≤ (asciiLower b).toNat := by
  unfold asciiLower
  split
  · refine .inr ?_
    rw [UInt8.toNat_add]
    simp
    omega
  case isFalse h => exact .inl ⟨rfl, h⟩

def LowerCase.ascii : LowerCase where
  lower := map asciiLower
  lower_lower s := by
    have htwice : ∀ b, asciiLower (asciiLower b) = asciiLower b := by
      intro b
      rcases asciiLower_eq b with ⟨h, -⟩ | h
      · rw [h, h]
      · rw [asciiLower, if_neg]
        omega
    simp [htwice]
  lower_ne_nil s h := by simpa using h
  head_lower s h := by
    cases s with
    | nil => simp
    | cons b s =>
      simp only [head?_cons, ne_eq, Option.some.injEq, map_cons] at h ⊢
      rcases asciiLower_eq b with ⟨heq, -⟩ | hle
      · rwa [heq]
      · intro hdot
        rw [hdot] at hle
        exact absurd hle (by decide)

inductive DomainType
  | full
  | domain
  | substr
  | regex
  deriving DecidableEq, Repr

structure DomainRule where
  domainType : DomainType
  value : Bytes
  ruleId : Nat

inductive MatcherError (ε : Type)
  | regexCompile (e : ε)
  | unknownMatcherType

variable (lowerCase : LowerCase) {ε : Type} (regexNew : Bytes → Except ε (Bytes → Bool))
  (seededHash : UInt32 → Bytes → UInt32)

def regexMatcher (pattern : Bytes) : Except (MatcherError ε) Matcher :=
  match regexNew pattern with
  | .ok isMatch => .ok (.regex pattern isMatch)
  | .error e => .error (.regexCompile e)

def parseDomain (rule : DomainRule) : Except (MatcherError ε) Matcher :=
  match rule.domainType with
  | .full => .ok (.full (lowerCase.lower rule.value))
  | .domain => .ok (.domain (lowerCase.lower rule.value))
  | .substr => .ok (.substr (lowerCase.lower rule.value))
  | .regex => regexMatcher regexNew rule.value

structure MphDomainMatcher where
  mph : MPHMatcherGroup
  simple : SimpleMatcherGroup

namespace MphDomainMatcher

def addRule (m : MphDomainMatcher) (rule : DomainRule) : Except (MatcherError ε) MphDomainMatcher :=
  match rule.domainType with
  | .full =>
    let value := lowerCase.lower rule.value
    .ok { m with mph := m.mph.addFullMatcher lowerCase.lower value rule.ruleId }
  | .domain =>
    let value := lowerCase.lower rule.value
    .ok { m with mph := m.mph.addDomainMatcher lowerCase.lower value rule.ruleId }
  | .substr =>
    .ok { m with simple := m.simple.add (.substr (lowerCase.lower rule.value)) rule.ruleId }
  | .regex =>
    match regexMatcher regexNew rule.value with
    | .ok matcher => .ok { m with simple := m.simple.add matcher rule.ruleId }
    | .error e => .error e

def addRules (m : MphDomainMatcher) : List DomainRule → Except (MatcherError ε) MphDomainMatcher
  | [] => .ok m
  | rule :: rules =>
    match m.addRule lowerCase regexNew rule with
    | .ok m => m.addRules rules
    | .error e => .error e

/-- Build from a list of rules; `none` when the tables are not done within `fuel` passes for each
bucket. What their build reports is ignored. -/
def build (fuel : Nat) (rules : List DomainRule) :
    Option (Except (MatcherError ε) MphDomainMatcher) :=
  match addRules lowerCase regexNew ⟨.new, .new⟩ rules with
  | .error e => some (.error e)
  | .ok m =>
    match m.mph.build seededHash fuel with
    | none => none
    | some (_, mph) => some (.ok { m with mph := mph })

def matchDomain (m : MphDomainMatcher) (input : Bytes) : List Nat :=
  m.mph.matchStr seededHash input ++ m.simple.matchStr input

def matchAny (m : MphDomainMatcher) (input : Bytes) : Bool :=
  m.mph.matchAny seededHash input || m.simple.matchAny input

end MphDomainMatcher

def DomainRule.entries (rule : DomainRule) : List (Bytes × Nat) :=
  match rule.domainType with
  | .full => [(lowerCase.lower rule.value, rule.ruleId)]
  | .domain =>
    [(lowerCase.lower rule.value, rule.ruleId), (dot :: lowerCase.lower rule.value, rule.ruleId)]
  | _ => []

def DomainRule.Simple (rule : DomainRule) (matcher : Matcher) (id : Nat) : Prop :=
  rule.ruleId = id ∧ (rule.domainType = .substr ∨ rule.domainType = .regex) ∧
    parseDomain lowerCase regexNew rule = .ok matcher

def DomainRule.Matches (rule : DomainRule) (input : Bytes) : Prop :=
  ∃ matcher, parseDomain lowerCase regexNew rule = .ok matcher ∧ matcher.matchStr input = true

/-- A full or domain rule has a pattern that is not empty and has no dot in front. -/
def DomainRule.Proper (rule : DomainRule) : Prop :=
  rule.domainType = .full ∨ rule.domainType = .domain →
    rule.value ≠ [] ∧ rule.value.head? ≠ some dot

instance (rule : DomainRule) : Decidable rule.Proper :=
  inferInstanceAs (Decidable (_ ∨ _ → _ ∧ _))

namespace MphDomainMatcher

structure Added (m : MphDomainMatcher) (rules : List DomainRule) : Prop where
  records : m.mph.Records (rules.flatMap (·.entries lowerCase))
  simple_iff : ∀ matcher id, (matcher, id) ∈ m.simple.entries ↔
    ∃ rule ∈ rules, rule.Simple lowerCase regexNew matcher id

variable {lowerCase regexNew} {m m' : MphDomainMatcher} {rules : List DomainRule}
  {rule : DomainRule}

section

variable (h : m.Added lowerCase regexNew rules)

include h

theorem Added.mph {mph : MPHMatcherGroup}
    (hm : mph.Records (rules.flatMap (·.entries lowerCase) ++ rule.entries lowerCase))
    (htype : rule.domainType = .full ∨ rule.domainType = .domain) :
    Added lowerCase regexNew { m with mph := mph } (rules ++ [rule]) := by
  refine ⟨by simpa using hm, fun ma id => ?_⟩
  have hn : ¬rule.Simple lowerCase regexNew ma id := by
    rintro ⟨-, hs, -⟩
    rcases htype with h | h <;> simp [h] at hs
  simp [h.simple_iff, or_and_right, exists_or, hn]

theorem Added.simple (hp : parseDomain lowerCase regexNew rule = .ok matcher)
    (htype : rule.domainType = .substr ∨ rule.domainType = .regex) :
    Added lowerCase regexNew { m with simple := m.simple.add matcher rule.ruleId }
      (rules ++ [rule]) := by
  refine ⟨?_, fun ma' id => ?_⟩
  · have hn : rule.entries lowerCase = [] := by
      rcases htype with h | h <;> simp [DomainRule.entries, h]
    simpa [hn] using h.records
  have hr : rule.Simple lowerCase regexNew ma' id ↔ ma' = matcher ∧ id = rule.ruleId := by
    simp only [DomainRule.Simple, htype, hp, Except.ok.injEq, true_and]
    constructor <;> rintro ⟨rfl, rfl⟩ <;> exact ⟨rfl, rfl⟩
  simp [SimpleMatcherGroup.add, h.simple_iff, or_and_right, exists_or, hr]

theorem Added.addRule (ha : m.addRule lowerCase regexNew rule = .ok m') :
    m'.Added lowerCase regexNew (rules ++ [rule]) := by
  unfold MphDomainMatcher.addRule at ha
  cases htype : rule.domainType with
  | full =>
    simp only [htype] at ha
    cases ha
    have hr := h.records.addFullMatcher lowerCase.lower (lowerCase.lower rule.value) rule.ruleId
    exact h.mph (by simpa [DomainRule.entries, htype, lowerCase.lower_lower] using hr) (.inl htype)
  | domain =>
    simp only [htype] at ha
    cases ha
    have hr := h.records.addDomainMatcher lowerCase.lower (lowerCase.lower rule.value) rule.ruleId
    exact h.mph (by simpa [DomainRule.entries, htype, lowerCase.lower_lower] using hr) (.inr htype)
  | substr =>
    simp only [htype] at ha
    cases ha
    exact h.simple (by simp [parseDomain, htype]) (.inl htype)
  | regex =>
    simp only [htype] at ha
    cases hre : regexMatcher regexNew rule.value with
    | error e => simp [hre] at ha
    | ok ma =>
      simp only [hre] at ha
      cases ha
      exact h.simple (by simp [parseDomain, htype, hre]) (.inr htype)

end

theorem Added.addRules (h : m.Added lowerCase regexNew before)
    (ha : m.addRules lowerCase regexNew rules = .ok m') :
    m'.Added lowerCase regexNew (before ++ rules) := by
  induction rules generalizing m before with
  | nil =>
    cases ha
    simpa using h
  | cons rule rules ih =>
    unfold addRules at ha
    split at ha
    case h_1 m1 hr => simpa using ih (h.addRule hr) ha
    case h_2 => cases ha

theorem reaches_entries_iff (hp : rule.Proper) (id : Nat) (input : Bytes) :
    (∃ s, (s, id) ∈ rule.entries lowerCase ∧ MPHMatcherGroup.Reaches s input) ↔
      rule.ruleId = id ∧ (rule.domainType = .full ∨ rule.domainType = .domain) ∧
        rule.Matches lowerCase regexNew input := by
  cases htype : rule.domainType with
  | full =>
    have hh := lowerCase.head_lower _ (hp (.inl htype)).2
    have hm : rule.Matches lowerCase regexNew input ↔ lowerCase.lower rule.value = input := by
      simp [DomainRule.Matches, parseDomain, htype, Matcher.matchStr]
    simp only [DomainRule.entries, htype, mem_singleton, Prod.mk.injEq, hm]
    constructor
    · rintro ⟨s, ⟨rfl, rfl⟩, rfl | ⟨-, hdot⟩⟩
      · exact ⟨rfl, .inl trivial, rfl⟩
      · exact absurd hdot hh
    · rintro ⟨rfl, -, rfl⟩
      exact ⟨_, ⟨rfl, rfl⟩, .inl rfl⟩
  | domain =>
    have hh := lowerCase.head_lower _ (hp (.inr htype)).2
    have hne := lowerCase.lower_ne_nil _ (hp (.inr htype)).1
    have hm : rule.Matches lowerCase regexNew input ↔
        input = lowerCase.lower rule.value ∨ dot :: lowerCase.lower rule.value <:+ input := by
      simp [DomainRule.Matches, parseDomain, htype, Matcher.matchStr, Matcher.matchDomain_iff, hne]
    simp only [DomainRule.entries, htype, mem_cons, not_mem_nil, or_false, Prod.mk.injEq, hm]
    constructor
    · rintro ⟨s, ⟨rfl, rfl⟩ | ⟨rfl, rfl⟩, rfl | ⟨hs, hdot⟩⟩
      · exact ⟨rfl, .inr trivial, .inl rfl⟩
      · exact absurd hdot hh
      · exact ⟨rfl, .inr trivial, .inr (suffix_refl _)⟩
      · exact ⟨rfl, .inr trivial, .inr hs⟩
    · rintro ⟨rfl, -, rfl | hs⟩
      · exact ⟨_, .inl ⟨rfl, rfl⟩, .inl rfl⟩
      · exact ⟨_, .inr ⟨rfl, rfl⟩, .inr ⟨hs, rfl⟩⟩
  | substr | regex => simp [DomainRule.entries, htype]

theorem mem_matchDomain (ha : m.Added lowerCase regexNew rules) {mph : MPHMatcherGroup}
    (hf : mph.Finds seededHash (rules.flatMap (·.entries lowerCase)))
    (hpr : ∀ rule ∈ rules, rule.Proper) (id : Nat) (input : Bytes) :
    id ∈ matchDomain seededHash { m with mph := mph } input ↔
      ∃ rule ∈ rules, rule.ruleId = id ∧ rule.Matches lowerCase regexNew input := by
  have ht : id ∈ mph.matchStr seededHash input ↔ ∃ rule ∈ rules, rule.ruleId = id ∧
      (rule.domainType = .full ∨ rule.domainType = .domain) ∧
        rule.Matches lowerCase regexNew input := by
    rw [hf.mem_matchStr]
    constructor
    · rintro ⟨s, hs, hre⟩
      obtain ⟨rule, hr, he⟩ := mem_flatMap.mp hs
      exact ⟨rule, hr, (reaches_entries_iff (hpr rule hr) id input).mp ⟨s, he, hre⟩⟩
    · rintro ⟨rule, hr, hm⟩
      obtain ⟨s, he, hre⟩ := (reaches_entries_iff (hpr rule hr) id input).mpr hm
      exact ⟨s, mem_flatMap.mpr ⟨rule, hr, he⟩, hre⟩
  have hsi : id ∈ m.simple.matchStr input ↔ ∃ rule ∈ rules, rule.ruleId = id ∧
      (rule.domainType = .substr ∨ rule.domainType = .regex) ∧
        rule.Matches lowerCase regexNew input := by
    simp only [SimpleMatcherGroup.mem_matchStr, ha.simple_iff]
    constructor
    · rintro ⟨ma, ⟨rule, hr, hid, htype, hp⟩, hm⟩
      exact ⟨rule, hr, hid, htype, ma, hp, hm⟩
    · rintro ⟨rule, hr, hid, htype, ma, hp, hm⟩
      exact ⟨ma, ⟨rule, hr, hid, htype, hp⟩, hm⟩
  rw [matchDomain, mem_append, ht, hsi]
  constructor
  · rintro (⟨rule, hr, hid, -, hm⟩ | ⟨rule, hr, hid, -, hm⟩) <;>
      exact ⟨rule, hr, hid, hm⟩
  rintro ⟨rule, hr, hid, hm⟩
  cases htype : rule.domainType with
  | full => exact .inl ⟨rule, hr, hid, .inl htype, hm⟩
  | domain => exact .inl ⟨rule, hr, hid, .inr htype, hm⟩
  | substr => exact .inr ⟨rule, hr, hid, .inl htype, hm⟩
  | regex => exact .inr ⟨rule, hr, hid, .inr htype, hm⟩

theorem matchAny_iff_mem (hf : m.mph.Finds seededHash entries) (input : Bytes) :
    m.matchAny seededHash input = true ↔ ∃ id, id ∈ m.matchDomain seededHash input := by
  simp [matchAny, matchDomain, hf.matchAny_iff, SimpleMatcherGroup.matchAny_iff, exists_or]

/-- Whatever the seeded hash, once the build returns a matcher, it reports the rules
that match the input when tried one by one. -/
theorem matchDomain_eq_one_by_one (lowerCase : LowerCase)
    (regexNew : Bytes → Except ε (Bytes → Bool)) (seededHash : UInt32 → Bytes → UInt32)
    (fuel : Nat) (rules : List DomainRule) (hproper : ∀ rule ∈ rules, rule.Proper)
    (hbuild : build lowerCase regexNew seededHash fuel rules = some (.ok m)) (input : Bytes) :
    (∀ id, id ∈ m.matchDomain seededHash input ↔
      ∃ rule ∈ rules, rule.ruleId = id ∧ rule.Matches lowerCase regexNew input) ∧
    (m.matchAny seededHash input = true ↔
      ∃ rule ∈ rules, rule.Matches lowerCase regexNew input) := by
  unfold build at hbuild
  split at hbuild
  · cases hbuild
  case h_2 m₀ hadd =>
    split at hbuild
    · cases hbuild
    case h_2 mph htables =>
      cases hbuild
      have hnew : Added lowerCase regexNew ⟨.new, .new⟩ [] :=
        ⟨MPHMatcherGroup.records_new, by simp [SimpleMatcherGroup.new]⟩
      have hadded := hnew.addRules hadd
      have hfinds := hadded.records.finds_build seededHash htables
      have hmem := fun id => mem_matchDomain seededHash hadded hfinds hproper id input
      refine ⟨hmem, ?_⟩
      rw [matchAny_iff_mem seededHash hfinds]
      simp only [hmem]
      constructor
      · rintro ⟨id, rule, hrule, -, hmatch⟩
        exact ⟨rule, hrule, hmatch⟩
      · rintro ⟨rule, hrule, hmatch⟩
        exact ⟨_, rule, hrule, rfl, hmatch⟩

def twoRules : List DomainRule := [⟨.domain, [98, 46, 67], 7⟩, ⟨.substr, [120], 8⟩]

def lengthHash (_ : UInt32) (s : Bytes) : UInt32 := UInt32.ofNat s.length

theorem matchDomain_eq_one_by_one_twoRules : ∃ m,
    build .ascii (fun _ => .error ()) lengthHash 1 twoRules = some (.ok m) ∧
    ∀ id, id ∈ m.matchDomain lengthHash [97, 46, 98, 46, 99] ↔ ∃ rule ∈ twoRules,
      rule.ruleId = id ∧ rule.Matches .ascii (fun _ => .error ()) [97, 46, 98, 46, 99] := by
  refine ⟨_, rfl, ?_⟩
  exact (matchDomain_eq_one_by_one .ascii (fun _ => .error ()) lengthHash 1 twoRules
    (by decide) rfl [97, 46, 98, 46, 99]).1

end MphDomainMatcher

end XrayCore.Geodata
