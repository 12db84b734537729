import XrayCore.Lib.BigEndian
import Mathlib.Data.List.Infix

/-!
# String matchers

The four matchers on domain names and the group that tries one after the other. A
string is its UTF-8 bytes: equality, suffixes and substrings of valid strings are
those of the bytes. Compiled regular expressions are predicates.
-/

namespace XrayCore.Geodata

open List

open Lib (Bytes)

inductive MatcherType
  | full
  | domain
  | substr
  | regex
  deriving DecidableEq, Repr

def dot : UInt8 := 46

def endsWith (input pattern : Bytes) : Bool := decide (pattern <:+ input)

def strContains (input pattern : Bytes) : Bool := decide (pattern <:+: input)

/-- `FullMatcher`, `DomainMatcher`, `SubstrMatcher` and `RegexMatcher` behind the
`Matcher` trait. -/
inductive Matcher
  | full (pattern : Bytes)
  | domain (pattern : Bytes)
  | substr (pattern : Bytes)
  | regex (pattern : Bytes) (isMatch : Bytes → Bool)

namespace Matcher

def matcherType : Matcher → MatcherType
  | .full _ => .full
  | .domain _ => .domain
  | .substr _ => .substr
  | .regex _ _ => .regex

def pattern : Matcher → Bytes
  | .full pattern | .domain pattern | .substr pattern | .regex pattern _ => pattern

def matchDomain (pattern input : Bytes) : Bool :=
  if !endsWith input pattern then false
  else if input.length = pattern.length then true
  else if pattern.length = 0 then false
  else input[input.length - pattern.length - 1]? == some dot

def matchStr : Matcher → Bytes → Bool
  | .full pattern, input => pattern == input
  | .domain pattern, input => matchDomain pattern input
  | .substr pattern, input => strContains input pattern
  | .regex _ isMatch, input => isMatch input

theorem dot_cons_suffix_concat : dot :: pat <:+ init ++ last :: pat ↔ last = dot := by
  constructor
  · rintro ⟨f, hf⟩
    have hl : f.length = init.length := by simpa using congrArg List.length hf
    exact (List.cons.inj (append_inj hf hl).2).1.symm
  · rintro rfl
    exact ⟨init, rfl⟩

theorem matchDomain_iff (pattern input : Bytes) : matchDomain pattern input = true ↔
      input = pattern ∨ pattern ≠ [] ∧ dot :: pattern <:+ input := by
  by_cases hs : pattern <:+ input
  · obtain ⟨f, rfl⟩ := hs
    rcases eq_nil_or_concat' f with rfl | ⟨init, last, rfl⟩
    · simp [matchDomain, endsWith]
    rw [append_assoc, singleton_append]
    have he : endsWith (init ++ last :: pattern) pattern = true := by
      simpa [endsWith] using (suffix_cons last pattern).trans (suffix_append init _)
    have hle : (init ++ last :: pattern).length ≠ pattern.length := by
      simp
      omega
    have hne : init ++ last :: pattern ≠ pattern := fun h => hle (congrArg List.length h)
    have hl : (init ++ last :: pattern)[(init ++ last :: pattern).length - pattern.length - 1]?
        = some last := by
      have hi : (init ++ last :: pattern).length - pattern.length - 1 = init.length := by
        simp
        omega
      rw [hi]
      simp
    rw [matchDomain, hl, if_neg hle]
    by_cases hp : pattern = []
    · simp [hp, endsWith]
    · simp [he, hne, hp, dot_cons_suffix_concat]
  · have hse : input ≠ pattern := by
      rintro rfl
      exact hs (suffix_refl _)
    have hdot : ¬dot :: pattern <:+ input := fun h =>
      hs ((suffix_cons dot pattern).trans h)
    simp [matchDomain, endsWith, hs, hse, hdot]

end Matcher

def compositeMatches (groups : List (List Nat)) : List Nat :=
  match groups with
  | [] => []
  | [group] => group
  | groups => groups.flatten

theorem mem_compositeMatches : v ∈ compositeMatches groups ↔ ∃ group ∈ groups, v ∈ group := by
  unfold compositeMatches
  split <;> simp

structure SimpleMatcherGroup where
  entries : List (Matcher × Nat)

namespace SimpleMatcherGroup

def new : SimpleMatcherGroup := ⟨[]⟩

def add (g : SimpleMatcherGroup) (matcher : Matcher) (value : Nat) : SimpleMatcherGroup :=
  ⟨g.entries ++ [(matcher, value)]⟩

def matchStr (g : SimpleMatcherGroup) (input : Bytes) : List Nat :=
  (g.entries.filter fun e => e.1.matchStr input).map (·.2)

def matchAny (g : SimpleMatcherGroup) (input : Bytes) : Bool :=
  g.entries.any fun e => e.1.matchStr input

theorem mem_matchStr {g : SimpleMatcherGroup} :
    v ∈ g.matchStr input ↔ ∃ matcher, (matcher, v) ∈ g.entries ∧ matcher.matchStr input = true := by
  simp [matchStr]

theorem matchAny_iff {g : SimpleMatcherGroup} :
    g.matchAny input = true ↔ ∃ v, v ∈ g.matchStr input := by
  simp only [mem_matchStr, matchAny, any_eq_true]
  constructor
  · rintro ⟨⟨m, v⟩, hme, hm⟩
    exact ⟨v, m, hme, hm⟩
  · rintro ⟨v, m, hme, hm⟩
    exact ⟨(m, v), hme, hm⟩

end SimpleMatcherGroup

end XrayCore.Geodata
