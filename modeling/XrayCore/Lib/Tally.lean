import Mathlib.Algebra.BigOperators.Group.List.Basic
import Mathlib.Algebra.Order.Ring.Nat
import Mathlib.Data.List.AList

/-!
# Sums over a map

The sum of a weight over the entries of a map, as entries come and go; and the order in which a
hash map hands out its keys, which can be any.
-/

namespace XrayCore.Lib

open List

variable {κ : Type _} {β : κ → Type _} {weight : (k : κ) → β k → Nat}

def tally (weight : (k : κ) → β k → Nat) (m : AList β) : Nat :=
  (m.entries.map fun s => weight s.1 s.2).sum

@[simp] theorem tally_empty : tally weight (∅ : AList β) = 0 := rfl

variable [DecidableEq κ]

variable {m : AList β}

theorem tally_of_lookup (h : m.lookup k = some b) :
    tally weight m = weight k b + tally weight (m.erase k) := by
  obtain ⟨e, hnd⟩ := m
  change e.dlookup k = some b at h
  change (e.map fun s => weight s.1 s.2).sum =
    weight k b + ((e.kerase k).map fun s => weight s.1 s.2).sum
  clear hnd
  induction e with
  | nil => simp at h
  | cons s e ih =>
    by_cases hk : k = s.1
    · obtain ⟨k', b'⟩ := s
      obtain rfl : k = k' := hk
      rw [dlookup_cons_eq] at h
      obtain rfl := Option.some.inj h
      simp
    · rw [dlookup_cons_ne _ _ hk] at h
      rw [kerase_cons_ne hk, map_cons, map_cons, sum_cons, sum_cons, ih h]
      omega

theorem tally_insert (m : AList β) (k : κ) (b : β k) :
    tally weight (m.insert k b) = weight k b + tally weight (m.erase k) := by
  change ((m.entries.kinsert k b).map fun s => weight s.1 s.2).sum =
    weight k b + ((m.entries.kerase k).map fun s => weight s.1 s.2).sum
  rw [kinsert_def, map_cons, sum_cons]

theorem exists_of_tally_ne_zero (h : tally weight m ≠ 0) :
    ∃ k ∈ m, ∃ b, m.lookup k = some b ∧ weight k b ≠ 0 := by
  by_contra hno
  push Not at hno
  refine h (sum_eq_zero fun n hn => ?_)
  obtain ⟨s, hs, rfl⟩ := mem_map.mp hn
  have hl : m.lookup s.1 = some s.2 := AList.mem_lookup_iff.mpr hs
  exact hno s.1 (AList.lookup_isSome.mp (by simp [hl])) s.2 hl

theorem erase_of_lookup_none (h : m.lookup k = none) : m.erase k = m :=
  AList.ext (kerase_of_notMem_keys (AList.lookup_eq_none.mp h))

theorem lookup_of_lookup_erase
    (h : (m.erase k).lookup k' = some b) : k' ≠ k ∧ m.lookup k' = some b := by
  by_cases hk : k' = k
  · subst hk
    simp at h
  · rw [AList.lookup_erase_ne hk] at h
    exact ⟨hk, h⟩

structure Iteration (κ : Type _) where
  order : List κ → List κ
  perm : ∀ ks, (order ks).Perm ks

def Iteration.asIs : Iteration κ := ⟨id, fun _ => .refl _⟩

end XrayCore.Lib
