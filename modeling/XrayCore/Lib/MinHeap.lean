import Mathlib.Data.List.Sort
import Mathlib.Data.Multiset.AddSub

/-!
# Min-heaps

What a binary heap with a key promises: a bag of elements, of which `peek`
shows one with the least key and `pop` takes it out. Which of several elements
with the least key comes first is left open, so a result about every `MinHeap`
does not depend on it. A sorted list is one.
-/

namespace XrayCore.Lib

open List

class MinHeap (H : Type) (α : outParam Type) (key : outParam (α → Nat)) where
  empty : H
  push : H → α → H
  peek : H → Option α
  pop : H → H
  elems : H → Multiset α
  elems_empty : elems empty = 0
  elems_push : ∀ h a, elems (push h a) = a ::ₘ elems h
  elems_of_peek_none : ∀ {h}, peek h = none → elems h = 0
  elems_pop : ∀ {h a}, peek h = some a → a ::ₘ elems (pop h) = elems h
  peek_le : ∀ {h a}, peek h = some a → ∀ b ∈ elems h, key a ≤ key b

namespace MinHeap

variable {H α : Type} {key : α → Nat} [MinHeap H α key] {h : H}

def len (h : H) : Nat := (elems h).card

theorem len_push (h : H) (a : α) : len (push h a) = len h + 1 := by
  rw [len, elems_push, Multiset.card_cons]
  rfl

theorem peek_mem (ht : peek h = some t) : t ∈ elems h := by
  rw [← elems_pop ht]
  exact Multiset.mem_cons_self _ _

theorem peek_of_mem (ha : a ∈ elems h) : ∃ t, peek h = some t ∧ key t ≤ key a := by
  cases ht : peek h with
  | none =>
    rw [elems_of_peek_none ht] at ha
    exact absurd ha (Multiset.notMem_zero a)
  | some t => exact ⟨t, rfl, peek_le ht a ha⟩

/-- The key `k` is not on top: something smaller is in the heap, or only larger
elements are. -/
theorem peek_key_ne_iff : (∀ t, peek h = some t → key t ≠ k) ↔
      (∃ a ∈ elems h, key a < k) ∨ ∀ a ∈ elems h, k < key a := by
  constructor
  · intro hne
    cases ht : peek h with
    | none =>
      right
      rw [elems_of_peek_none ht]
      exact fun a ha => absurd ha (Multiset.notMem_zero a)
    | some t =>
      rcases lt_or_gt_of_ne (hne t ht) with hlt | hgt
      · exact .inl ⟨t, peek_mem ht, hlt⟩
      · exact .inr fun a ha => lt_of_lt_of_le hgt (peek_le ht a ha)
  · rintro (⟨a, ha, hlt⟩ | hall) t ht
    · exact ne_of_lt (lt_of_le_of_lt (peek_le ht a ha) hlt)
    · exact ne_of_gt (hall t (peek_mem ht))

theorem peek_key_ne_push (hne : ∀ t, peek h = some t → key t ≠ k) (hlt : k < key a) :
    ∀ t, peek (push h a) = some t → key t ≠ k := by
  rw [peek_key_ne_iff, elems_push]
  rcases peek_key_ne_iff.mp hne with ⟨b, hb, hless⟩ | hall
  · exact .inl ⟨b, Multiset.mem_cons_of_mem hb, hless⟩
  refine .inr ?_
  intro b hb
  rcases Multiset.mem_cons.mp hb with rfl | hin
  · exact hlt
  · exact hall b hin

end MinHeap

structure SortedHeap (α : Type) (key : α → Nat) where
  items : List α
  sorted : items.Pairwise fun a b => key a ≤ key b

namespace SortedHeap

variable {α : Type} {key : α → Nat}

instance : Std.Total fun a b : α => key a ≤ key b := ⟨fun a b => Nat.le_total (key a) (key b)⟩

instance : IsTrans α fun a b => key a ≤ key b := ⟨fun _ _ _ => Nat.le_trans⟩

def insert (h : SortedHeap α key) (a : α) : SortedHeap α key :=
  ⟨h.items.orderedInsert (fun a b => key a ≤ key b) a, h.sorted.orderedInsert a h.items⟩

instance : MinHeap (SortedHeap α key) α key where
  empty := ⟨[], List.Pairwise.nil⟩
  push := insert
  peek h := h.items.head?
  pop h := ⟨h.items.tail, h.sorted.tail⟩
  elems h := h.items
  elems_empty := rfl
  elems_push h a := Multiset.coe_eq_coe.mpr (perm_orderedInsert _ a h.items)
  elems_of_peek_none ht := congrArg _ (List.head?_eq_none_iff.mp ht)
  elems_pop := by
    intro h a ht
    obtain ⟨rest, heq⟩ := List.head?_eq_some_iff.mp ht
    simp only [heq, tail_cons, Multiset.cons_coe]
  peek_le := by
    intro h a ht b hb
    obtain ⟨rest, heq⟩ := List.head?_eq_some_iff.mp ht
    have hsorted := h.sorted
    rw [heq] at hsorted
    rw [Multiset.mem_coe, heq] at hb
    rcases mem_cons.mp hb with rfl | hin
    · exact Nat.le_refl _
    · exact rel_of_pairwise_cons hsorted hin

end SortedHeap

end XrayCore.Lib
