import Mathlib.Algebra.Order.BigOperators.Group.List
import Mathlib.Algebra.Order.Ring.Nat
import Mathlib.Data.List.ReduceOption

/-!
# Slots

The parts of a whole come in any order, each into the slot of its number. `slotsOf` are the
slots once the parts of certain numbers have come in; they are full when every number has.
-/

namespace XrayCore.Lib

open List

variable {α : Type _} {n i : Nat} {part : Nat → α} {seen : List Nat}

def filled (slots : List (Option α)) : Nat := slots.countP Option.isSome

theorem filled_le_length (slots : List (Option α)) : filled slots ≤ slots.length := countP_le_length

theorem filled_replicate_none (n : Nat) : filled (replicate n (none : Option α)) = 0 := by
  simp [filled, countP_replicate]

variable {slots : List (Option α)}

theorem filled_set (h : slots[i]? = some none) (a : α) :
    filled (slots.set i (some a)) = filled slots + 1 := by
  obtain ⟨hlt, hi⟩ := List.getElem?_eq_some_iff.mp h
  rw [filled, countP_set hlt, hi]
  simp [filled]

theorem filled_eq_length_iff :
    filled slots = slots.length ↔ ∃ parts : List α, slots = parts.map some := by
  rw [filled, countP_eq_length]
  constructor
  · intro h
    refine ⟨slots.reduceOption, ?_⟩
    rw [reduceOption, map_filterMap_some_eq_filter_map_isSome, map_id, eq_comm, filter_eq_self]
    exact h
  · rintro ⟨parts, rfl⟩ o ho
    obtain ⟨a, -, rfl⟩ := mem_map.mp ho
    rfl

@[simp] theorem reduceOption_map_some (parts : List α) : (parts.map some).reduceOption = parts := by
  induction parts with
  | nil => rfl
  | cons a parts ih => rw [map_cons, reduceOption_cons_of_some, ih]

def slotSum (f : α → Nat) (slots : List (Option α)) : Nat :=
  (slots.map fun slot => slot.elim 0 f).sum

theorem slotSum_replicate_none (f : α → Nat) (n : Nat) : slotSum f (replicate n none) = 0 := by
  simp [slotSum]

theorem slotSum_set (f : α → Nat) (h : slots[i]? = some none) (a : α) :
    slotSum f (slots.set i (some a)) = slotSum f slots + f a := by
  induction slots generalizing i with
  | nil => simp at h
  | cons slot slots ih =>
    cases i with
    | zero =>
      obtain rfl : slot = none := by simpa using h
      simp [slotSum, add_comm]
    | succ i =>
      have hs := ih (by simpa using h)
      simp only [slotSum, set_cons_succ, map_cons, sum_cons] at hs ⊢
      omega

def slotsOf (n : Nat) (part : Nat → α) (seen : List Nat) : List (Option α) :=
  (range n).map fun i => if i ∈ seen then some (part i) else none

@[simp] theorem length_slotsOf : (slotsOf n part seen).length = n := by simp [slotsOf]

theorem slotsOf_nil : slotsOf n part [] = replicate n none := by
  simp [slotsOf]

theorem getElem?_slotsOf (h : i < n) :
    (slotsOf n part seen)[i]? = some (if i ∈ seen then some (part i) else none) := by
  simp [slotsOf, h]

theorem slotsOf_cons_of_mem (h : i ∈ seen) : slotsOf n part (i :: seen) = slotsOf n part seen := by
  refine map_congr_left fun j _ => ?_
  by_cases hj : j = i
  · simp [hj, h]
  · simp [hj]

theorem set_slotsOf : (slotsOf n part seen).set i (some (part i)) = slotsOf n part (i :: seen) := by
  refine ext_getElem? fun j => ?_
  by_cases hj : j < n
  · rcases eq_or_ne i j with rfl | hne
    · rw [List.getElem?_set_self (by simpa using hj), getElem?_slotsOf hj]
      simp
    · rw [List.getElem?_set_ne hne, getElem?_slotsOf hj, getElem?_slotsOf hj]
      simp [hne.symm]
  · rw [List.getElem?_eq_none (by simpa using hj), List.getElem?_eq_none (by simpa using hj)]

theorem filled_slotsOf_eq_iff : filled (slotsOf n part seen) = n ↔ ∀ i < n, i ∈ seen := by
  have h := countP_eq_length (p := Option.isSome) (l := slotsOf n part seen)
  rw [length_slotsOf] at h
  rw [filled, h]
  simp [slotsOf]

theorem slotSum_slotsOf_le (f : α → Nat) (n : Nat) (part : Nat → α) (seen : List Nat) :
    slotSum f (slotsOf n part seen) ≤ ((range n).map fun i => f (part i)).sum := by
  rw [slotSum, slotsOf, map_map]
  refine sum_le_sum fun i _ => ?_
  simp only [Function.comp_apply]
  split
  · exact le_refl _
  · exact Nat.zero_le _

theorem slotsOf_full (h : ∀ i < n, i ∈ seen) :
    slotsOf n part seen = ((range n).map part).map some := by
  rw [map_map]
  refine map_congr_left fun i hi => ?_
  simp [h i (mem_range.mp hi)]

/-- `saturating_add(1)` of a `u8`. -/
def satSucc (x : UInt8) : UInt8 := if x = 255 then 255 else x + 1

theorem satSucc_ofNat (h : k < 255) : satSucc (UInt8.ofNat k) = UInt8.ofNat (k + 1) := by
  have hne : UInt8.ofNat k ≠ 255 := by
    intro heq
    have hk : (UInt8.ofNat k).toNat = 255 := by rw [heq]; rfl
    rw [UInt8.toNat_ofNat'] at hk
    omega
  rw [satSucc, if_neg hne, UInt8.ofNat_add]
  rfl

theorem ofNat_filled_eq_iff (h : n ≤ 255) :
    UInt8.ofNat (filled (slotsOf n part seen)) = UInt8.ofNat n ↔ ∀ i < n, i ∈ seen := by
  have hl := filled_le_length (slotsOf n part seen)
  rw [length_slotsOf] at hl
  have hf : filled (slotsOf n part seen) = n ↔ ∀ i < n, i ∈ seen := filled_slotsOf_eq_iff
  rw [← hf, ← UInt8.toNat_inj, UInt8.toNat_ofNat', UInt8.toNat_ofNat',
    Nat.mod_eq_of_lt (by omega), Nat.mod_eq_of_lt (by omega)]

/-- After the numbers in `seen`, further ones below `n` come in any order and any number of times,
until the last one that was missing. -/
inductive Completing (n : Nat) : List Nat → List Nat → Prop
  | last {seen : List Nat} {i : Nat} (hi : i < n) (hall : ∀ j < n, j ∈ i :: seen) :
    Completing n seen [i]
  | more {seen arrivals : List Nat} {i : Nat} (hi : i < n) (hmiss : ¬∀ j < n, j ∈ i :: seen)
    (hrest : Completing n (i :: seen) arrivals) : Completing n seen (i :: arrivals)

theorem completing_of_prefixes (hlt : ∀ i ∈ arrivals, i < n)
    (hall : ∀ j < n, j ∈ arrivals ++ seen) (hmiss : ¬∀ j < n, j ∈ seen)
    (hl : ∀ pre, pre <+: arrivals → pre ≠ arrivals → ¬∀ j < n, j ∈ pre ++ seen) :
    Completing n seen arrivals := by
  induction arrivals generalizing seen with
  | nil => exact absurd hall hmiss
  | cons i arrivals ih =>
    have hi := hlt i mem_cons_self
    by_cases hd : ∀ j < n, j ∈ i :: seen
    · have hn : arrivals = [] := by
        by_contra hne
        refine hl [i] ⟨arrivals, rfl⟩ (by simpa using Ne.symm hne) ?_
        simpa using hd
      subst hn
      exact .last hi hd
    · refine .more hi hd (ih (forall_mem_cons.mp hlt).2
        (fun j hj => by simpa [or_left_comm] using hall j hj) hd ?_)
      rintro pre ⟨rest, rfl⟩ hne hin
      refine hl (i :: pre) ⟨rest, rfl⟩ (by simpa using hne) fun j hj => ?_
      simpa [or_left_comm] using hin j hj

theorem completing_range (hp : 0 < n) : Completing n [] (range n) := by
  refine completing_of_prefixes (fun i hi => mem_range.mp hi) (fun j hj => by simpa using hj)
    (fun hn => by simpa using hn 0 hp) ?_
  intro pre hpr hne hin
  have hs : range n ⊆ pre := fun j hj => by simpa using hin j (mem_range.mp hj)
  have hl := List.Nodup.length_le_of_subset nodup_range hs
  exact hne (hpr.eq_of_length_le hl)

/-- The parts arrive in any order and any number of times, until the last one that was
missing. -/
structure Completes (parts arrivals : List α) : Prop where
  of_parts : ∀ x ∈ arrivals, x ∈ parts
  all : ∀ p ∈ parts, p ∈ arrivals
  last : ∀ pre, pre <+: arrivals → pre ≠ arrivals → ∃ p ∈ parts, p ∉ pre

/-- Parts that carry their number arrive as their numbers do. -/
theorem Completes.completing (h : Completes ((range n).map part) arrivals)
    (hpo : 0 < n) (number : α → Nat) (hn : ∀ i < n, number (part i) = i) :
    Completing n [] (arrivals.map number) ∧ (arrivals.map number).map part = arrivals := by
  have hpa (x : α) (hx : x ∈ (range n).map part) : number x < n ∧ part (number x) = x := by
    obtain ⟨i, hi, rfl⟩ := mem_map.mp hx
    rw [hn i (mem_range.mp hi)]
    exact ⟨mem_range.mp hi, rfl⟩
  have hm (j : Nat) (hj : j < n) : part j ∈ (range n).map part := mem_map_of_mem (mem_range.mpr hj)
  refine ⟨completing_of_prefixes ?_ ?_ (fun hni => by simpa using hni 0 hpo) ?_, ?_⟩
  · intro i hi
    obtain ⟨x, hx, rfl⟩ := mem_map.mp hi
    exact (hpa x (h.of_parts x hx)).1
  · intro j hj
    rw [append_nil]
    exact mem_map.mpr ⟨part j, h.all _ (hm j hj), hn j hj⟩
  · intro pre hpe hne hin
    have ht : pre = (arrivals.take pre.length).map number := by
      rw [map_take]
      exact prefix_iff_eq_take.mp hpe
    have hpr : arrivals.take pre.length ≠ arrivals := by
      intro heq
      rw [heq] at ht
      exact hne ht
    obtain ⟨p, hp, hno⟩ := h.last _ ( take_prefix pre.length arrivals) hpr
    obtain ⟨hlt, hpq⟩ := hpa p hp
    have hji := hin _ hlt
    rw [append_nil, ht] at hji
    obtain ⟨x, hx, hxn⟩ := mem_map.mp hji
    have hxp := (hpa x (h.of_parts x (mem_of_mem_take hx))).2
    rw [hxn, hpq] at hxp
    exact hno (hxp ▸ hx)
  · rw [map_map]
    refine (map_congr_left fun x hx => ?_).trans (map_id arrivals)
    exact (hpa x (h.of_parts x hx)).2

end XrayCore.Lib
