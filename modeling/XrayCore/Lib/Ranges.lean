import Mathlib.Order.Lattice
import Mathlib.Data.List.Basic

/-!
# Ascending ranges and search by partition point

Inclusive ranges over a linear order, in a list that runs upwards with gaps, are
searched by bisection: the partition point of the ranges that end before a value
is the only range that can hold it.
-/

namespace XrayCore.Lib

open List

variable {α : Type _}

/-- Halve `size` places from `base` until one is left, keeping `base` at a place
where `p` holds or at the start. -/
def bisect (p : Nat → Bool) : Nat → Nat → Nat → Nat
  | 0, _, base => base
  | fuel + 1, size, base =>
    if size > 1 then
      let half := size / 2
      let mid := base + half
      bisect p fuel (size - half) (if p mid then mid else base)
    else base

/-- `slice::partition_point` by bisection: the number of leading elements with `p`, if no element
with `p` follows one without. -/
def partitionPoint (p : α → Bool) (xs : List α) : Nat :=
  if xs.length = 0 then 0
  else
    let holds := fun i => xs[i]?.any p
    let base := bisect holds xs.length xs.length 0
    if holds base then base + 1 else base

def Partitioned (p : α → Bool) (xs : List α) : Prop := xs.Pairwise fun a b => p b → p a

/-- The place found is next to the border `k`. -/
theorem bisect_border {p : Nat → Bool} {k n fuel size base : Nat}
    (hp : ∀ i < n, p i = decide (i < k)) (hf : size ≤ fuel + 1) (hsize : 0 < size)
    (hn : base + size ≤ n) (hk : k ≤ base + size) (hb : base = 0 ∨ base < k) :
    (if p (bisect p fuel size base) then bisect p fuel size base + 1
      else bisect p fuel size base) = k := by
  induction fuel generalizing size base with
  | zero =>
    simp only [bisect, hp base (by omega)]
    split <;> simp_all <;> omega
  | succ fuel ih =>
    by_cases ho : size > 1
    · simp only [bisect, if_pos ho, hp (base + size / 2) (by omega)]
      by_cases hm : base + size / 2 < k
      · simp only [hm, decide_true, if_true]
        exact ih (by omega) (by omega) (by omega) (by omega) (.inr hm)
      · simp only [hm, decide_false, Bool.false_eq_true, if_false]
        exact ih (by omega) (by omega) (by omega) (by omega) hb
    · simp only [bisect, if_neg ho, hp base (by omega)]
      split <;> simp_all <;> omega

theorem Partitioned.any_getElem? (h : Partitioned p xs) {i : Nat}
    (hi : i < xs.length) : xs[i]?.any p = decide (i < (xs.takeWhile p).length) := by
  induction xs generalizing i with
  | nil => simp at hi
  | cons x xs ih =>
    obtain ⟨hh, ht⟩ := pairwise_cons.mp h
    by_cases hx : p x
    · cases i with
      | zero => simp [hx]
      | succ i => simpa [hx] using ih ht (by simpa using hi)
    cases i with
    | zero => simp [hx]
    | succ i =>
      -- an element with `p` after this one would put `p` here too
      have hn : ∀ y ∈ xs, p y = false := fun y hy => by
        simpa [hx] using hh y hy
      have hi' : i < xs.length := by simpa using hi
      simp [hx, hi', hn xs[i] (getElem_mem hi')]

theorem partitionPoint_eq (h : Partitioned p xs) :
    partitionPoint p xs = (xs.takeWhile p).length := by
  unfold partitionPoint
  split
  case isTrue he => simp [length_eq_zero_iff.mp he]
  case isFalse hne =>
    have hle : (xs.takeWhile p).length ≤ xs.length := List.Sublist.length_le (takeWhile_sublist p)
    exact bisect_border (fun i hi => h.any_getElem? hi) (by omega) (by omega) (by omega) (by omega)
      (.inl rfl)

variable [LinearOrder α]

def InRange (r : α × α) (v : α) : Prop := r.1 ≤ v ∧ v ≤ r.2

def Covers (ranges : List (α × α)) (v : α) : Prop := ∃ r ∈ ranges, InRange r v

structure Ascending (ranges : List (α × α)) : Prop where
  apart : ranges.Pairwise fun r r' => r.2 < r'.1
  nonempty : ∀ r ∈ ranges, r.1 ≤ r.2

@[simp] theorem not_covers_nil (v : α) : ¬Covers [] v := by simp [Covers]

variable {ranges : List (α × α)}

@[simp] theorem covers_cons : Covers (r :: ranges) v ↔ InRange r v ∨ Covers ranges v := by
  simp [Covers]

@[simp] theorem covers_append {first second : List (α × α)} {v : α} :
    Covers (first ++ second) v ↔ Covers first v ∨ Covers second v := by
  simp [Covers, or_and_right, exists_or]

theorem covers_congr {first second : List (α × α)} (h : first.Perm second) {v : α} :
    Covers first v ↔ Covers second v := by
  simp [Covers, h.mem_iff]

theorem Ascending.tail (h : Ascending (r :: ranges)) : Ascending ranges :=
  ⟨(pairwise_cons.mp h.apart).2, fun r' hr' => h.nonempty r' (mem_cons_of_mem r hr')⟩

theorem Ascending.partitioned (h : Ascending ranges) (v : α) :
    Partitioned (fun r => decide (r.2 < v)) ranges := by
  refine h.apart.imp_of_mem fun {r r'} _ hr' hlt he => ?_
  simp only [decide_eq_true_eq] at he ⊢
  exact (hlt.trans_le (h.nonempty r' hr')).trans he

/-- The range at the partition point of those that end before the value, if it
starts by then. -/
def rangesContain (ranges : List (α × α)) (v : α) : Bool :=
  ranges[partitionPoint (fun r => decide (r.2 < v)) ranges]?.any fun r => decide (r.1 ≤ v)

theorem rangesContain_iff (h : Ascending ranges) (v : α) :
    rangesContain ranges v = true ↔ Covers ranges v := by
  rw [rangesContain, partitionPoint_eq (h.partitioned v)]
  induction ranges with
  | nil => simp
  | cons r ranges ih =>
    by_cases he : r.2 < v
    · have ho : ¬InRange r v := fun hin => hin.2.not_gt he
      simpa [he, ho] using ih h.tail
    have hl : ¬Covers ranges v := by
      rintro ⟨r', hr', hin⟩
      exact he (((pairwise_cons.mp h.apart).1 r' hr').trans_le hin.1)
    simp only [he, decide_false, takeWhile_cons, Bool.false_eq_true, if_false,
      length_nil, List.getElem?_cons_zero, Option.any_some, decide_eq_true_eq, covers_cons]
    exact ⟨fun hs => .inl ⟨hs, not_lt.mp he⟩, fun hc =>
      (hc.resolve_right hl).1⟩

end XrayCore.Lib
