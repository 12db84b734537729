import Mathlib.Data.List.Basic

/-!
# Interleavings

Several streams on one line. `Interleaves streams line` says that the line holds the
items of every stream in their order, each tagged with its stream, and nothing else. An
induction over a line takes the items off the fronts of their streams.
-/

namespace XrayCore.Lib

open List

variable {ι α : Type} [DecidableEq ι]

def itemsOf (i : ι) (line : List (ι × α)) : List α :=
  line.filterMap fun item => if item.1 = i then some item.2 else none

def Interleaves (streams : ι → List α) (line : List (ι × α)) : Prop :=
  ∀ i, itemsOf i line = streams i

theorem interleaves_nil {streams : ι → List α} : Interleaves streams [] ↔ ∀ i, streams i = [] :=
  forall_congr' fun _ => eq_comm

theorem interleaves_cons {streams : ι → List α} {i : ι} {a : α} {line : List (ι × α)} :
    Interleaves streams ((i, a) :: line) ↔
      ∃ rest, streams i = a :: rest ∧ Interleaves (Function.update streams i rest) line := by
  constructor
  · intro h
    have hi := h i
    simp only [itemsOf, filterMap_cons, if_true] at hi
    refine ⟨itemsOf i line, hi.symm, fun j => ?_⟩
    by_cases hj : j = i
    · subst hj
      rw [Function.update_self]
    rw [Function.update_of_ne hj]
    have hj' := h j
    simp only [itemsOf, filterMap_cons, if_neg (Ne.symm hj)] at hj'
    exact hj'
  · rintro ⟨rest, hi, h⟩ j
    have hj := h j
    by_cases heq : j = i
    · subst heq
      rw [Function.update_self] at hj
      rw [itemsOf, filterMap_cons, if_pos rfl, hi]
      exact congrArg (a :: ·) hj
    · rw [Function.update_of_ne heq] at hj
      rw [itemsOf, filterMap_cons, if_neg (Ne.symm heq)]
      exact hj

/-- What holds at every place still does when both sides change at one place and it holds
of the changes. -/
theorem forall_update₂ {β γ : Type} {R : ι → β → γ → Prop} {s : ι → β} {t : ι → γ}
    (h : ∀ j, R j (s j) (t j)) {i : ι} {b : β} {c : γ} (hbc : R i b c) (j : ι) :
    R j (Function.update s i b j) (Function.update t i c j) := by
  rcases eq_or_ne j i with rfl | hj
  · simpa using hbc
  · simpa [hj] using h j

end XrayCore.Lib
