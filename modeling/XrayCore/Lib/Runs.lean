import Mathlib.Data.List.Basic

/-!
# Runs of a step function

A sequential component is a state with a total step function; a run is the left fold of the step
over a list of operations. `Guarded` says that every operation of a run meets a condition in the
state it is taken in, `Throughout` that a property holds in every state of the run.
-/

namespace XrayCore.Lib

variable {σ α : Type _} {step : σ → α → σ} {ok : σ → α → Prop} {P : σ → Prop}

def runs (step : σ → α → σ) (s : σ) (ops : List α) : σ := ops.foldl step s

@[simp] theorem runs_nil (s : σ) : runs step s [] = s := rfl

@[simp] theorem runs_cons (s : σ) (a : α) (ops : List α) :
    runs step s (a :: ops) = runs step (step s a) ops := rfl

theorem runs_append (s : σ) (first second : List α) :
    runs step s (first ++ second) = runs step (runs step s first) second :=
  List.foldl_append

theorem runs_concat (s : σ) (ops : List α) (a : α) :
    runs step s (ops ++ [a]) = step (runs step s ops) a := by
  simp [runs_append]

/-- What every step preserves holds at the end of every run. -/
theorem runs_invariant (h : P s) (hs : ∀ s a, P s → P (step s a)) (ops : List α) :
    P (runs step s ops) := by
  induction ops generalizing s with
  | nil => exact h
  | cons a ops ih => exact ih (hs s a h)

/-- Every operation of the run meets `ok` in the state it is taken in. -/
def Guarded (step : σ → α → σ) (ok : σ → α → Prop) : σ → List α → Prop
  | _, [] => True
  | s, a :: ops => ok s a ∧ Guarded step ok (step s a) ops

/-- `P` holds at the start, at the end and between any two operations. -/
def Throughout (step : σ → α → σ) (P : σ → Prop) : σ → List α → Prop
  | s, [] => P s
  | s, a :: ops => P s ∧ Throughout step P (step s a) ops

instance [∀ s, Decidable (P s)] : ∀ (s : σ) (ops : List α), Decidable (Throughout step P s ops)
  | s, [] => inferInstanceAs (Decidable (P s))
  | s, a :: ops =>
    have := instDecidableThroughout (step s a) ops
    inferInstanceAs (Decidable (P s ∧ Throughout step P (step s a) ops))

instance [∀ s a, Decidable (ok s a)] : ∀ (s : σ) (ops : List α), Decidable (Guarded step ok s ops)
  | _, [] => inferInstanceAs (Decidable True)
  | s, a :: ops =>
    have := instDecidableGuarded (step s a) ops
    inferInstanceAs (Decidable (ok s a ∧ Guarded step ok (step s a) ops))

theorem Throughout.start (h : Throughout step P s ops) : P s := by
  cases ops with
  | nil => exact h
  | cons a ops => exact h.1

theorem Throughout.mono (h : Throughout step P s ops) (hle : ∀ s, P s → Q s) :
    Throughout step Q s ops := by
  induction ops generalizing s with
  | nil => exact hle s h
  | cons a ops ih => exact ⟨hle s h.1, ih h.2⟩

/-- A property that every guarded step preserves holds all along a guarded
run. -/
theorem Guarded.throughout (hg : Guarded step ok s ops) (h : P s)
    (hs : ∀ s a, P s → ok s a → P (step s a)) : Throughout step P s ops := by
  induction ops generalizing s with
  | nil => exact h
  | cons a ops ih => exact ⟨h, ih hg.2 (hs s a h hg.1)⟩

/-- Where a step keeps the property exactly when it meets the condition, the runs
that have the property all along are the guarded ones. `R` may speak of the
operations to come. -/
theorem throughout_iff_guarded {R : σ → List α → Prop} (hR : R s ops) (h : P s)
    (hn : ∀ s a ops, R s (a :: ops) → R (step s a) ops)
    (hs : ∀ s a ops, R s (a :: ops) → P s → (P (step s a) ↔ ok s a)) :
    Throughout step P s ops ↔ Guarded step ok s ops := by
  induction ops generalizing s with
  | nil => exact ⟨fun _ => trivial, fun _ => h⟩
  | cons a ops ih =>
    have hi := hs s a ops hR h
    have hR' := hn s a ops hR
    constructor
    · rintro ⟨-, hrest⟩
      exact ⟨hi.mp hrest.start, (ih hR' hrest.start).mp hrest⟩
    · rintro ⟨hok, hrest⟩
      exact ⟨h, (ih hR' (hi.mpr hok)).mpr hrest⟩

/-- Two conditions that agree wherever an invariant holds guard the same runs. -/
theorem guarded_congr (h : P s) (hs : ∀ s a, P s → P (step s a))
    (hi : ∀ s a, P s → (ok s a ↔ ok' s a)) : Guarded step ok s ops ↔ Guarded step ok' s ops := by
  induction ops generalizing s with
  | nil => exact Iff.rfl
  | cons a ops ih => exact and_congr (hi s a h) (ih (hs s a h))

end XrayCore.Lib
