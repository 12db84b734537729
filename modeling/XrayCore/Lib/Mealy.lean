import Mathlib.Data.List.Basic

/-!
# Machines with one output a symbol

What comes out of a word cut in pieces is what comes out of the word. A machine that undoes another
one symbol by symbol undoes it on every word.
-/

namespace XrayCore.Lib

variable {σ τ α β : Type _}

def mealy (step : σ → α → σ × β) : σ → List α → σ × List β
  | s, [] => (s, [])
  | s, a :: word =>
    let r := step s a
    let q := mealy step r.1 word
    (q.1, r.2 :: q.2)

variable {step : σ → α → σ × β} {s : σ}

theorem mealy_append (a b : List α) : mealy step s (a ++ b) = ((mealy step (mealy step s a).1 b).1,
      (mealy step s a).2 ++ (mealy step (mealy step s a).1 b).2) := by
  induction a generalizing s with
  | nil => rfl
  | cons x a ih => simp [mealy, ih]

@[simp] theorem length_mealy (word : List α) : (mealy step s word).2.length = word.length := by
  induction word generalizing s with
  | nil => rfl
  | cons x word ih => simp [mealy, ih]

theorem mealy_take (word : List α) (n : Nat) :
    (mealy step s word).2.take n = (mealy step s (word.take n)).2 := by
  induction word generalizing s n with
  | nil => simp [mealy]
  | cons x word ih => cases n <;> simp [mealy, ih]

theorem mealy_inverse {inv : τ → β → τ × α} {R : σ → τ → Prop}
    (h : ∀ s t a, R s t → (inv t (step s a).2).2 = a ∧ R (step s a).1 (inv t (step s a).2).1)
    {t : τ} (hR : R s t) (word : List α) : (mealy inv t (mealy step s word).2).2 = word := by
  induction word generalizing s t with
  | nil => rfl
  | cons a word ih =>
    obtain ⟨ho, hn⟩ := h s t a hR
    simp [mealy, ho, ih hn]

end XrayCore.Lib
