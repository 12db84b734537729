import Mathlib.Data.List.Basic

/-!
# Traces

A component whose operations may fail and log events, and a labelled transition system whose
paths are lists of labels. A component refines the system when every operation is a path of its
events between the abstractions of its states.
-/

namespace XrayCore.Lib

open List

variable {σ τ α ε : Type _}

def logged (op : σ → α → Option (σ × List ε)) : σ → List α → Option (σ × List ε)
  | s, [] => some (s, [])
  | s, a :: ops =>
    (op s a).bind fun r => (logged op r.1 ops).map fun r' => (r'.1, r.2 ++ r'.2)

variable {op : σ → α → Option (σ × List ε)} {s : σ} {ops : List α} {log : List ε}

theorem logged_cons_some (h : logged op s (a :: ops) = some (s'', log)) :
    ∃ s' first rest, op s a = some (s', first) ∧ logged op s' ops = some (s'', rest) ∧
      log = first ++ rest := by
  obtain ⟨⟨s', first⟩, hop, hrest⟩ := Option.bind_eq_some_iff.mp h
  obtain ⟨⟨last, rest⟩, hl, heq⟩ := Option.map_eq_some_iff.mp hrest
  cases heq
  exact ⟨s', first, rest, hop, hl, rfl⟩

/-- What every operation keeps, of the state and of all that was logged, holds after a run. -/
theorem logged_invariant {I : σ → List ε → Prop}
    (hop : ∀ s a s' log before, I s before → op s a = some (s', log) → I s' (before ++ log))
    {s' : σ} {before : List ε} (h : I s before)
    (hr : logged op s ops = some (s', log)) : I s' (before ++ log) := by
  induction ops generalizing s before log with
  | nil =>
    cases hr
    rwa [append_nil]
  | cons a ops ih =>
    obtain ⟨mid, first, rest, hf, hrest, rfl⟩ := logged_cons_some hr
    rw [← append_assoc]
    exact ih (hop s a mid first before h hf) hrest

/-- A component that is to log `rest`, with a bound on the operations that takes: operations log the
next of it, and all of it when there are enough of them. -/
theorem logged_rest {ok : α → Prop} {Expects : σ → List ε → Prop} {ahead : σ → List ε → Nat}
    (hop : ∀ s a rest, ok a → Expects s rest → ∃ s' out rest', op s a = some (s', out) ∧
      rest = out ++ rest' ∧ Expects s' rest' ∧ ahead s' rest' ≤ ahead s rest - 1)
    {rest : List ε} (hok : ∀ a ∈ ops, ok a) (h : Expects s rest) :
    ∃ s' out rest', logged op s ops = some (s', out) ∧ rest = out ++ rest' ∧ Expects s' rest' ∧
      ahead s' rest' ≤ ahead s rest - ops.length := by
  induction ops generalizing s rest with
  | nil => exact ⟨s, [], rest, rfl, rfl, h, Nat.le_refl _⟩
  | cons a ops ih =>
    obtain ⟨hf, hrest⟩ := forall_mem_cons.mp hok
    obtain ⟨mid, out, rest', hm, rfl, he, hless⟩ := hop s a rest hf h
    obtain ⟨s', out', rest'', hl, rfl, he', hless'⟩ := ih hrest he
    refine ⟨s', out ++ out', rest'', ?_, by rw [append_assoc], he', ?_⟩
    · simp [logged, hm, hl]
    · rw [length_cons]
      omega

inductive Path (step : τ → ε → τ → Prop) : τ → List ε → τ → Prop
  | nil (t : τ) : Path step t [] t
  | cons {t t' t'' : τ} {e : ε} {log : List ε} :
    step t e t' → Path step t' log t'' → Path step t (e :: log) t''

namespace Path

variable {step : τ → ε → τ → Prop} {t t' t'' : τ} {log log' : List ε} {e : ε}

theorem single (h : step t e t') : Path step t [e] t' := .cons h (.nil t')

theorem append (h : Path step t log t') (h' : Path step t' log' t'') :
    Path step t (log ++ log') t'' := by
  induction h with
  | nil => exact h'
  | cons hs _ ih => exact .cons hs (ih h')

theorem at_label (h : Path step t (log ++ e :: log') t'') :
    ∃ s s', Path step t log s ∧ step s e s' := by
  induction log generalizing t with
  | nil =>
    cases h with
    | cons hs _ => exact ⟨t, _, .nil t, hs⟩
  | cons first log ih =>
    cases h with
    | cons hs hrest =>
      obtain ⟨s, s', hp, hl⟩ := ih hrest
      exact ⟨s, s', .cons hs hp, hl⟩

theorem invariant {I : τ → List ε → Prop}
    (hs : ∀ t e t' before, I t before → step t e t' → I t' (before ++ [e])) {before : List ε}
    (h : I t before) (hp : Path step t log t') : I t' (before ++ log) := by
  induction hp generalizing before with
  | nil => rwa [append_nil]
  | cons hf _ ih =>
    rw [append_cons]
    exact ih (hs _ _ _ before h hf)

end Path

theorem path_of_logged {step : τ → ε → τ → Prop} {I : σ → Prop} {abs : σ → τ}
    (hop : ∀ s a s' log, I s → op s a = some (s', log) → I s' ∧ Path step (abs s) log (abs s'))
    {s' : σ} (h : I s) (hr : logged op s ops = some (s', log)) :
    Path step (abs s) log (abs s') := by
  induction ops generalizing s log with
  | nil =>
    cases hr
    exact .nil _
  | cons a ops ih =>
    obtain ⟨mid, first, rest, hf, hrest, rfl⟩ := logged_cons_some hr
    obtain ⟨hm, hp⟩ := hop s a mid first h hf
    exact hp.append (ih hm hrest)

end XrayCore.Lib
