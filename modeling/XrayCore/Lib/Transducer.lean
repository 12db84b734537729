import Mathlib.Data.List.Basic

/-!
# Stream transducers

A transducer reads one symbol at a time, changes its state and writes some symbols; once it has
halted, what is left passes through unchanged. A reader that gets the stream in chunks writes the
same however the stream is cut, as long as the chunk in which it halts is the last one.
-/

namespace XrayCore.Lib

open List

/-- Where one list is cut twice, the first cut is before the second one or not. -/
theorem append_eq_append_cases {a b c d : List α} (h : a ++ b = c ++ d) :
    (∃ w, w ≠ [] ∧ c = a ++ w ∧ b = w ++ d) ∨ ∃ w, a = c ++ w ∧ d = w ++ b := by
  rcases append_eq_append_iff.mp h with ⟨w, rfl, rfl⟩ | h
  · cases w with
    | nil => exact .inr ⟨[], by simp⟩
    | cons x w => exact .inl ⟨x :: w, by simp, rfl, rfl⟩
  · exact .inr h

structure Transducer (σ α : Type _) where
  step : σ → α → σ × List α
  halted : σ → Bool

namespace Transducer

variable {σ α : Type _}

def feed (t : Transducer σ α) : σ → List α → σ × List α
  | s, [] => (s, [])
  | s, a :: rest =>
    let r := t.step s a
    if t.halted r.1 then (r.1, r.2 ++ rest)
    else
      let q := feed t r.1 rest
      (q.1, r.2 ++ q.2)

/-- Reading the word leads from one state to the other and writes `out`; only the
last symbol may halt. -/
inductive Reaches (t : Transducer σ α) : σ → List α → σ → List α → Prop
  | last (s a) : Reaches t s [a] (t.step s a).1 (t.step s a).2
  | more : t.halted (t.step s a).1 = false → Reaches t (t.step s a).1 rest s' out →
    Reaches t s (a :: rest) s' ((t.step s a).2 ++ out)

variable {t : Transducer σ α} {s s' : σ} {w out : List α}

theorem Reaches.ne_nil (h : t.Reaches s w s' out) : w ≠ [] := by
  cases h <;> exact cons_ne_nil _ _

theorem Reaches.append (h : t.Reaches s w s' out) (hr : t.halted s' = false)
    (h' : t.Reaches s' w' s'' out') : t.Reaches s (w ++ w') s'' (out ++ out') := by
  induction h with
  | last s a => exact .more hr h'
  | more hs _ ih =>
    rw [append_assoc]
    exact .more hs (ih hr h')

theorem Reaches.feed_append (h : t.Reaches s w s' out) (rest : List α) :
    t.feed s (w ++ rest) = if t.halted s' then (s', out ++ rest)
      else ((t.feed s' rest).1, out ++ (t.feed s' rest).2) := by
  induction h with
  | last s a => rfl
  | @more s a _ s' _ hs _ ih =>
    rw [cons_append, feed, hs, ih]
    cases t.halted s' <;> simp

theorem Reaches.feed_part (h : t.Reaches s (c ++ w) s' out) (hw : w ≠ [])
    (hru : t.halted s = false) : t.halted (t.feed s c).1 = false ∧
      ∃ out', t.Reaches (t.feed s c).1 w s' out' ∧ out = (t.feed s c).2 ++ out' := by
  induction c generalizing s out with
  | nil => exact ⟨hru, out, h, rfl⟩
  | cons a c ih =>
    generalize hwo : a :: c ++ w = word at h
    cases h with
    | last s b =>
      obtain ⟨-, hn⟩ := cons.inj hwo
      exact absurd (append_eq_nil_iff.mp hn).2 hw
    | more hs hrest =>
      obtain ⟨rfl, rfl⟩ := cons.inj hwo
      obtain ⟨hr', out', hr, rfl⟩ := ih hrest hs
      simp only [feed, hs, Bool.false_eq_true, if_false]
      exact ⟨hr', out', hr, by rw [append_assoc]⟩

/-- Behind a proper part of the word, a chunk goes on where it ended. -/
theorem Reaches.feed_part_append (h : t.Reaches s (c ++ w) s' out) (hw : w ≠ [])
    (d : List α) : t.feed s (c ++ d) =
      ((t.feed (t.feed s c).1 d).1, (t.feed s c).2 ++ (t.feed (t.feed s c).1 d).2) := by
  induction c generalizing s out with
  | nil => rfl
  | cons a c ih =>
    generalize hwo : a :: c ++ w = word at h
    cases h with
    | last s b =>
      obtain ⟨-, hn⟩ := cons.inj hwo
      exact absurd (append_eq_nil_iff.mp hn).2 hw
    | more hs hrest =>
      obtain ⟨rfl, rfl⟩ := cons.inj hwo
      simp [feed, hs, ih hrest]

/-- What holds behind every symbol that does not halt, holds behind a chunk. -/
theorem feed_invariant {I : σ → Prop} (hs : ∀ s a, t.halted (t.step s a).1 = false →
    I (t.step s a).1) (hI : I s) (c : List α) (hr : t.halted (t.feed s c).1 = false) :
    I (t.feed s c).1 := by
  induction c generalizing s with
  | nil => exact hI
  | cons a c ih =>
    simp only [feed] at hr ⊢
    split at hr
    · next hh => simp [hh] at hr
    · next hg =>
      rw [if_neg hg]
      exact ih (hs s a (Bool.not_eq_true _ ▸ hg)) hr

def runAll (run : σ → List α → Option (σ × List α)) : σ → List (List α) → Option (σ × List α)
  | s, [] => some (s, [])
  | s, c :: chunks =>
    match run s c with
    | none => none
    | some (s, out) => (runAll run s chunks).map fun r => (r.1, out ++ r.2)

/-- A reader that does what the transducer does, chunk by chunk, reads a word that
ends in the last chunk, and what comes behind it. -/
theorem Reaches.runAll {run : σ → List α → Option (σ × List α)} {I : σ → Prop}
    {init : List (List α)}
    {last rest : List α} (h : t.Reaches s w s' out) (hh : t.halted s' = true) (hI : I s)
    (hI_run : ∀ s, I s → t.halted s = false)
    (hI_step : ∀ s a, t.halted (t.step s a).1 = false → I (t.step s a).1)
    (hru : ∀ s, I s → ∀ c ∈ init ++ [last], run s c = some (t.feed s c))
    (hc : init.flatten ++ last = w ++ rest) (hl : init.flatten.length < w.length) :
    runAll run s (init ++ [last]) = some (s', out ++ rest) := by
  induction init generalizing s w out with
  | nil =>
    obtain rfl : last = w ++ rest := by simpa using hc
    simp [runAll, hru s hI, h.feed_append, hh]
  | cons c init ih =>
    rw [flatten_cons, append_assoc] at hc
    rw [flatten_cons, length_append] at hl
    -- the chunk is a proper part of the word
    rcases append_eq_append_cases hc with ⟨w', hne, rfl, hc'⟩ | ⟨w', rfl, -⟩
    rotate_left
    · rw [length_append] at hl
      omega
    rw [length_append] at hl
    obtain ⟨hr, out', hre, rfl⟩ := h.feed_part hne (hI_run s hI)
    have hrest := ih hre (feed_invariant hI_step hI c hr)
      (fun s hs c' hm => hru s hs c' (mem_cons_of_mem c hm)) hc' (by omega)
    rw [cons_append, runAll, hru s hI c mem_cons_self]
    simp [hrest]

end Transducer

end XrayCore.Lib
