import Mathlib.Algebra.Order.Ring.Nat
import Mathlib.Data.List.Basic

/-!
# Readers that work in stages

A staged reader knows in each stage how many symbols it needs. When they are there it takes them,
goes to another stage, and may emit a message or stop. By `read_append` only the symbols count, not
where the input was cut.
-/

namespace XrayCore.Lib

open List

inductive StageStep (σ μ ε : Type _)
  | next (s : σ)
  | emit (m : μ) (s : σ)
  | stop (e : ε)

structure StagedReader (σ α μ ε : Type _) where
  need : σ → Nat
  need_pos : ∀ s, 0 < need s
  step : σ → List α → StageStep σ μ ε

inductive Reading (σ α ε : Type _)
  | waiting (s : σ) (rest : List α)
  | stopped (e : ε)

inductive Polled (σ α μ ε : Type _)
  | waiting (s : σ) (rest : List α)
  | message (m : μ) (s : σ) (rest : List α)
  | stopped (e : ε)

namespace StagedReader

variable {σ α μ ε : Type _} (r : StagedReader σ α μ ε)

def poll (s : σ) (input : List α) : Polled σ α μ ε :=
  if input.length < r.need s then .waiting s input
  else
    match r.step s (input.take (r.need s)) with
    | .next s' => poll s' (input.drop (r.need s))
    | .emit m s' => .message m s' (input.drop (r.need s))
    | .stop e => .stopped e
termination_by input.length
decreasing_by
  have := r.need_pos s
  rw [length_drop]
  omega

variable {r} {s s' : σ} {input rest w : List α} {m : μ} {e : ε}

theorem poll_of_lt (h : input.length < r.need s) : r.poll s input = .waiting s input := by
  rw [poll, if_pos h]

theorem poll_of_le (h : r.need s ≤ input.length) : r.poll s input =
      match r.step s (input.take (r.need s)) with
      | .next s' => r.poll s' (input.drop (r.need s))
      | .emit m s' => .message m s' (input.drop (r.need s))
      | .stop e => .stopped e := by
  rw [poll, if_neg (not_lt.mpr h)]

variable (r) in
def Gives (s : σ) (input : List α) : Prop := ∃ m s' rest, r.poll s input = .message m s' rest

/-- How a message comes about: a stage emits it, or a later one does. -/
theorem gives_iff : r.Gives s input ↔ r.need s ≤ input.length ∧
        match r.step s (input.take (r.need s)) with
        | .next t => r.Gives t (input.drop (r.need s))
        | .emit _ _ => True
        | .stop _ => False := by
  rw [Gives]
  by_cases hle : r.need s ≤ input.length
  · rw [poll_of_le hle]
    cases hs : r.step s (input.take (r.need s)) with
    | next t => simp [hle, Gives]
    | emit m1 s1 => simp [hle]
    | stop e => simp
  · rw [poll_of_lt (not_le.mp hle)]
    simp [hle]

theorem length_lt_of_waiting (h : r.poll s inp = .waiting s' rest) : rest.length < r.need s' := by
  fun_induction poll r s inp with
  | case1 s inp hlt =>
    cases h
    exact hlt
  | case2 s inp hle s1 hs ih => exact ih h
  | case3 | case4 => cases h

theorem length_lt_of_message (h : r.poll s inp = .message m s' rest) :
    rest.length < inp.length := by
  fun_induction poll r s inp with
  | case1 => cases h
  | case2 s inp hle s1 hs ih =>
    have hlt := ih h
    rw [length_drop] at hlt
    omega
  | case3 s inp hle m1 s1 hs =>
    cases h
    have := r.need_pos s
    rw [length_drop]
    omega
  | case4 => cases h

theorem poll_append (s : σ) (inp more : List α) : r.poll s (inp ++ more) = match r.poll s inp with
      | .waiting s' rest => r.poll s' (rest ++ more)
      | .message m s' rest => .message m s' (rest ++ more)
      | .stopped e => .stopped e := by
  fun_induction poll r s inp with
  | case1 => rfl
  | case2 s inp hle s1 hs ih =>
    rw [not_lt] at hle
    rw [poll_of_le (by rw [length_append]; omega), take_append_of_le_length hle, hs,
      drop_append_of_le_length hle]
    exact ih
  | case3 s inp hle m1 s1 hs =>
    rw [not_lt] at hle
    rw [poll_of_le (by rw [length_append]; omega), take_append_of_le_length hle, hs,
      drop_append_of_le_length hle]
  | case4 s inp hle e hs =>
    rw [not_lt] at hle
    rw [poll_of_le (by rw [length_append]; omega), take_append_of_le_length hle, hs]

variable (r) in
def read (s : σ) (input : List α) : List μ × Reading σ α ε :=
  match _h : r.poll s input with
  | .waiting s' rest => ([], .waiting s' rest)
  | .stopped e => ([], .stopped e)
  | .message m s' rest =>
    let q := read s' rest
    (m :: q.1, q.2)
termination_by input.length
decreasing_by exact length_lt_of_message _h

theorem read_of_waiting (h : r.poll s input = .waiting s' rest) :
    r.read s input = ([], .waiting s' rest) := by
  rw [read]
  split <;> simp_all

theorem read_of_stopped (h : r.poll s input = .stopped e) : r.read s input = ([], .stopped e) := by
  rw [read]
  split <;> simp_all

theorem read_of_message (h : r.poll s input = .message m s' rest) :
    r.read s input = (m :: (r.read s' rest).1, (r.read s' rest).2) := by
  rw [read]
  split <;> simp_all

theorem read_ne_nil_iff : (r.read s input).1 ≠ [] ↔ r.Gives s input := by
  rw [Gives]
  cases hp : r.poll s input with
  | waiting s' rest => simp [read_of_waiting hp]
  | message m s' rest => simp [read_of_message hp]
  | stopped e => simp [read_of_stopped hp]

theorem read_congr (h : r.poll s input = r.poll t input') : r.read s input = r.read t input' := by
  cases hp : r.poll t input' with
  | waiting => rw [read_of_waiting (h.trans hp), read_of_waiting hp]
  | message => rw [read_of_message (h.trans hp), read_of_message hp]
  | stopped => rw [read_of_stopped (h.trans hp), read_of_stopped hp]

/-- Reading goes on where it waited. -/
theorem read_append (s : σ) (inp more : List α) : r.read s (inp ++ more) = match r.read s inp with
      | (ms, .waiting s' rest) => (ms ++ (r.read s' (rest ++ more)).1, (r.read s' (rest ++ more)).2)
      | (ms, .stopped e) => (ms, .stopped e) := by
  -- along the messages of the first piece
  fun_induction read r s inp with
  | case1 s inp s' rest hp =>
    have hl : r.poll s (inp ++ more) = r.poll s' (rest ++ more) := by
      rw [poll_append, hp]
    exact read_congr hl
  | case2 s inp e hp =>
    have hl : r.poll s (inp ++ more) = .stopped e := by
      rw [poll_append, hp]
    rw [read_of_stopped hl]
  | case3 s inp m s' rest hp q ih =>
    have hl : r.poll s (inp ++ more) = .message m s' (rest ++ more) := by
      rw [poll_append, hp]
    rw [read_of_message hl, ih]
    change _ = match (m :: (r.read s' rest).1, (r.read s' rest).2) with
      | (ms, .waiting s' rest) =>
        (ms ++ (r.read s' (rest ++ more)).1, (r.read s' (rest ++ more)).2)
      | (ms, .stopped e) => (ms, .stopped e)
    split <;> simp_all

variable (r) in
inductive Emits : σ → List α → List μ → σ → Prop
  | nil (s : σ) : Emits s [] [] s
  | next {s s' s'' : σ} {w w' : List α} {ms : List μ} : w.length = r.need s →
    r.step s w = .next s' → Emits s' w' ms s'' → Emits s (w ++ w') ms s''
  | emit {s s' s'' : σ} {w w' : List α} {m : μ} {ms : List μ} : w.length = r.need s →
    r.step s w = .emit m s' → Emits s' w' ms s'' → Emits s (w ++ w') (m :: ms) s''

theorem poll_append_of_next (hl : w.length = r.need s)
    (hs : r.step s w = .next s') : r.poll s (w ++ w') = r.poll s' w' := by
  rw [poll_of_le (by rw [length_append]; omega), ← hl, take_left, drop_left, hs]

theorem poll_append_of_emit (hl : w.length = r.need s)
    (hs : r.step s w = .emit m s') : r.poll s (w ++ w') = .message m s' w' := by
  rw [poll_of_le (by rw [length_append]; omega), ← hl, take_left, drop_left, hs]

theorem Emits.read (h : r.Emits s w ms s') : r.read s w = (ms, .waiting s' []) := by
  induction h with
  | nil s => exact read_of_waiting (poll_of_lt (r.need_pos s))
  | next hl hs _ ih => rw [read_congr (poll_append_of_next hl hs), ih]
  | emit hl hs _ ih => rw [read_of_message (poll_append_of_emit hl hs), ih]

/-- On the way through such a word the reader waits, and has emitted the first of the
messages. -/
theorem Emits.read_part (h : r.Emits s (part ++ more) ms s') :
    ∃ ms1 ms2 t rest, r.read s part = (ms1, .waiting t rest) ∧ ms = ms1 ++ ms2 := by
  have hall := h.read
  rw [read_append] at hall
  split at hall
  · next ms1 t rest hr =>
    obtain ⟨hms, -⟩ := Prod.mk.inj hall
    exact ⟨ms1, _, t, rest, hr, hms.symm⟩
  · next hr =>
    obtain ⟨-, hstop⟩ := Prod.mk.inj hall
    cases hstop

end StagedReader

end XrayCore.Lib
