import Mathlib.Algebra.Order.Ring.Nat
import Mathlib.Data.List.Basic

/-!
# Cutting a list into chunks

`chunks n l` cuts `l` into pieces of `n` elements, the last one possibly shorter; `piece n l i` is
the one with number `i`.
-/

namespace XrayCore.Lib

open List

variable {α : Type _}

def chunks (n : Nat) (l : List α) : List (List α) :=
  if l.length = 0 ∨ n = 0 then [] else l.take n :: chunks n (l.drop n)
termination_by l.length
decreasing_by
  rename_i h
  rw [length_drop]
  omega

@[simp] theorem chunks_nil (n : Nat) : chunks n ([] : List α) = [] := by
  simp [chunks]

variable {n : Nat}

theorem chunks_of_ne_nil (hn : 0 < n) (hl : l ≠ []) :
    chunks n l = l.take n :: chunks n (l.drop n) := by
  have hle := length_pos_of_ne_nil hl
  rw [chunks, if_neg (by omega)]

theorem flatten_chunks (hn : 0 < n) (l : List α) : (chunks n l).flatten = l := by
  fun_induction chunks n l with
  | case1 l h =>
    have hl : l.length = 0 := by omega
    rw [eq_nil_of_length_eq_zero hl, flatten_nil]
  | case2 l h ih => rw [flatten_cons, ih, take_append_drop]

theorem mem_chunks (h : c ∈ chunks n l) : c ≠ [] ∧ c.length ≤ n := by
  fun_induction chunks n l with
  | case1 l _ => cases h
  | case2 l hl ih =>
    obtain rfl | h := mem_cons.mp h
    · refine ⟨?_, length_take_le ..⟩
      intro ht
      obtain hn | hl' := take_eq_nil_iff.mp ht
      · omega
      · exact hl (.inl (by rw [hl', length_nil]))
    · exact ih h

theorem length_chunks (hn : 0 < n) (l : List α) : (chunks n l).length = (l.length + n - 1) / n := by
  fun_induction chunks n l with
  | case1 l h =>
    have hl : l.length = 0 := by omega
    rw [hl, length_nil, eq_comm, Nat.div_eq_of_lt]
    omega
  | case2 l h ih =>
    rw [length_cons, ih, length_drop]
    rcases lt_or_ge l.length n with hlt | hle
    · have hz : (l.length - n + n - 1) / n = 0 := Nat.div_eq_of_lt (by omega)
      have ho : (l.length + n - 1) / n = 1 := Nat.div_eq_of_lt_le (by omega) (by omega)
      rw [hz, ho]
    · rw [show l.length + n - 1 = l.length - n + n - 1 + n by omega, Nat.add_div_right _ hn]

def piece (n : Nat) (l : List α) (i : Nat) : List α := (l.drop (i * n)).take n

theorem flatten_piece (n : Nat) (l : List α) (k : Nat) :
    ((List.range k).map (piece n l)).flatten = l.take (k * n) := by
  induction k with
  | zero => simp
  | succ k ih =>
    rw [range_succ, map_append, flatten_append, ih, Nat.succ_mul, take_add]
    simp [piece]

theorem take_min_length (l : List α) (n : Nat) : l.take (min l.length n) = l.take n := by
  rw [min_comm, ← take_take, take_length]

theorem drop_min_length (l : List α) (n : Nat) : l.drop (min l.length n) = l.drop n := by
  rcases le_total l.length n with hle | hle
  · rw [min_eq_left hle, drop_length, drop_eq_nil_of_le hle]
  · rw [min_eq_right hle]

end XrayCore.Lib
