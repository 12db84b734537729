import Mathlib.Data.List.Basic

/-!
# Items at a position of a list

`Placed w p x` says that the items `x` stand in `w` from position `p` on. What stands in a list
still does when the list grows at its end, so a writer can say where it put things and a reader
of the finished list finds them there.
-/

namespace XrayCore.Lib

open List

variable {α : Type _} {w x y : List α} {p : Nat}

def Placed (w : List α) (p : Nat) (x : List α) : Prop := x <+: w.drop p

theorem Placed.end (w x : List α) : Placed (w ++ x) w.length x :=
  ⟨[], by rw [append_nil, drop_left]⟩

theorem Placed.append (h : Placed w p x) (hne : x ≠ []) (y : List α) : Placed (w ++ y) p x := by
  obtain ⟨rest, hrest⟩ := h
  have hle : p ≤ w.length := by
    by_contra hlt
    rw [drop_eq_nil_of_le (by omega)] at hrest
    exact hne (append_eq_nil_iff.mp hrest).1
  rw [Placed, drop_append_of_le_length hle]
  exact ⟨rest ++ y, by rw [← hrest, append_assoc]⟩

theorem placed_append : Placed w p (x ++ y) ↔ Placed w p x ∧ Placed w (p + x.length) y := by
  rw [Placed, Placed, Placed, ← drop_drop]
  constructor
  · rintro ⟨rest, hrest⟩
    rw [← hrest, append_assoc, drop_left]
    exact ⟨⟨_, rfl⟩, ⟨_, rfl⟩⟩
  rintro ⟨⟨rest, hrest⟩, hy⟩
  rw [← hrest, drop_left] at hy
  obtain ⟨rest', rfl⟩ := hy
  exact ⟨rest', by rw [← hrest, append_assoc]⟩

theorem Placed.take_drop (h : Placed w p x) : (w.drop p).take x.length = x := by
  obtain ⟨rest, hrest⟩ := h
  rw [← hrest, take_left]

theorem Placed.add_length_le (h : Placed w p x) (hne : x ≠ []) : p + x.length ≤ w.length := by
  obtain ⟨rest, hrest⟩ := h
  have hl := congrArg List.length hrest
  have hp := length_pos_of_ne_nil hne
  rw [length_append, length_drop] at hl
  omega

theorem placed_cons : Placed w p (a :: x) ↔ w[p]? = some a ∧ Placed w (p + 1) x := by
  rw [← singleton_append, placed_append, length_singleton]
  refine and_congr_left fun _ => ?_
  constructor
  · rintro ⟨rest, hrest⟩
    rw [← Nat.add_zero p, ← List.getElem?_drop, ← hrest]
    rfl
  · intro ha
    obtain ⟨hlt, ha⟩ := List.getElem?_eq_some_iff.mp ha
    exact ⟨w.drop (p + 1), by rw [singleton_append, ← ha, ← drop_eq_getElem_cons hlt]⟩

end XrayCore.Lib
