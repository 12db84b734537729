import Mathlib.Data.Nat.ModEq
import Mathlib.Algebra.Order.Ring.Nat

/-!
# Rings of cells under a moving window

An unbounded row of cells is kept in `n` places: cell `i` lives at place `i % n`.
Only the `n` cells up to the newest one, `top`, have a place of their own. Moving
the top forward resets the places of the cells that come into the window, at most
all `n` of them.
-/

namespace XrayCore.Lib.Ring

variable {β : Type _} {n : Nat} [NeZero n]

def place (n : Nat) [NeZero n] (i : Nat) : Fin n := Fin.ofNat n i

theorem place_eq_iff (hij : i ≤ j) (hj : j < i + n) : place n i = place n j ↔ i = j := by
  constructor
  · intro h
    have hm : i ≡ j [MOD n] := by simpa [place, Fin.ext_iff, Nat.ModEq] using h
    obtain ⟨k, hk⟩ := (Nat.modEq_iff_dvd' hij).mp hm
    rcases k with - | k
    · omega
    · have : n ≤ j - i := hk ▸ Nat.le_mul_of_pos_right n k.succ_pos
      omega
  · rintro rfl
    rfl

def resetAfter (zero : β) : Nat → Nat → Vector β n → Vector β n
  | 0, _, ring => ring
  | count + 1, top, ring => resetAfter zero count (top + 1) (ring.set (place n (top + 1)) zero)

omit [NeZero n] in
theorem get_set (ring : Vector β n) (i j : Fin n) (x : β) :
    (ring.set i x).get j = if i = j then x else ring.get j := by
  show (ring.set i x)[j.val] = if i = j then x else ring[j.val]
  simp [Vector.getElem_set, Fin.ext_iff]

theorem get_resetAfter_of_ne (h : ∀ i, top < i → i ≤ top + count → place n i ≠ p) :
    (resetAfter zero count top ring).get p = ring.get p := by
  induction count generalizing top ring with
  | zero => rfl
  | succ count ih =>
    have hn := h (top + 1) (by omega) (by omega)
    rw [resetAfter, ih fun i hi hle => h i (by omega) (by omega), get_set, if_neg hn]

theorem get_resetAfter_of_eq (hi : top < i) (hle : i ≤ top + count) :
    (resetAfter zero count top ring).get (place n i) = zero := by
  induction count generalizing top ring i with
  | zero => omega
  | succ count ih =>
    rcases lt_or_ge (top + 1) i with hlt | hge
    · exact ih hlt (by omega)
    -- the first place reset is this one; a later one at the same place writes `zero` too
    obtain rfl : i = top + 1 := by omega
    by_cases ha : ∃ j, top + 1 < j ∧ j ≤ top + 1 + count ∧ place n j = place n (top + 1)
    · obtain ⟨j, hlt, hj, hp⟩ := ha
      rw [← hp]
      exact ih hlt hj
    · push Not at ha
      rw [resetAfter, get_resetAfter_of_ne ha, get_set, if_pos rfl]

/-- Any `n` cells in a row take every place. -/
theorem exists_place_eq (top : Nat) (p : Fin n) : ∃ i, top < i ∧ i ≤ top + n ∧ place n i = p := by
  have hn : 0 < n := p.pos
  refine ⟨top + 1 + (p.val + (top + 1) * (n - 1)) % n, by omega, ?_, ?_⟩
  · have := Nat.mod_lt (p.val + (top + 1) * (n - 1)) hn
    omega
  have hs : top + 1 + (p.val + (top + 1) * (n - 1)) = p.val + (top + 1) * n := by
    obtain ⟨k, rfl⟩ : ∃ k, n = k + 1 := ⟨n - 1, by omega⟩
    simp [mul_add, add_mul]
    omega
  apply Fin.ext
  show (top + 1 + (p.val + (top + 1) * (n - 1)) % n) % n = p.val
  rw [Nat.add_mod_mod, hs, Nat.add_mul_mod_self_right, Nat.mod_eq_of_lt p.isLt]

/-- The window moved from `top` to `top'`: cells that were in it keep their
content, cells that come into it are reset. -/
theorem get_advance (zero : β) (ring : Vector β n) (hto : top ≤ top')
    (hi : i ≤ top') (hw : top' < i + n) :
    (resetAfter zero (min (top' - top) n) top ring).get (place n i) =
      if i ≤ top then ring.get (place n i) else zero := by
  by_cases hold : i ≤ top
  · rw [if_pos hold]
    refine get_resetAfter_of_ne fun j hj hle heq => ?_
    have := (place_eq_iff (n := n) (i := i) (j := j) (by omega) (by omega)).mp heq.symm
    omega
  · rw [if_neg hold]
    rcases le_total (top' - top) n with hs | ht
    · exact get_resetAfter_of_eq (by omega) (by omega)
    -- a whole turn or more resets every place
    obtain ⟨j, hj, hle, hp⟩ := exists_place_eq (n := n) top (place n i)
    rw [min_eq_right ht, ← hp]
    exact get_resetAfter_of_eq hj hle

end XrayCore.Lib.Ring
