import Mathlib.Data.List.Basic

/-!
# Reading a buffer that is filled piece by piece

The reader is tried on all that there is, always from the start. What it has once said of an item or
a failure does not change when more comes, so trying again after each piece gives the items of the
whole input, wherever the pieces were cut.
-/

namespace XrayCore.Lib

inductive Front (α μ ε : Type _)
  | item (m : μ) (rest : List α)
  | wait
  | fail (e : ε)

structure FrontReader (α μ ε : Type _) where
  front : List α → Front α μ ε
  shorter : ∀ {b m rest}, front b = .item m rest → rest.length < b.length
  item_append : ∀ {b m rest} (more : List α), front b = .item m rest →
    front (b ++ more) = .item m (rest ++ more)
  fail_append : ∀ {b e} (more : List α), front b = .fail e → front (b ++ more) = .fail e

namespace FrontReader

variable {α μ ε : Type _} {r : FrontReader α μ ε} {b rest : List α} {m : μ} {e : ε}

variable (r) in
def drain (b : List α) : List μ × Except ε (List α) :=
  match _h : r.front b with
  | .item m rest =>
    let q := drain rest
    (m :: q.1, q.2)
  | .wait => ([], .ok b)
  | .fail e => ([], .error e)
termination_by b.length
decreasing_by exact r.shorter _h

theorem drain_of_item (h : r.front b = .item m rest) :
    r.drain b = (m :: (r.drain rest).1, (r.drain rest).2) := by
  rw [drain]
  split <;> simp_all

theorem drain_of_wait (h : r.front b = .wait) : r.drain b = ([], .ok b) := by
  rw [drain]
  split <;> simp_all

theorem drain_of_fail (h : r.front b = .fail e) : r.drain b = ([], .error e) := by
  rw [drain]
  split <;> simp_all

theorem drain_append (b more : List α) : r.drain (b ++ more) = match r.drain b with
      | (ms, .ok rest) => (ms ++ (r.drain (rest ++ more)).1, (r.drain (rest ++ more)).2)
      | (ms, .error e) => (ms, .error e) := by
  fun_induction drain r b with
  | case1 b m rest h q ih =>
    rw [drain_of_item (r.item_append more h), ih]
    change _ = match (m :: (r.drain rest).1, (r.drain rest).2) with
      | (ms, .ok rest) => (ms ++ (r.drain (rest ++ more)).1, (r.drain (rest ++ more)).2)
      | (ms, .error e) => (ms, .error e)
    cases r.drain rest with
    | mk ms left => cases left <;> rfl
  | case2 b h => rfl
  | case3 b e h => rw [drain_of_fail (r.fail_append more h)]

end FrontReader

end XrayCore.Lib
