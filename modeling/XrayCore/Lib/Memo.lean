import Mathlib.Data.List.AList

/-!
# Answers remembered by key

A predicate is asked for many values; the answers are remembered under a key, and
a value whose key has an answer takes it without asking. Values without a key are
always asked. The answers are right when the predicate is constant on each key.
-/

namespace XrayCore.Lib.Memo

variable {κ β : Type _} [DecidableEq κ] {key : β → Option κ} {f : β → Bool}
  {seen : AList fun _ : κ => Bool}

def consult (key : β → Option κ) (f : β → Bool) (seen : AList fun _ : κ => Bool) (x : β) :
    Bool × AList fun _ : κ => Bool :=
  match key x with
  | none => (f x, seen)
  | some k =>
    match seen.lookup k with
    | some r => (r, seen)
    | none => (f x, seen.insert k (f x))

def Sound (key : β → Option κ) (f : β → Bool) (seen : AList fun _ : κ => Bool) : Prop :=
  ∀ k r, seen.lookup k = some r → ∀ x, key x = some k → f x = r

theorem sound_empty : Sound key f ∅ := by
  intro k r h
  simp at h

theorem Sound.consult (h : Sound key f seen)
    (hke : ∀ x y k, key x = some k → key y = some k → f x = f y) (x : β) :
    (consult key f seen x).1 = f x ∧ Sound key f (consult key f seen x).2 := by
  unfold Memo.consult
  split
  · exact ⟨rfl, h⟩
  case h_2 k hk =>
    split
    case h_1 r hr => exact ⟨(h k r hr x hk).symm, h⟩
    case h_2 =>
      refine ⟨rfl, fun k' r hr y hy => ?_⟩
      by_cases heq : k' = k
      · subst heq
        rw [AList.lookup_insert] at hr
        cases hr
        exact hke y x k' hy hk
      · rw [AList.lookup_insert_ne heq] at hr
        exact h k' r hr y hy

end XrayCore.Lib.Memo
