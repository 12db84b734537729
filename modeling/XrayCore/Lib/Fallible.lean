import Mathlib.Data.List.Basic

/-!
# Computations that can fail or panic

`Except` as a sequence of steps: a sequence succeeds exactly if each step does. Indexing, slicing,
subtraction of unsigned numbers and signed arithmetic, as they are compiled with overflow checks,
give their result or say which check failed; each has one lemma, for the case that its condition
holds.
-/

namespace XrayCore.Lib

section

variable {ε ε' α β : Type}

@[simp] theorem ok_bind (a : α) (f : α → Except ε β) : ((.ok a : Except ε α) >>= f) = f a := rfl

@[simp] theorem error_bind (e : ε) (f : α → Except ε β) :
    ((.error e : Except ε α) >>= f) = .error e := rfl

variable {x : Except ε α}

theorem bind_ok : (x >>= f) = .ok b ↔ ∃ a, x = .ok a ∧ f a = .ok b := by
  cases x with
  | error e | ok a => simp

theorem toOption_eq_some : x.toOption = some a ↔ x = .ok a := by
  cases x <;> simp [Except.toOption]

@[simp] theorem mapError_eq_ok : x.mapError f = .ok a ↔ x = .ok a := by
  cases x <;> simp [Except.mapError]

end

inductive Panic
  | index
  | slice
  | overflow
  | divideByZero
  | expect
  deriving DecidableEq

abbrev Checked := Except Panic

namespace Checked

variable {α : Type} {xs : List α} {i lo hi a b : Nat} {x y : Int}

def index (xs : List α) (i : Nat) : Checked α :=
  match xs[i]? with
  | some a => .ok a
  | none => .error .index

def slice (xs : List α) (lo hi : Nat) : Checked (List α) :=
  if lo ≤ hi ∧ hi ≤ xs.length then .ok ((xs.take hi).drop lo) else .error .slice

def sub (a b : Nat) : Checked Nat := if b ≤ a then .ok (a - b) else .error .overflow

def expect (o : Option α) : Checked α :=
  match o with
  | some a => .ok a
  | none => .error .expect

def isize (x : Int) : Checked Int :=
  if -0x8000000000000000 ≤ x ∧ x < 0x8000000000000000 then .ok x else .error .overflow

def div (x y : Int) : Checked Int := if y = 0 then .error .divideByZero else isize (x.tdiv y)

theorem index_of_some {a : α} (h : xs[i]? = some a) : index xs i = .ok a := by rw [index, h]

theorem slice_of_le (h : lo ≤ hi) (hl : hi ≤ xs.length) :
    slice xs lo hi = .ok ((xs.take hi).drop lo) := if_pos ⟨h, hl⟩

theorem sub_of_le (h : b ≤ a) : sub a b = .ok (a - b) := if_pos h

@[simp] theorem expect_some (a : α) : expect (some a) = .ok a := rfl

theorem isize_of_fits (h : -0x8000000000000000 ≤ x ∧ x < 0x8000000000000000) :
    isize x = .ok x := if_pos h

theorem div_of_ne (hy : y ≠ 0)
    (h : -0x8000000000000000 ≤ x.tdiv y ∧ x.tdiv y < 0x8000000000000000) :
    div x y = .ok (x.tdiv y) := by
  rw [div, if_neg hy, isize_of_fits h]

theorem mapM_expect (parts : List α) : (parts.map some).mapM expect = .ok parts := by
  induction parts with
  | nil => rfl
  | cons a parts ih => simp [ih]

end Checked

end XrayCore.Lib
