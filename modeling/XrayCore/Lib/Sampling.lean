import XrayCore.Lib.Fallible

/-!
# Computations that draw random numbers

The numbers of the generator are a list, from which a computation takes one after the other.
`Returns x P` is what can be said whatever is drawn: the computation does not fail, what it returns
satisfies `P`, and however it has gone so far, there are numbers with which it returns.
-/

namespace XrayCore.Lib

open List

inductive Stop (ε : Type)
  | used
  | failed (e : ε)
  deriving DecidableEq

abbrev Sampler (ε : Type) := StateT (List Nat) (Except (Stop ε))

namespace Sampler

variable {ε α β : Type}

def draw : Sampler ε Nat
  | [] => .error .used
  | n :: draws => .ok (n, draws)

def fail (e : ε) : Sampler ε α := fun _ => .error (.failed e)

def below (n : Nat) : Sampler ε Nat := do
  let m ← draw
  return m % n

def drawUntil (accept : Nat → Option α) : Sampler ε α
  | [] => .error .used
  | n :: draws =>
    match accept n with
    | some a => .ok (a, draws)
    | none => drawUntil accept draws

structure Returns (x : Sampler ε α) (P : α → Prop) : Prop where
  ok : ∀ draws a rest, x draws = .ok (a, rest) → P a
  safe : ∀ draws e, x draws ≠ .error (.failed e)
  frame : ∀ draws a rest, x draws = .ok (a, rest) →
    ∀ more, x (draws ++ more) = .ok (a, rest ++ more)
  progress : ∀ draws, ∃ more a rest, x (draws ++ more) = .ok (a, rest)

namespace Returns

variable {x : Sampler ε α} {f : α → Sampler ε β} {P : α → Prop} {Q : β → Prop} {a : α}

theorem pure (h : P a) : Returns (pure a : Sampler ε α) P := by
  refine ⟨fun d b rest heq => ?_, fun d e heq => ?_, fun d b rest heq more => ?_,
    fun d => ⟨[], a, d ++ [], rfl⟩⟩
  · cases heq
    exact h
  · cases heq
  · cases heq
    rfl

theorem mono (hx : Returns x P) (h : ∀ a, P a → P' a) : Returns x P' :=
  ⟨fun draws a rest heq => h a (hx.ok draws a rest heq), hx.safe, hx.frame, hx.progress⟩

theorem bind_apply (x : Sampler ε α) (f : α → Sampler ε β) (draws : List Nat) :
    (x >>= f) draws = (x draws >>= fun r => f r.1 r.2) := rfl

theorem bind (hx : Returns x P) (hf : ∀ a, P a → Returns (f a) Q) : Returns (x >>= f) Q := by
  refine ⟨fun d b rest heq => ?_, fun d e heq => ?_, fun d b rest heq more => ?_, fun d => ?_⟩
  · rw [bind_apply, bind_ok] at heq
    obtain ⟨⟨a, mid⟩, hm, heq⟩ := heq
    exact (hf a (hx.ok _ _ _ hm)).ok _ _ _ heq
  · rw [bind_apply] at heq
    cases hm : x d with
    | error stop =>
      rw [hm, error_bind] at heq
      exact hx.safe d e (hm.trans (congrArg _ (Except.error.inj heq)))
    | ok r =>
      rw [hm, ok_bind] at heq
      exact (hf r.1 (hx.ok _ _ _ hm)).safe _ _ heq
  · rw [bind_apply, bind_ok] at heq
    obtain ⟨⟨a, mid⟩, hm, heq⟩ := heq
    rw [bind_apply, hx.frame _ _ _ hm, ok_bind]
    exact (hf a (hx.ok _ _ _ hm)).frame _ _ _ heq more
  · obtain ⟨more, a, mid, hm⟩ := hx.progress d
    obtain ⟨more', b, rest, hrest⟩ := (hf a (hx.ok _ _ _ hm)).progress mid
    refine ⟨more ++ more', b, rest, ?_⟩
    rw [bind_apply, ← append_assoc, hx.frame _ _ _ hm, ok_bind]
    exact hrest

theorem draw : Returns (draw : Sampler ε Nat) fun _ => True := by
  refine ⟨fun _ _ _ _ => trivial, fun d e heq => ?_, fun d n rest heq more => ?_, fun d => ?_⟩
  · cases d <;> cases heq
  · cases d with
    | nil => cases heq
    | cons m d =>
      cases heq
      rfl
  · cases d with
    | nil => exact ⟨[0], 0, [], rfl⟩
    | cons n d => exact ⟨[], n, d ++ [], rfl⟩

theorem below (hn : 0 < n) : Returns (below n : Sampler ε Nat) (· < n) :=
  draw.bind fun m _ => .pure (Nat.mod_lt m hn)

theorem drawUntil (h : ∃ n a, accept n = some a) :
    Returns (drawUntil accept : Sampler ε α) fun a => ∃ n, accept n = some a := by
  refine ⟨fun d => ?_, fun d => ?_, fun d => ?_, fun d => ?_⟩
  · induction d with
    | nil => intro a rest heq; cases heq
    | cons n d ih =>
      intro a rest heq
      rw [Sampler.drawUntil] at heq
      split at heq
      · next b hb =>
        cases heq
        exact ⟨n, hb⟩
      · exact ih a rest heq
  · induction d with
    | nil => intro e heq; cases heq
    | cons n d ih =>
      intro e heq
      rw [Sampler.drawUntil] at heq
      split at heq
      · cases heq
      · exact ih e heq
  · induction d with
    | nil => intro a rest heq; cases heq
    | cons n d ih =>
      intro a rest heq more
      rw [cons_append, Sampler.drawUntil]
      rw [Sampler.drawUntil] at heq
      cases ha : accept n with
      | none =>
        rw [ha] at heq
        exact ih a rest heq more
      | some b =>
        rw [ha] at heq
        cases heq
        rfl
  · induction d with
    | nil =>
      obtain ⟨n, a, hn⟩ := h
      exact ⟨[n], a, [], by rw [nil_append, Sampler.drawUntil, hn]⟩
    | cons n d ih =>
      cases ha : accept n with
      | none =>
        obtain ⟨more, a, rest, hrest⟩ := ih
        exact ⟨more, a, rest, by rw [cons_append, Sampler.drawUntil, ha]; exact hrest⟩
      | some b =>
        exact ⟨[], b, d ++ [], by rw [cons_append, Sampler.drawUntil, ha]⟩

end Returns

end Sampler

end XrayCore.Lib
