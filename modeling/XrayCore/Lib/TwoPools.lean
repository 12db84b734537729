import XrayCore.Lib.Runs
import Mathlib.Algebra.Order.Ring.Nat

/-!
# Replay filters of two pools

A value that is in neither pool is new and goes to the first one; a call that comes an interval or
more after the last rotation first moves the first pool to the second. So two acceptances of one
value are more than an interval apart.

A gate puts such a filter in front of a component and admits items whose key is new. By
`Gate.once_of_guarded` no item is admitted twice if each comes again within the interval.
-/

namespace XrayCore.Lib

open List

def second : Nat := 1000000000

structure TwoPools (α : Type _) where
  interval : Nat
  lastClean : Nat
  poolA : List α
  poolB : List α

namespace TwoPools

variable {α : Type _} {p : TwoPools α} {v w : α} {t now : Nat}

def new (interval now : Nat) : TwoPools α := ⟨interval, now, [], []⟩

def rotate (p : TwoPools α) (now : Nat) : TwoPools α :=
  if p.interval ≤ now - p.lastClean then ⟨p.interval, now, [], p.poolA⟩ else p

def insert (p : TwoPools α) (v : α) : TwoPools α := { p with poolA := v :: p.poolA }

def Has (p : TwoPools α) (v : α) : Prop := v ∈ p.poolA ∨ v ∈ p.poolB

instance [DecidableEq α] : Decidable (p.Has v) := inferInstanceAs (Decidable (_ ∨ _))

def check [DecidableEq α] (p : TwoPools α) (now : Nat) (v : α) : Bool × TwoPools α :=
  let p := p.rotate now
  if p.Has v then (false, p) else (true, p.insert v)

theorem accepted_iff [DecidableEq α] : (p.check now v).1 = true ↔ ¬(p.rotate now).Has v := by
  unfold check
  dsimp only
  split <;> simp_all

@[simp] theorem interval_rotate : (p.rotate now).interval = p.interval := by
  unfold rotate
  split <;> rfl

@[simp] theorem interval_check [DecidableEq α] : (p.check now v).2.interval = p.interval := by
  unfold check
  dsimp only
  split <;> exact interval_rotate

theorem lastClean_check [DecidableEq α] (p : TwoPools α) (now : Nat) (v : α) :
    (p.check now v).2.lastClean = (p.rotate now).lastClean := by
  unfold check
  dsimp only
  split <;> rfl

theorem lastClean_rotate_le (h : p.lastClean ≤ now) : (p.rotate now).lastClean ≤ now := by
  unfold rotate
  split
  · exact le_refl now
  · exact h

/-- The value accepted at `t` is in the first pool, or in the second, or more than an
interval has passed. -/
inductive Remembers (p : TwoPools α) (v : α) (t : Nat) : Prop
  | first : v ∈ p.poolA → t < p.lastClean + p.interval → Remembers p v t
  | second : v ∈ p.poolB → t < p.lastClean → Remembers p v t
  | gone : t + p.interval < p.lastClean → Remembers p v t

theorem Remembers.rotate (h : p.Remembers v t) (hp : 0 < p.interval) (now : Nat) :
    (p.rotate now).Remembers v t := by
  unfold TwoPools.rotate
  split
  · next hd =>
    -- a rotation ages the value by one place, and it is due only an interval after the last
    cases h with
    | first hm ht =>
      refine .second hm ?_
      dsimp only
      omega
    | second _ ht | gone ht =>
      refine .gone ?_
      dsimp only
      omega
  · exact h

theorem Remembers.insert (h : p.Remembers v t) (w : α) : (p.insert w).Remembers v t := by
  cases h with
  | first hm ht => exact .first (mem_cons_of_mem _ hm) ht
  | second hm ht => exact .second hm ht
  | gone ht => exact .gone ht

theorem Remembers.check [DecidableEq α] (h : p.Remembers v t) (hp : 0 < p.interval) (now : Nat)
    (w : α) : (p.check now w).2.Remembers v t := by
  have hr := h.rotate hp now
  unfold TwoPools.check
  dsimp only
  split
  · exact hr
  · exact hr.insert w

theorem remembers_of_accepted [DecidableEq α] (hp : 0 < p.interval)
    (h : (p.check now v).1 = true) : (p.check now v).2.Remembers v now := by
  have hs : now < (p.rotate now).lastClean + (p.rotate now).interval := by
    unfold rotate
    split
    · exact Nat.lt_add_of_pos_right hp
    · omega
  have hnew := accepted_iff.mp h
  simp only [check, hnew, if_false]
  exact .first (mem_cons_self ..) hs

/-- A value that is remembered is refused for an interval. -/
theorem Remembers.interval_lt_of_accepted [DecidableEq α] (h : p.Remembers v t)
    (hp : 0 < p.interval) (hc : p.lastClean ≤ now) (ha : (p.check now v).1 = true) :
    t + p.interval < now := by
  have hle := lastClean_rotate_le hc
  have hnew := accepted_iff.mp ha
  cases h.rotate hp now with
  | first hm => exact absurd (Or.inl hm) hnew
  | second hm => exact absurd (Or.inr hm) hnew
  | gone ht =>
    rw [interval_rotate] at ht
    omega

structure Log (p : TwoPools α) (now : Nat) (log : List (Nat × α)) : Prop where
  pos : 0 < p.interval
  clock : p.lastClean ≤ now
  remembers : ∀ e ∈ log, p.Remembers e.2 e.1

theorem Log.new {interval now : Nat} (hp : 0 < interval) :
    Log (new interval now : TwoPools α) now [] :=
  ⟨hp, le_refl now, nofun⟩

variable {log : List (Nat × α)}

theorem Log.wait (h : p.Log now log) (hle : now ≤ now') : p.Log now' log :=
  ⟨h.pos, h.clock.trans hle, h.remembers⟩

/-- A refused value leaves the log as it is. -/
theorem Log.check [DecidableEq α] (h : p.Log now log) (v : α) : (p.check now v).2.Log now log where
  pos := by rw [interval_check]; exact h.pos
  clock := by rw [lastClean_check]; exact lastClean_rotate_le h.clock
  remembers := fun e he => (h.remembers e he).check h.pos now v

/-- An accepted value is more than an interval away from its earlier acceptances. -/
theorem Log.check_accepted [DecidableEq α] (h : p.Log now log) (ha : (p.check now v).1 = true) :
    (p.check now v).2.Log now ((now, v) :: log) ∧ ∀ t, (t, v) ∈ log → t + p.interval < now := by
  refine ⟨⟨(h.check v).pos, (h.check v).clock, ?_⟩, ?_⟩
  · intro e he
    obtain rfl | he := mem_cons.mp he
    · exact remembers_of_accepted h.pos ha
    · exact (h.check v).remembers e he
  · intro t ht
    exact (h.remembers (t, v) ht).interval_lt_of_accepted h.pos h.clock ha

end TwoPools

/-- The filter and the items it has admitted, with their times, the last one first. -/
structure Gate (κ ι : Type _) where
  filter : TwoPools κ
  accepted : List (Nat × ι)

namespace Gate

variable {κ ι β α : Type _} [DecidableEq κ] (key : ι → κ) (ident : ι → β)

def new (interval now : Nat) : Gate κ ι := ⟨.new interval now, []⟩

def letIn (g : Gate κ ι) (now : Nat) : Option ι → Gate κ ι
  | none => g
  | some i =>
    let r := g.filter.check now (key i)
    ⟨r.2, if r.1 then (now, i) :: g.accepted else g.accepted⟩

def Once (g : Gate κ ι) : Prop := g.accepted.Pairwise fun p q => ident p.2 ≠ ident q.2

def Timely (window : Nat) (g : Gate κ ι) (now : Nat) (item : Option ι) : Prop :=
  ∀ i ∈ item, ∀ p ∈ g.accepted, ident p.2 = ident i → now ≤ p.1 + window

instance [DecidableEq β] (g : Gate κ ι) : Decidable (g.Once ident) :=
  inferInstanceAs (Decidable (List.Pairwise _ _))

instance [DecidableEq β] (window : Nat) (g : Gate κ ι) (now : Nat) (item : Option ι) :
    Decidable (g.Timely ident window now item) :=
  inferInstanceAs (Decidable (∀ i ∈ item, _))

structure Inv (window : Nat) (g : Gate κ ι) (now : Nat) : Prop where
  interval : g.filter.interval = window
  log : g.filter.Log now (g.accepted.map fun p => (p.1, key p.2))
  once : g.Once ident

variable {key ident} {g : Gate κ ι} {window now : Nat}

omit [DecidableEq κ] in
theorem Inv.new (hp : 0 < win) : Inv key ident win (new win now : Gate κ ι) now :=
  ⟨rfl, .new hp, .nil⟩

omit [DecidableEq κ] in
theorem Inv.wait (h : g.Inv key ident window now) (hle : now ≤ now') :
    g.Inv key ident window now' :=
  ⟨h.interval, h.log.wait hle, h.once⟩

theorem Inv.letIn (hk : ∀ i j, ident i = ident j → key i = key j)
    (h : g.Inv key ident window now) (hok : g.Timely ident window now item) :
    (g.letIn key now item).Inv key ident window now := by
  cases item with
  | none => exact h
  | some i =>
    have hi : (g.filter.check now (key i)).2.interval = window :=
      TwoPools.interval_check.trans h.interval
    cases hnew : (g.filter.check now (key i)).1 with
    | false =>
      simp only [Gate.letIn, hnew, Bool.false_eq_true, if_false]
      exact ⟨hi, h.log.check (key i), h.once⟩
    | true =>
      simp only [Gate.letIn, hnew, if_true]
      obtain ⟨hlo, hf⟩ := h.log.check_accepted hnew
      refine ⟨hi, hlo, pairwise_cons.mpr ⟨?_, h.once⟩⟩
      -- the same item was admitted at `p.1`, so its key was accepted then
      intro p hp heq
      have hm : (p.1, key i) ∈ g.accepted.map fun p => (p.1, key p.2) :=
        mem_map.mpr ⟨p, hp, by rw [hk _ _ heq]⟩
      have hl := hf p.1 hm
      rw [h.interval] at hl
      exact absurd (hok i rfl p hp heq.symm) (not_le.mpr hl)

/-- A component whose steps are calls of a gate, at times that do not go back. -/
theorem once_of_guarded {step : Gate κ ι → α → Gate κ ι} {time : α → Nat} {item : α → Option ι}
    (hs : ∀ g a, step g a = g.letIn key (time a) (item a))
    (hk : ∀ i j, ident i = ident j → key i = key j) {ops : List α}
    (hc : (now :: ops.map time).Pairwise (· ≤ ·))
    (hok : Guarded step (fun g a => g.Timely ident window (time a) (item a)) g ops)
    (h : g.Inv key ident window now) : Throughout step (Once ident) g ops := by
  induction ops generalizing g now with
  | nil => exact h.once
  | cons a ops ih =>
    obtain ⟨hle, hc⟩ := pairwise_cons.mp hc
    refine ⟨h.once, ih hc hok.2 ?_⟩
    rw [hs]
    exact (h.wait (hle _ (mem_cons_self ..))).letIn hk hok.1

end Gate

end XrayCore.Lib
