import Mathlib.Algebra.Ring.Int.Defs
import XrayCore.Lib.Runs

/-!
# XMUX clients

`XmuxManager` at the granularity of its pool lock: a call looks for a client in one section and,
where it is to make one, enters it in another. All that happens to a client besides makes it less
reusable, so its tests can be taken together.
-/

namespace XrayCore.SplitHttp

open Lib List Function

/-- `limit` and `handedOut` are not in the code: what was drawn for `c_max_reuse_times`, and how
often the client was returned. -/
structure XmuxClient where
  closed : Bool
  leftUsage : Int
  leftRequests : Int
  openUsage : Int
  unreusableAt : Option Nat
  limit : Int
  handedOut : Nat

namespace XmuxClient

def UNLIMITED_REQUESTS : Int := 2 ^ 31 - 1

def new (reuse requests : Int) (unreusableAt : Option Nat) : XmuxClient :=
  { closed := false
    leftUsage := if 0 < reuse then reuse - 1 else -1
    leftRequests := if 0 < requests then requests else UNLIMITED_REQUESTS
    openUsage := 0
    unreusableAt := unreusableAt
    limit := reuse
    handedOut := 1 }

def isUnreusable (c : XmuxClient) (now : Nat) : Prop :=
  c.closed = true ∨ c.leftUsage = 0 ∨ c.leftRequests ≤ 0 ∨ ∃ t ∈ c.unreusableAt, t < now

instance (c : XmuxClient) (now : Nat) : Decidable (c.isUnreusable now) := by
  unfold isUnreusable
  infer_instance

def handOut (c : XmuxClient) : XmuxClient :=
  { c with
    leftUsage := if 0 < c.leftUsage then c.leftUsage - 1 else c.leftUsage
    handedOut := c.handedOut + 1 }

inductive Use
  | close
  | request
  | opened (delta : Int)

def use (c : XmuxClient) : Use → XmuxClient
  | .close => { c with closed := true }
  | .request => { c with leftRequests := if 0 < c.leftRequests then c.leftRequests - 1 else c.leftRequests }
  | .opened delta => { c with openUsage := c.openUsage + delta }

end XmuxClient

/-- Clients by number, of which `made` have been made; `making` calls are between their sections. -/
structure XmuxManager where
  concurrency : Int
  connections : Int
  clients : Nat → XmuxClient
  made : Nat
  pool : List Nat
  making : Nat
  now : Nat

namespace XmuxManager

variable {m : XmuxManager}

def new (concurrency connections : Int) : XmuxManager :=
  ⟨concurrency, connections, fun _ => .new 0 0 none, 0, [], 0, 0⟩

def newXmuxClient (m : XmuxManager) (client : XmuxClient) : XmuxManager :=
  { m with
    clients := update m.clients m.made client
    made := m.made + 1
    pool := m.pool ++ [m.made]
    making := m.making - 1 }

def kept (m : XmuxManager) : List Nat := m.pool.filter fun i => ¬(m.clients i).isUnreusable m.now

/-- The first section: the client that is returned, or nothing where one is to be made. -/
def getXmuxClient (m : XmuxManager) (choice : Nat) : XmuxManager × Option Nat :=
  let make := ({ m with pool := m.kept, making := m.making + 1 }, none)
  if m.kept = [] then make
  else if 0 < m.connections ∧ (m.kept.length : Int) < m.connections then make
  else
    let candidates := if 0 < m.concurrency then
        m.kept.filter fun i => (m.clients i).openUsage < m.concurrency
      else m.kept
    match candidates[choice % candidates.length]? with
    | none => make
    | some i =>
      ({ m with
        pool := m.kept
        clients := update m.clients i (m.clients i).handOut }, some i)

inductive Op
  | look (choice : Nat)
  | make (reuse requests : Int) (unreusableAt : Option Nat)
  | use (i : Nat) (use : XmuxClient.Use)
  | tick

def step (m : XmuxManager) : Op → XmuxManager
  | .look choice => (m.getXmuxClient choice).1
  | .make reuse requests t => if m.making = 0 then m else m.newXmuxClient (.new reuse requests t)
  | .use i use => { m with clients := update m.clients i ((m.clients i).use use) }
  | .tick => { m with now := m.now + 1 }

theorem getXmuxClient_rule {P : XmuxManager × Option Nat → Prop} (choice : Nat)
    (hmake : (m.concurrency ≤ 0 → m.kept = [] ∨ (m.kept.length : Int) < m.connections) →
      P ({ m with pool := m.kept, making := m.making + 1 }, none))
    (htake : ∀ i ∈ m.kept, P ({ m with
      pool := m.kept
      clients := update m.clients i (m.clients i).handOut }, some i)) :
    P (m.getXmuxClient choice) := by
  unfold getXmuxClient
  simp only
  split
  next h => exact hmake fun _ => .inl h
  next hne =>
  split
  next h => exact hmake fun _ => .inr h.2
  split
  next hn =>
    refine hmake fun hc => ?_
    rw [if_neg (by omega), getElem?_eq_none_iff] at hn
    exact absurd hn (Nat.not_le.mpr (Nat.mod_lt _ (length_pos_of_ne_nil hne)))
  next i hi =>
    refine htake i ?_
    have hm := mem_of_getElem? hi
    split at hm
    · exact mem_of_mem_filter hm
    · exact hm

theorem reusable_of_mem_kept (h : i ∈ m.kept) : ¬(m.clients i).isUnreusable m.now := by
  simpa using (mem_filter.mp h).2

inductive Wears (now : Nat) (c : XmuxClient) : XmuxClient → Prop
  | same : Wears now c c
  | use (u : XmuxClient.Use) : Wears now c (c.use u)
  | handOut (h : ¬c.isUnreusable now) : Wears now c c.handOut

structure Evolves (m m' : XmuxManager) : Prop where
  now : m.now ≤ m'.now
  made : m.made ≤ m'.made
  clients : ∀ i, Wears m.now (m.clients i) (m'.clients i) ∨
    i = m.made ∧ ∃ a b t, m'.clients i = .new a b t

theorem step_evolves (m : XmuxManager) (op : Op) : m.Evolves (m.step op) := by
  have hup {i : Nat} {c : XmuxClient} (h : Wears m.now (m.clients i) c) (j : Nat) :
      Wears m.now (m.clients j) (update m.clients i c j) := by
    by_cases hj : j = i
    · subst hj
      rwa [update_self]
    · rw [update_of_ne hj]
      exact .same
  cases op with
  | look choice =>
    refine getXmuxClient_rule (P := fun out => m.Evolves out.1) choice
      (fun _ => ⟨Nat.le_refl _, Nat.le_refl _, fun _ => .inl .same⟩) fun i hi => ?_
    exact ⟨Nat.le_refl _, Nat.le_refl _, fun j => .inl (hup (.handOut (reusable_of_mem_kept hi)) j)⟩
  | make a b t =>
    simp only [step]
    split
    · exact ⟨Nat.le_refl _, Nat.le_refl _, fun _ => .inl .same⟩
    refine ⟨Nat.le_refl _, Nat.le_succ _, fun i => ?_⟩
    by_cases hi : i = m.made
    · exact .inr ⟨hi, a, b, t, by simp [newXmuxClient, hi]⟩
    · simpa [newXmuxClient, update_of_ne hi] using .inl .same
  | use i u => exact ⟨Nat.le_refl _, Nat.le_refl _, fun j => .inl (hup (.use u) j)⟩
  | tick => exact ⟨Nat.le_succ _, Nat.le_refl _, fun _ => .inl .same⟩

def Counted (c : XmuxClient) : Prop :=
  0 < c.limit → 0 ≤ c.leftUsage ∧ c.handedOut + c.leftUsage = c.limit

theorem counted_new (a b : Int) (t : Option Nat) : Counted (.new a b t) := by
  intro h
  simp only [XmuxClient.new] at h ⊢
  rw [if_pos h]
  omega

theorem Counted.step (h : Counted (m.clients i)) (op : Op) : Counted ((m.step op).clients i) := by
  rcases (m.step_evolves op).clients i with hw | ⟨-, a, b, t, he⟩
  · generalize (m.step op).clients i = c at hw
    cases hw with
    | same => exact h
    | use u => cases u <;> exact h
    | handOut hr =>
      intro hl
      have hc := h hl
      simp only [XmuxClient.isUnreusable, not_or] at hr
      simp only [XmuxClient.handOut] at hc ⊢
      split <;> omega
  · exact he ▸ counted_new a b t

theorem unreusable_step (h : i < m.made ∧ (m.clients i).isUnreusable m.now) (op : Op) :
    i < (m.step op).made ∧ ((m.step op).clients i).isUnreusable (m.step op).now := by
  have he := m.step_evolves op
  rcases he.clients i with hw | ⟨rfl, -⟩
  · refine ⟨Nat.lt_of_lt_of_le h.1 he.made, ?_⟩
    have hlater : (m.clients i).isUnreusable (m.step op).now := by
      refine h.2.imp_right (Or.imp_right (Or.imp_right ?_))
      rintro ⟨t, ht, hlt⟩
      exact ⟨t, ht, Nat.lt_of_lt_of_le hlt he.now⟩
    generalize (m.step op).clients i = c at hw
    cases hw with
    | same => exact hlater
    | use u =>
      cases u with
      | close => exact .inl rfl
      | request =>
        simp only [XmuxClient.isUnreusable, XmuxClient.use] at hlater ⊢
        split <;> grind
      | opened => exact hlater
    | handOut hr => exact absurd h.2 hr
  · exact absurd h.1 (Nat.lt_irrefl _)

/-- No other call is between its sections when one looks. -/
def Alone (m : XmuxManager) : Op → Prop
  | .look _ => m.making = 0
  | _ => True

structure Within (n : Int) (m : XmuxManager) : Prop where
  concurrency : m.concurrency = 0
  connections : m.connections = n
  pool : m.pool.length + m.making ≤ n

theorem Within.step (hn : 0 < n) (h : m.Within n) (op : Op) (ha : m.Alone op) :
    (m.step op).Within n := by
  obtain ⟨hco, hcn, hp⟩ := h
  cases op with
  | look choice =>
    have hk : m.kept.length ≤ m.pool.length := length_filter_le ..
    have ha : m.making = 0 := ha
    refine getXmuxClient_rule (P := fun out => out.1.Within n) choice (fun hm => ⟨hco, hcn, ?_⟩)
      fun i _ => ⟨hco, hcn, by simp only; omega⟩
    rcases hm (by omega) with he | hlt
    · simp [he, ha]
      omega
    · simp
      omega
  | make a b t =>
    simp only [XmuxManager.step]
    split
    · exact ⟨hco, hcn, hp⟩
    · refine ⟨hco, hcn, ?_⟩
      simp [newXmuxClient]
      omega
  | use i u | tick => exact ⟨hco, hcn, hp⟩

/-- A client is returned no more often than was drawn for it, and not if it was unreusable when the
call began (`during` is what happens until it has the lock). The pool stays within its limit if no
call looks while another one is making a client. -/
theorem xmux_limits (concurrency connections : Int) (before during : List Op) :
    let m := runs step (new concurrency connections) before
    (∀ i, 0 < (m.clients i).limit → (m.clients i).handedOut ≤ (m.clients i).limit) ∧
    (∀ choice i, ((runs step m during).getXmuxClient choice).2 = some i → i < m.made →
      ¬(m.clients i).isUnreusable m.now) ∧
    (concurrency = 0 → 0 < connections → Guarded step Alone (new concurrency connections) before →
      Throughout step (fun m => m.kept.length ≤ connections) (new concurrency connections)
        before) := by
  intro m
  refine ⟨?_, ?_, ?_⟩
  · intro i hl
    have hc : Counted (m.clients i) := runs_invariant (P := fun m : XmuxManager => Counted (m.clients i))
      (counted_new 0 0 none) (fun m op h => h.step op) before
    have := hc hl
    omega
  · intro choice i
    refine getXmuxClient_rule (P := fun out => out.2 = some i → _) choice (nofun) ?_
    rintro j hj ⟨⟩ hm hu
    exact reusable_of_mem_kept hj (runs_invariant (P := fun m : XmuxManager => i < m.made ∧
      (m.clients i).isUnreusable m.now) ⟨hm, hu⟩ (fun m op h => unreusable_step h op) during).2
  · intro hco hn hg
    have ht := hg.throughout (P := Within connections) ⟨hco, rfl, by simp [new]; omega⟩
      fun m op h ha => h.step hn op ha
    refine ht.mono fun m h => ?_
    have hk : m.kept.length ≤ m.pool.length := length_filter_le ..
    have hp := h.pool
    omega

/-- Two calls find the pool empty and both make a client, with a limit of one. -/
theorem two_clients :
    (runs step (new 0 1) [.look 0, .look 0, .make 0 0 none, .make 0 0 none]).kept.length = 2 := by
  decide

end XmuxManager

end XrayCore.SplitHttp
