import XrayCore.Lib.Runs

/-!
# Sessions of the hub

`SessionMap` at the granularity of its lock. Timers, guards and forwarding tasks remove by id, so
each removal is logged with the session the task belongs to and the one it removed and closed.
-/

namespace XrayCore.SplitHttp

open Lib List Function

/-- What is still to happen to a session: a GET that got it marks it, its timer makes its choice,
and three kinds of tasks remove. -/
inductive Task
  | mark
  | timer
  | reap
  | guard
  | forward
  deriving DecidableEq

structure Removal where
  task : Task
  owner : Nat
  removed : Nat
  connected : Bool
  deriving DecidableEq

/-- The task's own session, which no GET had marked where the task is the timer. -/
def Removal.Own (r : Removal) : Prop := r.removed = r.owner ∧ (r.task = .reap → r.connected = false)

/-- Sessions are numbered as they are made, `sid` is the id each was made under. -/
structure SessionMap where
  made : Nat
  sid : Nat → String
  connected : Nat → Bool
  inner : String → Option Nat
  tasks : List (Task × Nat)
  removals : List Removal

namespace SessionMap

variable {m : SessionMap} {i : Nat} {next : List (Task × Nat)}

def new : SessionMap := ⟨0, fun _ => "", fun _ => false, fun _ => none, [], []⟩

/-- The section that decides: where the fast path finds nothing the call goes on to the slow one. -/
def upsert (m : SessionMap) (sid : String) : SessionMap × Nat :=
  match m.inner sid with
  | some i => (m, i)
  | none =>
    ({ m with
      made := m.made + 1
      sid := update m.sid m.made sid
      inner := update m.inner sid (some m.made)
      tasks := (.timer, m.made) :: m.tasks }, m.made)

def remove (m : SessionMap) (task : Task) (owner : Nat) : SessionMap :=
  { m with
    inner := update m.inner (m.sid owner) none
    removals := (m.inner (m.sid owner)).toList.map (fun i => ⟨task, owner, i, m.connected i⟩) ++
      m.removals }

inductive Op
  | post (sid : String)
  | get (sid : String)
  | mark (i : Nat)
  | expire (i : Nat)
  | notified (i : Nat)
  | remove (task : Task) (i : Nat)

/-- A task takes its step and leaves `next` behind. -/
def advance (m : SessionMap) (task : Task × Nat) (next : List (Task × Nat)) : SessionMap :=
  { m with tasks := next ++ m.tasks.erase task }

def step (m : SessionMap) : Op → SessionMap
  | .post sid => (m.upsert sid).1
  | .get sid =>
    let (m, i) := m.upsert sid
    { m with tasks := (.mark, i) :: m.tasks }
  | .mark i =>
    if (.mark, i) ∈ m.tasks then
      { m.advance (.mark, i) [(.guard, i), (.forward, i)] with
        connected := update m.connected i true }
    else m
  | .expire i => if (.timer, i) ∈ m.tasks then m.advance (.timer, i) [(.reap, i)] else m
  | .notified i =>
    if (.timer, i) ∈ m.tasks ∧ m.connected i = true then m.advance (.timer, i) [] else m
  | .remove task i =>
    if (task, i) ∈ m.tasks ∧ task ∈ [.reap, .guard, .forward] then
      (m.remove task i).advance (task, i) []
    else m

/-- No session is made under an id that a task still has to remove, no timer runs out while a GET
has the session, and no GET gets a session whose timer has run out. -/
def Orderly (m : SessionMap) : Op → Prop
  | .post sid => m.inner sid = none → ∀ t ∈ m.tasks, m.sid t.2 ≠ sid
  | .get sid => (m.inner sid = none → ∀ t ∈ m.tasks, m.sid t.2 ≠ sid) ∧
    ∀ i ∈ m.inner sid, (.reap, i) ∉ m.tasks
  | .expire i => m.connected i = false ∧ (.mark, i) ∉ m.tasks
  | _ => True

instance (m : SessionMap) (op : Op) : Decidable (m.Orderly op) := by
  cases op <;> unfold Orderly <;> infer_instance

structure Sound (m : SessionMap) : Prop where
  inner : ∀ sid i, m.inner sid = some i → i < m.made ∧ m.sid i = sid
  own : ∀ t ∈ m.tasks, t.2 < m.made ∧ ∀ i, m.inner (m.sid t.2) = some i → i = t.2
  reap : ∀ i, (.reap, i) ∈ m.tasks → m.connected i = false ∧ (.mark, i) ∉ m.tasks
  removals : ∀ r ∈ m.removals, r.Own

theorem Sound.upsert {sid : String} (h : m.Sound)
    (hf : m.inner sid = none → ∀ t ∈ m.tasks, m.sid t.2 ≠ sid) : (m.upsert sid).1.Sound := by
  unfold SessionMap.upsert
  split
  · exact h
  · next hn =>
    have hf := hf hn
    refine ⟨?_, ?_, ?_, h.removals⟩
    · intro sid' i
      have := h.inner sid' i
      grind [update_apply]
    · intro t
      have := h.own t
      grind [update_apply]
    · intro i
      have := h.reap i
      grind

theorem inner_upsert (m : SessionMap) (sid : String) :
    (m.upsert sid).1.inner sid = some (m.upsert sid).2 := by
  unfold SessionMap.upsert
  split
  · assumption
  · exact update_self ..

theorem Sound.not_reap_upsert {sid : String} (h : m.Sound)
    (hr : ∀ i ∈ m.inner sid, (.reap, i) ∉ m.tasks) :
    (.reap, (m.upsert sid).2) ∉ (m.upsert sid).1.tasks := by
  unfold SessionMap.upsert
  split
  · next i hi => exact hr i hi
  · have := h.own (.reap, m.made)
    simp
    grind

theorem Sound.advance (h : m.Sound) (ht : (task, i) ∈ m.tasks) (hn : ∀ n ∈ next, n.2 = i ∧
      n.1 ≠ .mark ∧ (n.1 = .reap → m.connected i = false ∧ (.mark, i) ∉ m.tasks)) :
    (m.advance (task, i) next).Sound := by
  have hsub {t : Task × Nat} (h : t ∈ m.tasks.erase (task, i)) : t ∈ m.tasks := mem_of_mem_erase h
  refine ⟨h.inner, ?_, ?_, h.removals⟩
  · intro t hm
    rcases mem_append.mp hm with hm | hm
    · rw [(hn t hm).1]
      exact h.own _ ht
    · exact h.own t (hsub hm)
  · intro j hm
    have hj : m.connected j = false ∧ (.mark, j) ∉ m.tasks := by
      rcases mem_append.mp hm with hm | hm
      · have := hn _ hm
        grind
      · exact h.reap j (hsub hm)
    refine ⟨hj.1, fun hm => ?_⟩
    rcases mem_append.mp hm with hm | hm
    · exact (hn _ hm).2.1 rfl
    · exact hj.2 (hsub hm)

theorem Sound.remove (h : m.Sound) (ht : (task, i) ∈ m.tasks) : (m.remove task i).Sound := by
  have hold {sid : String} {j : Nat} (hj : (m.remove task i).inner sid = some j) :
      m.inner sid = some j := by
    simp only [SessionMap.remove, update_apply] at hj
    grind
  refine ⟨fun sid j hj => h.inner sid j (hold hj), fun t hm => ⟨(h.own t hm).1, fun j hj =>
    (h.own t hm).2 j (hold hj)⟩, h.reap, ?_⟩
  intro r hr
  rcases mem_append.mp hr with hr | hr
  · obtain ⟨j, hj, rfl⟩ := mem_map.mp hr
    obtain rfl := (h.own _ ht).2 j (Option.mem_toList.mp hj)
    exact ⟨rfl, by rintro rfl; exact (h.reap j ht).1⟩
  · exact h.removals r hr

theorem Sound.step (h : m.Sound) (op : Op) (ho : m.Orderly op) : (m.step op).Sound := by
  cases op with
  | post sid => exact h.upsert ho
  | get sid =>
    obtain ⟨hinner, hown, hreap, hremovals⟩ := h.upsert ho.1
    have hi := m.inner_upsert sid
    have hsid := hinner _ _ hi
    have hr := h.not_reap_upsert ho.2
    refine ⟨hinner, forall_mem_cons.mpr ⟨⟨hsid.1, fun j hj => ?_⟩, hown⟩, fun j hj => ?_, hremovals⟩
    · change (m.upsert sid).1.inner ((m.upsert sid).1.sid (m.upsert sid).2) = some j at hj
      rw [hsid.2, hi] at hj
      exact (Option.some.inj hj).symm
    · have := hreap j
      simp only [SessionMap.step, mem_cons] at hj ⊢
      grind
  | mark i =>
    simp only [SessionMap.step]
    split
    next ht =>
      obtain ⟨hinner, hown, hreap, hremovals⟩ :
          (m.advance (.mark, i) [(.guard, i), (.forward, i)]).Sound := h.advance ht (by simp)
      refine ⟨hinner, hown, fun j hj => ?_, hremovals⟩
      have hne : j ≠ i := by
        rintro rfl
        exact (h.reap j (by simpa [SessionMap.advance] using hj)).2 ht
      simpa [SessionMap.advance, update_of_ne hne] using hreap j hj
    next => exact h
  | expire i =>
    simp only [SessionMap.step]
    split
    next ht => exact h.advance ht (by simpa [Orderly] using ho)
    next => exact h
  | notified i =>
    simp only [SessionMap.step]
    split
    next ht => exact h.advance ht.1 (by simp)
    next => exact h
  | remove task i =>
    simp only [SessionMap.step]
    split
    next ht => exact (h.remove ht.1).advance ht.1 (by simp)
    next => exact h

/-- In an orderly run every task removes its own session or none, and no timer one that was marked.
-/
theorem removes_own (ops : List Op) (h : Guarded step Orderly new ops) :
    Throughout step (fun m => ∀ r ∈ m.removals, r.Own) new ops := by
  have hs : Throughout step Sound new ops :=
    h.throughout ⟨nofun, nofun, nofun, nofun⟩ fun m op hm ho => hm.step op ho
  exact hs.mono fun m hm => hm.removals

theorem removes_own_again : Throughout step (fun m => ∀ r ∈ m.removals, r.Own) new
    [.post "s", .get "s", .mark 0, .notified 0, .remove .guard 0, .remove .forward 0, .post "s"] :=
  removes_own _ (by decide)

/-- A forwarding task that ends after its session's guard closes the session made since, and a timer
that has run out removes the session a GET has marked since. -/
theorem removes_other :
    (runs step new [.get "s", .mark 0, .remove .guard 0, .post "s", .remove .forward 0]).removals =
      [⟨.forward, 0, 1, false⟩, ⟨.guard, 0, 0, true⟩] ∧
    (runs step new [.post "s", .expire 0, .get "s", .mark 0, .remove .reap 0]).removals =
      [⟨.reap, 0, 0, true⟩] := by
  decide

end SessionMap

end XrayCore.SplitHttp
