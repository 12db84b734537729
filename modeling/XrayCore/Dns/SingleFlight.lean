import Mathlib.Data.Set.Subsingleton
import XrayCore.Lib.Runs

/-!
# Single flight

Concurrent fetches of one key share the query of a leader, which stands in a map behind a
lock. The leader's guard takes the entry out when it is dropped, at the end of the query or
when the task is cancelled. A drop cannot wait: it only tries the lock.
-/

namespace XrayCore.Dns.SingleFlight

open Lib

abbrev Key := String × Bool × Bool

/-- A fetch. A leader makes one channel, which is named after its task. -/
abbrev Task := Nat

/-- Where a fetch stands. Each is an await point or a section under the lock. -/
inductive Phase
  | idle
  /-- Queued at `single_flight.lock().await`. -/
  | queued (key : Key)
  /-- The lock is the task's. It has been handed over or is being used. -/
  | granted (key : Key)
  /-- A waiter at `rx.recv()` of the leader's channel. -/
  | waiting (leader : Task)
  /-- A waiter whose time ran out or whose channel closed sends its own query. -/
  | asking
  /-- A leader at `send_query`, with its guard. -/
  | leading (key : Key)
  /-- The guard is being dropped, under the lock. -/
  | removing (key : Key)
  | ended
  deriving DecidableEq

structure State where
  map : Key → Option Task
  lock : Option Task
  phase : Task → Phase

def State.initial : State := ⟨fun _ => none, none, fun _ => .idle⟩

inductive Event
  | fetch (task : Task) (key : Key)
  | acquire (task : Task)
  /-- The section of `fetch`: look the key up, join its leader or become one, unlock. -/
  | look (task : Task)
  /-- A waiter gets the outcome, or its query is answered. -/
  | answered (task : Task)
  /-- A waiter's time runs out, or the channel closes. -/
  | alone (task : Task)
  /-- A leader's guard is dropped: the query is answered, or the task is cancelled. -/
  | leave (task : Task)
  /-- The section of `remove_sf_entry`. -/
  | remove (task : Task)
  /-- A task that is not a leader is dropped at an await point. -/
  | cancel (task : Task)
  deriving DecidableEq

namespace State

def goto (s : State) (task : Task) (phase : Phase) : State :=
  { s with phase := Function.update s.phase task phase }

def lookUp (s : State) (task : Task) (key : Key) : State :=
  match s.map key with
  | some leader => { s with lock := none }.goto task (.waiting leader)
  | none =>
    { s with map := Function.update s.map key (some task), lock := none }.goto task (.leading key)

def removeEntry (s : State) (task : Task) (key : Key) : State :=
  { s with
    map := if s.map key = some task then Function.update s.map key none else s.map
    lock := none }.goto task .ended

def step (s : State) : Event → State
  | .fetch t key => if s.phase t = .idle then s.goto t (.queued key) else s
  | .acquire t =>
    match s.phase t, s.lock with
    | .queued key, none => { s with lock := some t }.goto t (.granted key)
    | _, _ => s
  | .look t =>
    match s.phase t with
    | .granted key => s.lookUp t key
    | _ => s
  | .answered t =>
    match s.phase t with
    | .waiting _ => s.goto t .ended
    | .asking => s.goto t .ended
    | _ => s
  | .alone t =>
    match s.phase t with
    | .waiting _ => s.goto t .asking
    | _ => s
  | .leave t =>
    match s.phase t, s.lock with
    | .leading key, none => { s with lock := some t }.goto t (.removing key)
    -- `try_lock` fails
    | .leading _, some _ => s.goto t .ended
    | _, _ => s
  | .remove t =>
    match s.phase t with
    | .removing key => s.removeEntry t key
    | _ => s
  | .cancel t =>
    match s.phase t with
    | .queued _ => s.goto t .ended
    | .granted _ => { s with lock := none }.goto t .ended
    | .waiting _ => s.goto t .ended
    | .asking => s.goto t .ended
    | _ => s

end State

/-- The task leads the fetches of the key: its guard is there, or is just being dropped. -/
@[simp] def Phase.Leads (key : Key) : Phase → Prop
  | leading k => k = key
  | removing k => k = key
  | _ => False

inductive Moves (s : State) (e : Event) : State → Prop
  | stays : Moves s e s
  /-- A task that leads nothing goes on, and may take or free the lock. -/
  | walks (t : Task) (phase : Phase) (lock : Option Task) (hold : ∀ k, ¬(s.phase t).Leads k)
      (hnew : ∀ k, ¬phase.Leads k) : Moves s e ({ s with lock := lock }.goto t phase)
  | leads (t : Task) (key : Key) (hold : ∀ k, ¬(s.phase t).Leads k) (absent : s.map key = none) :
      Moves s e ({ s with map := Function.update s.map key (some t), lock := none }.goto t
        (.leading key))
  | leaves (t : Task) (key : Key) (hphase : s.phase t = .leading key) (free : s.lock = none) :
      Moves s e ({ s with lock := some t }.goto t (.removing key))
  | leaks (t : Task) (key : Key) (he : e = .leave t) (hphase : s.phase t = .leading key)
      (taken : s.lock ≠ none) : Moves s e (s.goto t .ended)
  | removes (t : Task) (key : Key) (hphase : s.phase t = .removing key) :
      Moves s e (s.removeEntry t key)

open State

theorem step_moves (s : State) (e : Event) : Moves s e (s.step e) := by
  cases e with
  | fetch t key =>
    simp only [step]
    split
    · exact .walks t _ s.lock (by simp [*]) (by simp)
    · exact .stays
  | acquire t =>
    simp only [step]
    split
    · exact .walks t _ (some t) (by simp [*]) (by simp)
    · exact .stays
  | look t =>
    simp only [step]
    split
    · unfold lookUp
      split
      · exact .walks t _ none (by simp [*]) (by simp)
      · exact .leads t _ (by simp [*]) ‹_›
    · exact .stays
  | answered t =>
    simp only [step]
    split
    · exact .walks t _ s.lock (by simp [*]) (by simp)
    · exact .walks t _ s.lock (by simp [*]) (by simp)
    · exact .stays
  | alone t =>
    simp only [step]
    split
    · exact .walks t _ s.lock (by simp [*]) (by simp)
    · exact .stays
  | leave t =>
    simp only [step]
    split
    · exact .leaves t _ ‹_› ‹_›
    · exact .leaks t _ rfl ‹_› (by simp [*])
    · exact .stays
  | remove t =>
    simp only [step]
    split
    · exact .removes t _ ‹_›
    · exact .stays
  | cancel t =>
    simp only [step]
    split
    · exact .walks t _ s.lock (by simp [*]) (by simp)
    · exact .walks t _ none (by simp [*]) (by simp)
    · exact .walks t _ s.lock (by simp [*]) (by simp)
    · exact .walks t _ s.lock (by simp [*]) (by simp)
    · exact .stays

/-- The entry of a leader stays until its own guard takes it out: one is only made where there is
none, and `same_channel` keeps other guards off it. -/
def Entered (s : State) : Prop := ∀ t key, (s.phase t).Leads key → s.map key = some t

def NoLeak (s : State) : Prop := ∀ key t, s.map key = some t → (s.phase t).Leads key

def LeavesUnlocked (s : State) (e : Event) : Prop :=
  ∀ t key, e = .leave t → s.phase t = .leading key → s.lock = none

variable {s : State}

theorem entered_step (h : Entered s) (e : Event) : Entered (s.step e) := by
  have hm := step_moves s e
  generalize s.step e = s' at hm
  intro t' key' hl
  cases hm with
  | stays => exact h t' key' hl
  | walks t p lock hold hnew =>
    rcases eq_or_ne t' t with rfl | hne
    · exact absurd hl (by simpa [goto] using hnew key')
    · exact h t' key' (by simpa [goto, hne] using hl)
  | leads t key hold a =>
    rcases eq_or_ne t' t with rfl | hne
    · obtain rfl : key = key' := by simpa [goto] using hl
      simp [goto]
    have hma := h t' key' (by simpa [goto, hne] using hl)
    have hk : key' ≠ key := by
      rintro rfl
      simp [a] at hma
    simpa [goto, hk] using hma
  | leaves t key hphase free =>
    rcases eq_or_ne t' t with rfl | hne
    · exact h t' key' (by simpa [goto, hphase] using hl)
    · exact h t' key' (by simpa [goto, hne] using hl)
  | leaks t key he hphase ta =>
    rcases eq_or_ne t' t with rfl | hne
    · simp [goto] at hl
    · exact h t' key' (by simpa [goto, hne] using hl)
  | removes t key hphase =>
    rcases eq_or_ne t' t with rfl | hne
    · simp [removeEntry, goto] at hl
    have hma := h t' key' (by simpa [removeEntry, goto, hne] using hl)
    have ho := h t key (by simp [hphase])
    have hk : key' ≠ key := by
      rintro rfl
      exact hne (Option.some.inj (hma.symm.trans ho))
    simpa [removeEntry, goto, ho, hk] using hma

theorem noLeak_step (hin : Entered s) (h : NoLeak s)
    (hok : LeavesUnlocked s e) : NoLeak (s.step e) := by
  have hm := step_moves s e
  generalize s.step e = s' at hm
  intro key' t' hma
  cases hm with
  | stays => exact h key' t' hma
  | walks t p lock hold hnew =>
    have hl := h key' t' hma
    rcases eq_or_ne t' t with rfl | hne
    · exact absurd hl (hold key')
    · simpa [goto, hne] using hl
  | leads t key hold a =>
    rcases eq_or_ne key' key with rfl | hk
    · obtain rfl : t = t' := by simpa [goto] using hma
      simp [goto]
    have hl := h key' t' (by simpa [goto, hk] using hma)
    rcases eq_or_ne t' t with rfl | hne
    · exact absurd hl (hold key')
    · simpa [goto, hne] using hl
  | leaves t key hphase free =>
    have hl := h key' t' hma
    rcases eq_or_ne t' t with rfl | hne
    · simpa [goto, hphase] using hl
    · simpa [goto, hne] using hl
  | leaks t key he hphase ta => exact absurd (hok t key he hphase) ta
  | removes t key hphase =>
    have ho := hin t key (by simp [hphase])
    have hk : key' ≠ key := by
      rintro rfl
      simp [removeEntry, goto, ho] at hma
    have hl := h key' t' (by simpa [removeEntry, goto, ho, hk] using hma)
    rcases eq_or_ne t' t with rfl | hne
    · exact absurd (by simpa [hphase] using hl) hk.symm
    · simpa [removeEntry, goto, hne] using hl

theorem noLeak_step_iff (hin : Entered s) (h : NoLeak s) (e : Event) :
    NoLeak (s.step e) ↔ LeavesUnlocked s e := by
  refine ⟨fun hn => ?_, noLeak_step hin h⟩
  rintro t key rfl hphase
  by_contra ht
  obtain ⟨holder, hl⟩ := Option.ne_none_iff_exists'.mp ht
  have hs : s.step (.leave t) = s.goto t .ended := by simp [step, hphase, hl]
  have hle := hn key t (by rw [hs]; exact hin t key (by simp [hphase]))
  simp [hs, goto] at hle

theorem NoLeak.map_eq_none (h : NoLeak s)
    (he : ∀ t, s.phase t = .idle ∨ s.phase t = .ended) (key : Key) : s.map key = none := by
  by_contra hsome
  obtain ⟨t, ht⟩ := Option.ne_none_iff_exists'.mp hsome
  have hl := h key t ht
  rcases he t with hphase | hphase <;> simp [hphase] at hl

theorem NoLeak.joins_leader (h : NoLeak s)
    (hphase : s.phase t = .granted key) (hw : (s.step (.look t)).phase t = .waiting leader) :
    (s.phase leader).Leads key := by
  refine h key leader ?_
  simp only [step, hphase, lookUp] at hw
  split at hw
  · rename_i l hm
    simp only [goto, Function.update_self, Phase.waiting.injEq] at hw
    rw [hm, hw]
  · simp [goto] at hw

/-- All along a run every entry belongs to a leader in flight, so that the map is empty whenever
no fetch is left and a fetch only joins a leader in flight, exactly if no leader's guard is
dropped while the lock is taken. -/
theorem noLeak_iff (events : List Event) : Throughout step (fun s => NoLeak s ∧
          ((∀ t, s.phase t = .idle ∨ s.phase t = .ended) → ∀ key, s.map key = none) ∧
          ∀ t key leader, s.phase t = .granted key →
            (s.step (.look t)).phase t = .waiting leader → (s.phase leader).Leads key)
        .initial events ↔ Guarded step LeavesUnlocked .initial events := by
  have hiff : Throughout step NoLeak .initial events ↔
      Guarded step LeavesUnlocked .initial events := by
    refine throughout_iff_guarded (R := fun s _ => Entered s) ?_ ?_ ?_ ?_
    · intro t key hlead
      simp [initial] at hlead
    · intro key t hmap
      simp [initial] at hmap
    · intro s e events hin
      exact entered_step hin e
    · intro s e events hin h
      exact noLeak_step_iff hin h e
  rw [← hiff]
  refine ⟨fun h => h.mono fun s hs => hs.1, fun h => h.mono fun s hs => ⟨hs, hs.map_eq_none, ?_⟩⟩
  exact fun t key leader => hs.joins_leader

/-- However fetches, waiters and cancellations interleave, no key has two leaders at a time, also
after an entry was left behind. -/
theorem one_leader (events : List Event) (key : Key) :
    { t | ((runs step .initial events).phase t).Leads key }.Subsingleton := by
  have hstart : Entered .initial := by
    intro t key hlead
    simp [initial] at hlead
  have hentered := runs_invariant hstart (fun s e h => entered_step h e) events
  intro t ht t' ht'
  exact Option.some.inj ((hentered t key ht).symm.trans (hentered t' key ht'))

/-- While one fetch has the lock the leader of another key is cancelled. Both have ended, and a
later fetch waits for the leader that is gone. -/
theorem cancelled_leader_leaks :
    let key : Key := ("example.com.", true, true)
    let other : Key := ("example.org.", true, true)
    let s := runs step .initial
      [.fetch 0 key, .acquire 0, .look 0, .fetch 1 other, .acquire 1, .leave 0, .look 1,
        .leave 1, .remove 1]
    let s' := runs step s [.fetch 2 key, .acquire 2, .look 2]
    (s.phase 0 = .ended ∧ s.phase 1 = .ended ∧ s.map key = some 0) ∧ s'.phase 2 = .waiting 0 := by
  decide +kernel

end XrayCore.Dns.SingleFlight
