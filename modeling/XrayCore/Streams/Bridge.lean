import XrayCore.Lib.BigEndian

/-!
# The idle timers of a bridge

Time goes in ticks. Each direction has a timer of its own, which only its own data sets back.
-/

namespace XrayCore.Streams

open Lib List

structure TimeoutPolicy where
  connectionIdle : Nat
  uplinkOnly : Nat
  downlinkOnly : Nat

/-- A direction: for how long its reader has waited, its window once the other one is done, for how
long it has been done itself, and what it forwarded. -/
structure Direction where
  waited : Nat := 0
  window : Option Nat := none
  done : Option Nat := none
  forwarded : Bytes := []

/-- A tick of a loop. `lag` is what shutting the writer down takes before the other side hears of
it, and data at the deadline is read. -/
def Direction.tick (idle only lag : Nat) (d other : Direction) (data : Option Bytes) : Direction :=
  match d.done with
  | some n => { d with done := some (n + 1) }
  | none =>
    let d := if d.window = none ∧ other.done.any (lag ≤ ·) then
      { d with window := some only, waited := 0 } else d
    match data with
    | some bytes => { d with waited := 0, forwarded := d.forwarded ++ bytes }
    | none =>
      if d.waited + 1 < d.window.getD idle then { d with waited := d.waited + 1 }
      else { d with done := some 0 }

abbrev Traffic := List (Option Bytes × Option Bytes)

structure Bridge where
  up : Direction := {}
  down : Direction := {}

def Bridge.tick (policy : TimeoutPolicy) (lag : Nat) (b : Bridge)
    (data : Option Bytes × Option Bytes) : Bridge where
  up := b.up.tick policy.connectionIdle policy.uplinkOnly lag b.down data.1
  down := b.down.tick policy.connectionIdle policy.downlinkOnly lag b.up data.2

/-- `bridge_link_with_stream_full` without a lag, `bridge_link_with_link` with one. -/
def Bridge.run (policy : TimeoutPolicy) (lag : Nat) (ticks : Traffic) (b : Bridge) : Bridge :=
  ticks.foldl (Bridge.tick policy lag) b

def Lively (idle : Nat) : Nat → List (Option Bytes) → Prop
  | _, [] => True
  | _, some _ :: ticks => Lively idle 0 ticks
  | waited, none :: ticks => waited + 1 < idle ∧ Lively idle (waited + 1) ticks

def Direction.Runs (d : Direction) : Prop := d.done = none ∧ d.window = none

def Bridge.Open (b b' : Bridge) (ticks : Traffic) : Prop :=
  b'.up.done = none ∧ b'.down.done = none ∧
    b'.up.forwarded = b.up.forwarded ++ ticks.flatMap (·.1.getD []) ∧
    b'.down.forwarded = b.down.forwarded ++ ticks.flatMap (·.2.getD [])

variable {policy : TimeoutPolicy} {lag : Nat} {b : Bridge} {d other : Direction}

open Direction

theorem Direction.tick_done (h : d.done ≠ none) : (d.tick idle only lag other data).done ≠ none := by
  obtain ⟨n, hn⟩ := Option.ne_none_iff_exists'.mp h
  simp [tick, hn]

theorem Bridge.run_done (ticks : Traffic) (b : Bridge) (h : b.up.done ≠ none ∨ b.down.done ≠ none) :
    (b.run policy lag ticks).up.done ≠ none ∨ (b.run policy lag ticks).down.done ≠ none := by
  induction ticks generalizing b with
  | nil => exact h
  | cons data ticks ih =>
    exact ih _ (h.imp tick_done tick_done)

theorem Direction.tick_runs (only lag : Nat) (hd : d.Runs) (ho : other.done = none) (data : Option Bytes)
    (ticks : List (Option Bytes)) : let d' := d.tick idle only lag other data
    (d'.Runs ∧ d'.forwarded = d.forwarded ++ data.getD [] ∧
      (Lively idle d.waited (data :: ticks) ↔ Lively idle d'.waited ticks)) ∨
    (d'.done ≠ none ∧ ¬ Lively idle d.waited (data :: ticks)) := by
  cases data with
  | some bytes => simp [tick, Direction.Runs, Lively, hd.1, hd.2, ho]
  | none =>
    by_cases hw : d.waited + 1 < idle <;>
      simp [tick, Direction.Runs, Lively, hd.1, hd.2, ho, hw]

theorem Bridge.open_iff (ticks : Traffic) (b : Bridge) (hu : b.up.Runs) (hd : b.down.Runs) :
    b.Open (b.run policy lag ticks) ticks ↔
      Lively policy.connectionIdle b.up.waited (ticks.map (·.1)) ∧
        Lively policy.connectionIdle b.down.waited (ticks.map (·.2)) := by
  induction ticks generalizing b with
  | nil => simp [Bridge.Open, Bridge.run, Lively, hu.1, hd.1]
  | cons data ticks ih =>
    have hended : ∀ b' : Bridge, b'.up.done ≠ none ∨ b'.down.done ≠ none →
        ¬ b.Open (b'.run policy lag ticks) (data :: ticks) := by
      intro b' hb ho
      exact (Bridge.run_done ticks b' hb).elim (· ho.1) (· ho.2.1)
    have hrun : b.run policy lag (data :: ticks) = (b.tick policy lag data).run policy lag ticks := rfl
    rw [hrun, map_cons, map_cons]
    rcases tick_runs policy.uplinkOnly lag hu hd.1 data.1 (ticks.map (·.1)) with
      ⟨hu', hfu, hlu⟩ | ⟨hu', hlu⟩
    · rcases tick_runs policy.downlinkOnly lag hd hu.1 data.2 (ticks.map (·.2)) with
        ⟨hd', hfd, hld⟩ | ⟨hd', hld⟩
      · rw [hlu, hld]
        refine Iff.trans ?_ (ih (b.tick policy lag data) hu' hd')
        simp [Bridge.Open, Bridge.tick, hfu, hfd]
      · exact iff_of_false (hended _ (.inr hd')) fun h => hld h.2
    · exact iff_of_false (hended _ (.inl hu')) fun h => hlu h.1

theorem bridge_open_iff (policy : TimeoutPolicy) (lag : Nat) (ticks : Traffic) :
    Bridge.Open {} (Bridge.run policy lag ticks {}) ticks ↔
      Lively policy.connectionIdle 0 (ticks.map (·.1)) ∧
        Lively policy.connectionIdle 0 (ticks.map (·.2)) :=
  Bridge.open_iff ticks {} ⟨rfl, rfl⟩ ⟨rfl, rfl⟩

theorem download_ended :
    let ticks := [(none, some [1]), (none, some [2]), (some [7], some [3])]
    Lively 2 0 (ticks.map fun tick => tick.1.or tick.2) ∧
      (Bridge.run ⟨2, 1, 1⟩ 0 ticks {}).up.done = some 1 ∧
      (Bridge.run ⟨2, 1, 1⟩ 0 ticks {}).up.forwarded = [] := by
  simp [Lively, Bridge.run, Bridge.tick, tick]

end XrayCore.Streams
