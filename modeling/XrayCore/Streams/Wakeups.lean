import XrayCore.Vless.CommonConn
import XrayCore.Vless.XorConn

/-!
# Wake-ups of the stream wrappers

A wrapper whose poll is `Pending` must have polled something that was pending itself: only then will
the task be woken. `CommonConn` keeps to that. `XorConn`, `FragmentConnection` and `DelayDialConn`
return `Pending` at one point each where nothing was pending.
-/

namespace XrayCore.Streams

open Lib

inductive StreamError
  | writeZero
  | closed
  | dialFailed
  | notRecorded
  | inner
  deriving DecidableEq

/-- What a poll returns and leaves behind, and whether something it polled was pending. -/
structure Polled (σ α : Type) where
  result : PollResult StreamError α
  state : σ
  pended : Bool

def handOn (s : σ) : Answer → Polled σ Nat
  | .pending => ⟨.pending, s, true⟩
  | .ready n => ⟨.ready n, s, false⟩
  | .failed => ⟨.failed .inner, s, false⟩

structure FragmentConnection where
  count : Nat
  /-- Pieces, and whether there is a pause behind them. -/
  queue : List (Bytes × Bool)
  current : Option (Bytes × Nat × Bool)
  sleep : Bool
  accepted : Nat

namespace FragmentConnection

def busy (s : FragmentConnection) : Bool := !s.queue.isEmpty || s.current.isSome || s.sleep

def reset (s : FragmentConnection) : FragmentConnection := ⟨s.count, [], none, false, 0⟩

/-- The pause goes on, or there is nothing left to write, or a piece is the current one. -/
inductive Turn
  | pauses
  | done
  | writes (data : Bytes) (off : Nat) (sleepAfter : Bool) (queue : List (Bytes × Bool))

/-- `elapsed` is what the timer says if it is asked. -/
def turn (s : FragmentConnection) (elapsed : Bool) : Turn :=
  if s.sleep && !elapsed then .pauses
  else
    match s.current, s.queue with
    | some (data, off, sleepAfter), queue => .writes data off sleepAfter queue
    | none, (data, sleepAfter) :: queue => .writes data 0 sleepAfter queue
    | none, [] => .done

def drive (s : FragmentConnection) (answers : List (Bool × Answer)) :
    Polled FragmentConnection Nat :=
  match s.turn (answers.head?.elim false Prod.fst) with
  | .pauses => ⟨.pending, s, true⟩
  | .done => ⟨.ready s.accepted, { s with sleep := false, accepted := 0 }, false⟩
  | .writes data off sleepAfter queue =>
    let s := { s with sleep := false, queue := queue, current := some (data, off, sleepAfter) }
    match answers with
    | [] => ⟨.pending, s, true⟩
    | (_, .pending) :: _ => ⟨.pending, s, true⟩
    | (_, .failed) :: _ => ⟨.failed .inner, s.reset, false⟩
    | (_, .ready n) :: answers =>
      if n = 0 ∧ off < data.length then ⟨.failed .writeZero, s.reset, false⟩
      else if data.length ≤ off + n then
        drive { s with current := none, sleep := sleepAfter } answers
      else drive { s with current := some (data, off + n, sleepAfter) } answers

/-- `plan` is `build_pieces`, which draws lengths. -/
def pollWrite (plan : Nat → Bytes → Option (List (Bytes × Bool))) (s : FragmentConnection)
    (buf : Bytes) (answers : List (Bool × Answer)) : Polled FragmentConnection Nat :=
  if s.busy then s.drive answers
  else if buf = [] then ⟨.ready 0, s, false⟩
  else { s with
    count := s.count + 1
    accepted := buf.length
    queue := (plan (s.count + 1) buf).getD [(buf, false)] }.drive answers

def pollRead (s : FragmentConnection) (inner : Answer) : Polled FragmentConnection Nat :=
  handOn s inner

def pollFlush (s : FragmentConnection) (inner : Answer) : Polled FragmentConnection Nat :=
  handOn s inner

def pollShutdown (s : FragmentConnection) (inner : Answer) : Polled FragmentConnection Nat :=
  if s.busy then ⟨.pending, s, false⟩ else handOn s inner

end FragmentConnection

inductive Dial
  | pending
  | failed
  | connected
  deriving DecidableEq

structure DelayDialConn where
  ed : Nat
  joining : Bool
  conn : Bool
  firstWrite : Option (Nat × Bool)
  closed : Bool

namespace DelayDialConn

def pollDial (s : DelayDialConn) (dial : Dial) : Polled DelayDialConn Unit :=
  if s.conn then ⟨.ready (), s, false⟩
  else if !s.joining then ⟨.pending, s, false⟩
  else
    match dial with
    | .pending => ⟨.pending, s, true⟩
    | .failed => ⟨.failed .dialFailed, { s with closed := true }, false⟩
    | .connected => ⟨.ready (), { s with conn := true, joining := false }, false⟩

def pollRead (s : DelayDialConn) (dial : Dial) (inner : Answer) : Polled DelayDialConn Nat :=
  if s.closed then ⟨.failed .closed, s, false⟩
  else
    match s.pollDial dial with
    | ⟨.pending, s, pended⟩ => ⟨.pending, s, pended⟩
    | ⟨.failed e, s, pended⟩ => ⟨.failed e, s, pended⟩
    | ⟨.ready (), s, _⟩ => handOn s inner

def pollWrite (s : DelayDialConn) (buf : Bytes) (dial : Dial) (inner : Answer) :
    Polled DelayDialConn Nat :=
  if s.closed then ⟨.failed .closed, s, false⟩
  else if s.conn then handOn s inner
  else
    let s := if s.joining then s
      else { s with joining := true, firstWrite := some (buf.length, decide (buf.length ≤ s.ed)) }
    match s.pollDial dial with
    | ⟨.pending, s, pended⟩ => ⟨.pending, s, pended⟩
    | ⟨.failed e, s, pended⟩ => ⟨.failed e, s, pended⟩
    | ⟨.ready (), s, pended⟩ =>
      match s.firstWrite with
      | none => ⟨.failed .notRecorded, s, pended⟩
      | some (len, true) => ⟨.ready len, { s with firstWrite := none }, pended⟩
      | some (_, false) => handOn { s with firstWrite := none } inner

def pollFlush (s : DelayDialConn) (inner : Answer) : Polled DelayDialConn Nat :=
  if s.conn then handOn s inner else ⟨.ready 0, s, false⟩

def pollShutdown (s : DelayDialConn) (inner : Answer) : Polled DelayDialConn Nat :=
  if s.closed then ⟨.ready 0, s, false⟩
  else if s.conn then handOn s inner
  else ⟨.ready 0, { s with closed := true, joining := false }, false⟩

end DelayDialConn

def Registers (result : PollResult ε α) (pended : Prop) : Prop := result = .pending → pended

def Polled.Wakes (p : Polled σ α) : Prop := Registers p.result (p.pended = true)

@[simp] theorem wakes_handOn (s : σ) (inner : Answer) : (handOn s inner).Wakes := by
  cases inner <;> simp [handOn, Polled.Wakes, Registers]

theorem wakes_drive (s : FragmentConnection) (ans : List (Bool × Answer)) :
    (s.drive ans).Wakes := by
  fun_induction FragmentConnection.drive s ans
  case case7 ih => exact ih
  case case8 ih => exact ih
  all_goals simp [Polled.Wakes, Registers]

theorem wakes_pollDial (s : DelayDialConn) (dial : Dial) :
    (s.pollDial dial).Wakes ↔ s.conn = true ∨ s.joining = true := by
  rw [DelayDialConn.pollDial.eq_def]
  cases s.conn <;> cases s.joining <;> cases dial <;> simp [Polled.Wakes, Registers]

open Vless.Encryption

def CommonConn.pollFlush (w : WriteHalf) (inner : Answer) : Polled WriteHalf Nat := handOn w inner

def CommonConn.pollShutdown (w : WriteHalf) (inner : Answer) : Polled WriteHalf Nat :=
  handOn w inner

def XorWakes (p : XorStep α) : Prop := Registers p.result (p.pended = true)

def ShortDrain (conn : XorConn) (answers : List Answer) : Prop :=
  ∃ sent e n rest, conn.writePending = some (sent, e) ∧ answers = .ready n :: rest ∧ 0 < n ∧
    sent + n < e

theorem wakes_drainPending (conn : XorConn) (answers : List Answer) :
    XorWakes (conn.drainPending answers).1 ↔ ¬ShortDrain conn answers := by
  rw [XorConn.drainPending]
  split
  · next hn => simp [XorWakes, Registers, ShortDrain, hn]
  · next sent e hsome =>
    split
    · simp [XorWakes, Registers, ShortDrain]
    · simp [XorWakes, Registers, ShortDrain]
    · simp [XorWakes, Registers, ShortDrain]
    · next n rest =>
      have hi : ShortDrain conn (.ready n :: rest) ↔ 0 < n ∧ sent + n < e := by
        simp [ShortDrain, hsome]
      rw [hi]
      split
      · simp [XorWakes, Registers, *]
      split
      · simp [XorWakes, Registers, *]
      · simp [XorWakes, Registers]
        omega

theorem wakes_drainThen (conn : XorConn) (answers : List Answer) (inner : Answer) :
    XorWakes (conn.drainThen answers inner) ↔ ¬ShortDrain conn answers := by
  rw [← wakes_drainPending, XorConn.drainThen.eq_def]
  dsimp only
  split
  · next hr => cases inner <;> simp [XorWakes, Registers, hr]
  · rfl

theorem wakes_pollWrite (ks : Keystream) (conn : XorConn) (buf : Bytes) (answers : List Answer) :
    XorWakes (conn.pollWrite ks buf answers) ↔ ¬ShortDrain conn answers := by
  rw [← wakes_drainPending, XorConn.pollWrite]
  generalize conn.drainPending answers = drained
  obtain ⟨⟨r, conn, wire, p⟩, answers⟩ := drained
  cases r with
  | pending | failed e => simp [XorWakes, Registers]
  | ready =>
    dsimp only
    split
    · simp [XorWakes, Registers]
    · -- What is accepted is never answered with `Pending`.
      generalize (push (xorWrite ks conn.write buf).2 answers).2.1 = pushed
      cases pushed <;> simp [XorWakes, Registers, XorConn.landed]

theorem polls_wakes (h : Polls k room r inn step) :
    Registers step.result (ReadEvent.waits ∈ step.events) := by
  induction h <;> simp_all [Registers, ReadStep.after]

theorem sendPending_wakes (w : WriteHalf) (sent plainLen : Nat) (ans : List Answer) :
    Registers (w.sendPending sent plainLen ans).result
      (.pending ∈ (w.sendPending sent plainLen ans).answers) := by
  rw [WriteHalf.sendPending]
  generalize hp : push (w.writeBuf.drop sent) ans = p
  obtain ⟨left, pu, rest⟩ := p
  cases pu with
  | pending => exact fun _ => pending_mem_answered hp
  | done | zero | failed => simp [Registers]

/-- Where the wrappers return `Pending` with a wake-up. -/
theorem wakes_iff (ks : Keystream) (conn : XorConn) (buf : Bytes) (answers : List Answer) :
    (XorWakes (XorConn.pollWrite ks conn buf answers) ↔ ¬ShortDrain conn answers) ∧
    (∀ inner, XorWakes (XorConn.pollFlush conn answers inner) ↔ ¬ShortDrain conn answers) ∧
    (∀ inner, XorWakes (XorConn.pollShutdown conn answers inner) ↔ ¬ShortDrain conn answers) ∧
    (∀ answers inner, XorWakes (XorConn.pollRead ks conn answers inner)) ∧
    (∀ k w buf answers, Registers (WriteHalf.pollWrite k w buf answers).result
      (.pending ∈ (w.pollWrite k buf answers).answers)) ∧
    (∀ k room r inner, Registers (Vless.Encryption.pollRead k room r inner).result
      (.waits ∈ (Vless.Encryption.pollRead k room r inner).events)) ∧
    (∀ w inner, (CommonConn.pollFlush w inner).Wakes) ∧
    (∀ w inner, (CommonConn.pollShutdown w inner).Wakes) ∧
    (∀ plan s buf answers, (FragmentConnection.pollWrite plan s buf answers).Wakes) ∧
    (∀ s inner, (FragmentConnection.pollRead s inner).Wakes) ∧
    (∀ s inner, (FragmentConnection.pollFlush s inner).Wakes) ∧
    (∀ s inner, (FragmentConnection.pollShutdown s inner).Wakes ↔ s.busy = false) ∧
    (∀ s buf dial inner, (DelayDialConn.pollWrite s buf dial inner).Wakes) ∧
    (∀ s dial inner, (DelayDialConn.pollRead s dial inner).Wakes ↔
      s.closed = true ∨ s.conn = true ∨ s.joining = true) ∧
    (∀ s inner, (DelayDialConn.pollFlush s inner).Wakes) ∧
    ∀ s inner, (DelayDialConn.pollShutdown s inner).Wakes := by
  refine ⟨wakes_pollWrite .., wakes_drainThen _ _, wakes_drainThen _ _, fun answers inner => ?_,
    fun k w buf answers => ?_, fun k room r inner => polls_wakes (polls_pollRead k room r inner),
    wakes_handOn, wakes_handOn, fun plan s buf answers => ?_, wakes_handOn, wakes_handOn,
    fun s inner => ?_, fun s buf dial inner => ?_, fun s dial inner => ?_, fun s inner => ?_,
    fun s inner => ?_⟩
  · rw [XorConn.pollRead.eq_def]
    cases inner <;> simp [XorWakes, Registers]
  · rw [WriteHalf.pollWrite]
    split
    · simp [Registers]
    split
    · exact sendPending_wakes w _ _ answers
    dsimp only
    split
    · simp [Registers]
    · exact sendPending_wakes _ _ _ answers
  · rw [FragmentConnection.pollWrite]
    split
    · exact wakes_drive s answers
    · split
      · simp [Polled.Wakes, Registers]
      · exact wakes_drive _ answers
  · rw [FragmentConnection.pollShutdown]
    cases s.busy <;> simp [Polled.Wakes, Registers]
    exact wakes_handOn s inner
  · rw [DelayDialConn.pollWrite]
    split
    · simp [Polled.Wakes, Registers]
    split
    · exact wakes_handOn s inner
    dsimp only
    -- The dial task is there by now.
    generalize hs : (if s.joining = true then s else _) = s'
    have hdial : (s'.pollDial dial).Wakes := by
      rw [wakes_pollDial, ← hs]
      cases hjoining : s.joining <;> simp [hjoining]
    split
    · next heq => simpa [heq, Polled.Wakes, Registers] using hdial
    · simp [Polled.Wakes, Registers]
    · split
      · simp [Polled.Wakes, Registers]
      · simp [Polled.Wakes, Registers]
      · exact wakes_handOn _ inner
  · have hdial := wakes_pollDial s dial
    rw [DelayDialConn.pollRead]
    split
    · simp [Polled.Wakes, Registers, *]
    · next hopen =>
      rw [Bool.not_eq_true] at hopen
      rw [hopen, ← hdial]
      split
      · next heq => simp [heq, Polled.Wakes, Registers]
      · next heq => simp [heq, Polled.Wakes, Registers]
      · next s' _ heq => simpa [heq, Polled.Wakes, Registers] using wakes_handOn s' inner
  · rw [DelayDialConn.pollFlush]
    split
    · exact wakes_handOn s inner
    · simp [Polled.Wakes, Registers]
  · rw [DelayDialConn.pollShutdown]
    split
    · simp [Polled.Wakes, Registers]
    · split
      · exact wakes_handOn s inner
      · simp [Polled.Wakes, Registers]

/-- A short write to a header's rest, a shutdown between two fragments, a read before the first
write. -/
theorem sleeps_forever :
    let ks : Keystream := fun _ _ _ => 7
    let conn := ((XorConn.new (.new [] []) (.new [1] [2]) 0 0).pollWrite ks [23, 3, 3, 0, 1, 9]
      [.ready 2, .pending]).conn
    let fragments := (FragmentConnection.pollWrite (fun _ _ => some [([1], true), ([2], true)])
      ⟨0, [], none, false, 0⟩ [1, 2] [(false, .ready 1)]).state
    ¬XorWakes (conn.pollFlush [.ready 1] (.ready 0)) ∧ ¬(fragments.pollShutdown (.ready 0)).Wakes ∧
      ¬(DelayDialConn.pollRead ⟨2048, false, false, none, false⟩ .pending .pending).Wakes := by
  simp only [XorWakes, Polled.Wakes, Registers, Classical.not_imp]
  decide +kernel

end XrayCore.Streams
