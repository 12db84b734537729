import XrayCore.Streams.Wakeups

/-!
# Early data of a delayed dial

The first write of a `DelayDialConn` may travel in the handshake. Only the writer consults the
record of that, and only when it is the one to see the dial finish.
-/

namespace XrayCore.Streams

open Lib List

namespace DelayDialConn

def new (ed : Nat) : DelayDialConn := ⟨ed, false, false, none, false⟩

def triggered (s : DelayDialConn) (buf : Bytes) : DelayDialConn :=
  if s.joining then s
  else { s with joining := true, firstWrite := some (buf.length, decide (buf.length ≤ s.ed)) }

/-- A connection, what its dial carries, what it wrote on the established connection, and what it
reported as written. -/
structure Run where
  conn : DelayDialConn
  early : Bytes
  sent : Bytes
  reported : Bytes
  /-- The bytes that the caller repeats. -/
  outstanding : Option Bytes
  readerDialed : Bool

inductive Call
  | write (buf : Bytes) (dial : Dial) (inner : Answer)
  | read (dial : Dial) (inner : Answer)

def Run.write (r : Run) (buf : Bytes) (dial : Dial) (inner : Answer) : Run :=
  let p := r.conn.pollWrite buf dial inner
  let early := if r.conn.closed || r.conn.conn || r.conn.joining || r.conn.ed < buf.length
    then r.early else buf
  let absorbed := !r.conn.conn && (r.conn.triggered buf).firstWrite.any (·.2)
  match p.result with
  | .ready n =>
    { r with
      conn := p.state, early, outstanding := none, reported := r.reported ++ buf.take n
      sent := if absorbed then r.sent else r.sent ++ buf.take n }
  | .pending => { r with conn := p.state, early, outstanding := some buf }
  | .failed _ => { r with conn := p.state, early, outstanding := none }

def Run.step (r : Run) : Call → Run
  | .write buf dial inner => r.write (r.outstanding.getD buf) dial inner
  | .read dial inner =>
    let s := (r.conn.pollRead dial inner).state
    { r with conn := s, readerDialed := r.readerDialed || !r.conn.conn && s.conn }

def Run.after (ed : Nat) (calls : List Call) : Run :=
  calls.foldl Run.step ⟨new ed, [], [], [], none, false⟩

def Run.obtained (r : Run) : Bytes := if r.conn.conn then r.early ++ r.sent else []

/-- Before the dial has finished nothing is written. Behind it everything is accounted for but the
early data of a dial that the reader saw finish. -/
def Run.Inv (r : Run) : Prop :=
  if r.conn.conn then r.reported = if r.readerDialed then r.sent else r.early ++ r.sent
  else r.sent = [] ∧ r.reported = [] ∧ r.readerDialed = false ∧ (r.conn.closed = false →
    if r.conn.joining then ∃ buf, r.outstanding = some buf ∧
      r.conn.firstWrite = some (buf.length, decide (buf.length ≤ r.conn.ed)) ∧
      r.early = if buf.length ≤ r.conn.ed then buf else []
    else r.early = [] ∧ r.outstanding = none)

variable {r : Run}

theorem Run.Inv.write (h : r.Inv) (hb : ∀ b, r.outstanding = some b → buf = b) (dial : Dial)
    (inner : Answer) : (r.write buf dial inner).Inv := by
  obtain ⟨⟨ed, j, conn, fw, c⟩, e, sent, re, outstanding, br⟩ := r
  cases c with
  | true => cases conn <;> simp_all [Run.Inv, Run.write, pollWrite]
  | false =>
    cases conn with
    | true => cases inner <;> cases br <;> simp_all [Run.Inv, Run.write, pollWrite, handOn]
    | false =>
      cases j with
      | false =>
        obtain ⟨rfl, rfl, rfl, rfl, rfl⟩ :
            sent = [] ∧ re = [] ∧ br = false ∧ e = [] ∧ outstanding = none := by
          simpa [Run.Inv] using h
        by_cases hle : buf.length ≤ ed <;> cases dial <;> cases inner <;>
          simp [Run.Inv, Run.write, pollWrite, pollDial, handOn, triggered, hle] <;>
          omega
      | true =>
        obtain ⟨rfl, rfl, rfl, buf', ho, hf, rfl⟩ : sent = [] ∧ re = [] ∧ br = false ∧
            ∃ buf, outstanding = some buf ∧ fw = some (buf.length, decide (buf.length ≤ ed)) ∧
              e = if buf.length ≤ ed then buf else [] := by
          simpa [Run.Inv] using h
        obtain rfl := hb buf' ho
        by_cases hle : buf.length ≤ ed <;> cases dial <;> cases inner <;>
          simp [Run.Inv, Run.write, pollWrite, pollDial, handOn, triggered, hf, hle] <;>
          omega

theorem Run.Inv.step (h : r.Inv) (call : Call) : (r.step call).Inv := by
  cases call with
  | write buf dial i => exact h.write (fun b hb => by rw [hb, Option.getD_some]) dial i
  | read dial i =>
    obtain ⟨⟨ed, j, conn, fw, c⟩, e, sent, re, o, br⟩ := r
    cases c <;> cases conn <;> cases j <;> cases dial <;> cases i <;>
      simp_all [Run.Inv, Run.step, pollRead, pollDial, handOn]

theorem inv_after (ed : Nat) (calls : List Call) : (Run.after ed calls).Inv := by
  have hstart : Run.Inv ⟨new ed, [], [], [], none, false⟩ := by simp [Run.Inv, new]
  unfold Run.after
  generalize (⟨new ed, [], [], [], none, false⟩ : Run) = r at hstart
  induction calls generalizing r with
  | nil => exact hstart
  | cons call calls ih => exact ih _ (hstart.step call)

/-- The server gets what was reported as written, unless it was the reader that saw the dial finish
and the dial carried early data. -/
theorem obtained_iff (ed : Nat) (calls : List Call) : let r := Run.after ed calls
    r.obtained = r.reported ↔ ¬(r.readerDialed = true ∧ r.early ≠ []) := by
  have h := inv_after ed calls
  generalize Run.after ed calls = r at h
  obtain ⟨⟨ed, joining, conn, firstWrite, closed⟩, early, sent, reported, outstanding, byReader⟩ := r
  cases conn <;> cases byReader <;> simp_all [Run.Inv, Run.obtained]

/-- The first write is repeated after the reader has seen the dial finish. -/
theorem sent_twice :
    let r := Run.after 8 [.write [1, 2] .pending .pending, .read .connected .pending,
      .write [1, 2] .pending (.ready 2)]
    r.outstanding = none ∧ r.reported = [1, 2] ∧ r.obtained = [1, 2, 1, 2] := by
  decide

end DelayDialConn

end XrayCore.Streams
