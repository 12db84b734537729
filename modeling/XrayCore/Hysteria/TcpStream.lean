import XrayCore.Hysteria.Protocol
import XrayCore.Lib.Runs
import Mathlib.Data.List.TakeDrop

/-!
# TCP streams of Hysteria

`InterStreamConn` and `HysteriaConn` over a stream that takes as much of a write as it likes, or is
not ready. The first write of a client has the frame type in front. `Account` follows the calls of
one caller, who repeats a pending write.
-/

namespace XrayCore.Hysteria

open Lib List

def FrameTypeTCPRequest : Nat := 0x401

def tcpRequestFirstPayload (buf : Bytes) : Bytes := writeVarint FrameTypeTCPRequest ++ buf

/-- The futures that are cached, by the payload of the write and the size of the buffer to read. -/
structure HysteriaConn where
  clientFirst : Bool
  writeState : Option Bytes
  readState : Option Nat

namespace HysteriaConn

/-- `InterStreamConn::write` on a stream that takes `room` bytes: what is returned and what is
taken. -/
def write (c : HysteriaConn) (buf : Bytes) (room : Nat) : Nat × Bytes × HysteriaConn :=
  if c.clientFirst then
    (buf.length, (tcpRequestFirstPayload buf).take room, { c with clientFirst := false })
  else (min room buf.length, buf.take room, c)

def pollFuture (c : HysteriaConn) (payload : Bytes) : Option Nat → Option Nat × Bytes × HysteriaConn
  | none => (none, [], { c with writeState := some payload })
  | some room => (some (min room payload.length), payload.take room, { c with writeState := none })

def pollWrite (c : HysteriaConn) (buf : Bytes) (room : Option Nat) :
    Option Nat × Bytes × HysteriaConn :=
  match c.writeState with
  | some payload => c.pollFuture payload room
  | none =>
    if c.clientFirst then
      { c with clientFirst := false }.pollFuture (tcpRequestFirstPayload buf) room
    else (room.map (min · buf.length), buf.take (room.getD 0), c)

/-- The bytes that are put into a buffer with so much room; `none` where `put_slice` panics. -/
def pollRead (c : HysteriaConn) (remaining : Nat) (arrived : Option Bytes) :
    Option Bytes × HysteriaConn :=
  if remaining = 0 then (some [], c)
  else
    let size := c.readState.getD remaining
    match arrived with
    | none => (some [], { c with readState := some size })
    | some bytes =>
      let data := bytes.take size
      (if data.length ≤ remaining then some data else none, { c with readState := none })

/-- The frame type is not on the stream yet. -/
def Unsent (c : HysteriaConn) : Prop := c.clientFirst = true ∨ c.writeState ≠ none

instance (c : HysteriaConn) : Decidable c.Unsent := inferInstanceAs (Decidable (_ ∨ _))

end HysteriaConn

def writeTcpRequestBody (addr padding : Bytes) : Bytes :=
  writeVarint addr.length ++ addr ++ writeVarint padding.length ++ padding

open HysteriaConn

/-- What is on the stream when `HysteriaClient::tcp` reads the response. -/
def tcpRequest (addr padding : Bytes) (room : Nat) : Bytes :=
  (write ⟨true, none, none⟩ (writeTcpRequestBody addr padding) room).2.1

structure Account where
  conn : HysteriaConn
  wire : Bytes
  accepted : Bytes
  outstanding : Option Bytes
  excess : Bool
  panicked : Bool

namespace Account

variable {client : Bool} {a : Account} {conn : HysteriaConn}

def start (client : Bool) : Account := ⟨⟨client, none, none⟩, [], [], none, false, false⟩

inductive Call
  | write (buf : Bytes) (room : Nat)
  | pollWrite (buf : Bytes) (room : Option Nat)
  | pollRead (remaining : Nat) (arrived : Option Bytes)

/-- The caller of a write with these bytes is told the result. -/
def settle (a : Account) (buf : Bytes) (result : Option Nat) (sent : Bytes) (conn : HysteriaConn) :
    Account :=
  { a with
    conn := conn
    wire := a.wire ++ sent
    accepted := a.accepted ++ buf.take (result.getD 0)
    outstanding := if result = none then some buf else none
    excess := a.excess || buf.length < result.getD 0 }

def step (a : Account) : Call → Account
  | .write buf room =>
    if a.outstanding.isSome then a
    else
      let (n, sent, conn) := a.conn.write buf room
      a.settle buf n sent conn
  | .pollWrite buf room =>
    let buf := a.outstanding.getD buf
    let (result, sent, conn) := a.conn.pollWrite buf room
    a.settle buf result sent conn
  | .pollRead remaining arrived =>
    let (data, conn) := a.conn.pollRead remaining arrived
    { a with conn := conn, panicked := a.panicked || data.isNone }

def Right (client : Bool) (a : Account) : Prop :=
  a.excess = false ∧ a.panicked = false ∧ a.wire =
    (if client ∧ ¬a.conn.Unsent then writeVarint FrameTypeTCPRequest else []) ++ a.accepted

/-- A client's first write is one of `InterStreamConn` that the stream takes whole, and a read ends
with room for what it brings. -/
def Whole (a : Account) : Call → Prop
  | .write buf room =>
    a.outstanding = none → a.conn.Unsent → (tcpRequestFirstPayload buf).length ≤ room
  | .pollWrite _ room => room = none ∨ ¬a.conn.Unsent
  | .pollRead remaining arrived => remaining = 0 ∨ ∀ bytes ∈ arrived,
    (bytes.take (a.conn.readState.getD remaining)).length ≤ remaining

structure Inv (client : Bool) (a : Account) : Prop where
  unsent : a.conn.Unsent → client = true ∧ a.wire = [] ∧ a.accepted = []
  pending : ∀ payload ∈ a.conn.writeState, a.conn.clientFirst = false ∧
    ∃ buf ∈ a.outstanding, payload = tcpRequestFirstPayload buf

theorem settle_first (hi : a.Inv client) (hu : a.conn.Unsent) (hc : ¬conn.Unsent)
    (hr : a.Right client) (buf : Bytes) (n : Nat) (sent : Bytes) :
    (a.settle buf (some n) sent conn).Right client ↔
      n ≤ buf.length ∧ sent = tcpRequestFirstPayload (buf.take n) := by
  obtain ⟨rfl, hw, ha⟩ := hi.unsent hu
  simp [Right, settle, hr.1, hr.2.1, hw, ha, hc, tcpRequestFirstPayload]

theorem settle_later (hu : conn.Unsent ↔ a.conn.Unsent) (hr : a.Right client) (buf : Bytes)
    (result : Option Nat) (sent : Bytes) : (a.settle buf result sent conn).Right client ↔
      result.getD 0 ≤ buf.length ∧ sent = buf.take (result.getD 0) := by
  simp [Right, settle, hr.1, hr.2.1, hr.2.2, hu]

theorem Inv.settle_some (hc : ¬conn.Unsent) : (a.settle buf (some n) sent conn).Inv client := by
  refine ⟨fun h => absurd h hc, fun p hp => ?_⟩
  exact absurd (.inr (Option.ne_none_iff_exists'.mpr ⟨p, hp⟩)) hc

theorem Inv.settle_none (hi : a.Inv client) (hu : conn.Unsent ↔ a.conn.Unsent)
    (hp : ∀ p ∈ conn.writeState, conn.clientFirst = false ∧ p = tcpRequestFirstPayload buf) :
    (a.settle buf none [] conn).Inv client := by
  refine ⟨fun h => ?_, fun p h => ⟨(hp p h).1, buf, rfl, (hp p h).2⟩⟩
  simpa [settle] using hi.unsent (hu.mp h)

/-- A future of the first payload reports the frame type as well: that is never what it took. -/
theorem future_spec (hi : a.Inv client) (hu : a.conn.Unsent) (hc : conn.clientFirst = false)
    (buf buf' : Bytes) (room : Option Nat) :
    let out := conn.pollFuture (tcpRequestFirstPayload buf) room
    (a.settle buf out.1 out.2.1 out.2.2).Inv client ∧ (a.Right client →
      ((a.settle buf out.1 out.2.1 out.2.2).Right client ↔ a.Whole (.pollWrite buf' room))) := by
  cases room with
  | none =>
    have hs : Unsent { conn with writeState := some (tcpRequestFirstPayload buf) } ↔
        a.conn.Unsent := iff_of_true (.inr nofun) hu
    refine ⟨hi.settle_none hs (by simp [pollFuture, hc]), fun hr =>
      (settle_later hs hr ..).trans ?_⟩
    simp [Whole, pollFuture]
  | some room =>
    have hn : ¬Unsent { conn with writeState := none } := by simp [Unsent, hc]
    refine ⟨.settle_some hn, fun hr => (settle_first hi hu hn hr ..).trans ?_⟩
    refine iff_of_false ?_ (by simp [Whole, hu])
    rintro ⟨hle, he⟩
    have hv : (writeVarint FrameTypeTCPRequest).length = 2 := rfl
    have := congrArg length he
    simp only [pollFuture, tcpRequestFirstPayload, length_append, length_take, hv] at hle this
    omega

theorem step_spec (hi : a.Inv client) (call : Call) : (a.step call).Inv client ∧
    (a.Right client → ((a.step call).Right client ↔ a.Whole call)) := by
  cases call with
  | write buf room =>
    simp only [step]
    split
    · next ho => exact ⟨hi, fun hr => ⟨fun _ hn => by simp [hn] at ho, fun _ => hr⟩⟩
    next ho =>
    have hn : a.outstanding = none := by simpa using ho
    have hw : a.conn.writeState = none := by
      have := hi.pending
      simpa [hn, Option.eq_none_iff_forall_not_mem] using this
    unfold write
    split
    · next hf =>
      have hu : a.conn.Unsent := .inl hf
      have hc : ¬Unsent { a.conn with clientFirst := false } := by simp [Unsent, hw]
      refine ⟨.settle_some hc, fun hr => (settle_first hi hu hc hr ..).trans ?_⟩
      simp [Whole, hn, hu]
    · next hf =>
      have hu : ¬a.conn.Unsent := by simp [Unsent, hf, hw]
      exact ⟨.settle_some hu, fun hr => (settle_later Iff.rfl hr ..).trans (by simp [Whole, hu])⟩
  | pollWrite buf room =>
    simp only [step, pollWrite]
    split
    · next payload hw =>
      obtain ⟨hf, buf', ho, rfl⟩ := hi.pending payload hw
      rw [Option.mem_def.mp ho]
      exact future_spec hi (.inr (by simp [hw])) hf ..
    next hw =>
    split
    · next hf => exact future_spec hi (.inl hf) rfl ..
    · next hf =>
      have hu : ¬a.conn.Unsent := by simp [Unsent, hf, hw]
      refine ⟨?_, fun hr => (settle_later Iff.rfl hr ..).trans ?_⟩
      · cases room with
        | none => exact hi.settle_none Iff.rfl (by simp [hw])
        | some room => exact .settle_some hu
      · cases room <;> simp [Whole, hu]
  | pollRead remaining arrived =>
    have hread (size : Option Nat) (data : Option Bytes) :
        let b := { a with
          conn := { a.conn with readState := size }, panicked := a.panicked || data.isNone }
        b.Inv client ∧ (a.Right client → (b.Right client ↔ data.isSome)) := by
      refine ⟨⟨hi.unsent, hi.pending⟩, fun hr => ?_⟩
      have hu : Unsent { a.conn with readState := size } ↔ a.conn.Unsent := Iff.rfl
      simp [Right, hu, hr.1, hr.2.1, ← hr.2.2]
    simp only [step, pollRead]
    split
    · next h0 => simpa [Whole, h0] using hread a.conn.readState (some [])
    next h0 =>
    cases arrived with
    | none => simpa [Whole] using hread (some (a.conn.readState.getD remaining)) (some [])
    | some bytes =>
      refine ⟨(hread none _).1, fun hr => ((hread none _).2 hr).trans ?_⟩
      grind [Whole]

/-- All calls are accounted for exactly if each meets the condition, and `tcp` sends its request
exactly if the stream takes it whole. -/
theorem accounts_iff (client : Bool) (calls : List Call) (addr padding : Bytes) (room : Nat) :
    (Throughout step (Right client) (start client) calls ↔
      Guarded step Whole (start client) calls) ∧
    (tcpRequest addr padding room = tcpRequestFirstPayload (writeTcpRequestBody addr padding) ↔
      (tcpRequestFirstPayload (writeTcpRequestBody addr padding)).length ≤ room) := by
  constructor
  · refine throughout_iff_guarded (R := fun a _ => a.Inv client) ⟨?_, nofun⟩ ?_
      (fun a call _ hi => (step_spec hi call).1) fun a call _ hi hr => (step_spec hi call).2 hr
    · simp [start, Unsent]
    · cases client <;> simp [start, Right, Unsent]
  · simp [tcpRequest, write]

/-- A short first write, a first poll, and a read that ends with less room. -/
theorem misreports : (runs step (start true) [.write [1, 2, 3] 3]).accepted = [1, 2, 3] ∧
    (runs step (start true) [.write [1, 2, 3] 3]).wire = [0x44, 0x01, 1] ∧
    (runs step (start true) [.pollWrite [1] (some 3)]).excess = true ∧
    (runs step (start true) [.pollRead 4 none, .pollRead 2 (some [1, 2, 3])]).panicked = true := by
  decide

end Account

end XrayCore.Hysteria
