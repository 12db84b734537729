import Mathlib.Data.List.AList
import XrayCore.Lib.BigEndian

/-!
# Mux sessions and their table

`xray-mux`'s `Session` and `SessionManager`. Two sessions may carry one id, so a session is known by
its place in `arena`, the list of all sessions a manager was ever given; the table maps ids to
places.

`count`, `size` and `closedFlag` are the mirrors of the table that are read without its lock. Every
entry was counted when it was made, so a `Nat` stands for the `usize` that is counted down.
-/

namespace XrayCore.Mux

open Lib (Bytes)

inductive TransferType
  | stream
  | packet
  deriving DecidableEq, Repr

structure ClientStrategy where
  maxConcurrency : UInt32
  maxConnection : UInt32
  deriving DecidableEq, Repr

inductive XudpStatus
  | initializing
  | active
  | expiring
  deriving DecidableEq, Repr

/-- The part of `XUDP` that a session's close reads; times are in seconds. -/
structure Xudp where
  status : XudpStatus
  expire : Nat
  deriving DecidableEq, Repr

structure Input where
  buffer : Bytes
  interrupted : Bool
  deriving DecidableEq, Repr

def Input.new : Input := ⟨[], false⟩

def Input.interrupt (i : Input) : Input := { i with interrupted := true }

def Input.close (i : Input) : Input := { i with buffer := [] }

/-- A `BufferedWriter` over a link; `written` is what the link was given, one entry
for each write. -/
structure Output where
  buffer : Bytes
  written : List Bytes
  isShutdown : Bool
  deriving DecidableEq, Repr

def Output.new : Output := ⟨[], [], false⟩

def Output.write (o : Output) (data : Bytes) : Output := { o with written := o.written ++ [data] }

def Output.flush (o : Output) : Output :=
  if o.buffer = [] then o else { o with buffer := [], written := o.written ++ [o.buffer] }

def Output.shutdown (o : Output) : Output := { o with isShutdown := true }

/-- `hasParent` says whether the weak reference to the manager is set; `done` is
the value of the watch channel. -/
structure Session where
  id : UInt16
  transferType : TransferType
  closedFlag : Bool
  done : Bool
  input : Option Input
  output : Option Output
  hasParent : Bool
  xudp : Option Xudp
  deriving DecidableEq, Repr

namespace Session

def new (id : UInt16) (transferType : TransferType) : Session :=
  ⟨id, transferType, false, false, none, none, false, none⟩

def setParent (s : Session) : Session := { s with hasParent := true }

def shutDown (s : Session) (now : Nat) : Session :=
  let s := { s with closedFlag := true, done := true }
  match s.xudp with
  | none =>
    { s with
      input := s.input.map fun i => i.interrupt.close
      output := s.output.map fun o => o.flush.shutdown }
  | some xudp =>
    if xudp.status = .active then { s with xudp := some ⟨.expiring, now + 60⟩ } else s

theorem closedFlag_shutDown (s : Session) (now : Nat) : (s.shutDown now).closedFlag = true := by
  unfold shutDown
  dsimp only
  split
  · rfl
  · split <;> rfl

theorem hasParent_shutDown (s : Session) (now : Nat) :
    (s.shutDown now).hasParent = s.hasParent := by
  unfold shutDown
  dsimp only
  split
  · rfl
  · split <;> rfl

end Session

abbrev SessionRef := Nat

structure SessionManager where
  arena : List Session
  sessions : AList fun _ : UInt16 => SessionRef
  innerCount : UInt16
  closed : Bool
  count : UInt16
  size : Nat
  closedFlag : Bool

namespace SessionManager

def new : SessionManager := ⟨[], ∅, 0, false, 0, 0, false⟩

def saturatingSucc (n : UInt16) : UInt16 := if n = 65535 then n else n + 1

/-- What `allocate` and `add` share: the session is counted, becomes a child of the manager and is
entered under its id, over what stood there. -/
def register (m : SessionManager) (session : Session) : SessionManager × SessionRef :=
  let innerCount := saturatingSucc m.innerCount
  ({ m with
      arena := m.arena ++ [session.setParent]
      sessions := m.sessions.insert session.id m.arena.length
      innerCount := innerCount
      count := innerCount
      size := m.size + 1 }, m.arena.length)

/-- The limits of a strategy, 0 meaning none. `max_connection` is cut to 16 bits. -/
def refuses (m : SessionManager) (strategy : ClientStrategy) : Bool :=
  let maxConcurrency := strategy.maxConcurrency.toNat
  let maxConnection := strategy.maxConnection.toUInt16
  (0 < maxConcurrency && maxConcurrency ≤ m.sessions.keys.length) ||
    (0 < maxConnection && maxConnection ≤ m.innerCount)

def allocate (m : SessionManager) (strategy : ClientStrategy) :
    SessionManager × Option SessionRef :=
  if m.closed then (m, none)
  else if m.refuses strategy then (m, none)
  else
    let (m, r) := m.register (.new (saturatingSucc m.innerCount) .stream)
    (m, some r)

def add (m : SessionManager) (session : Session) : SessionManager × Option SessionRef :=
  if m.closed then (m, none)
  else
    let (m, r) := m.register session
    (m, some r)

def remove (m : SessionManager) (id : UInt16) : SessionManager :=
  if m.closed = false ∧ id ∈ m.sessions then
    { m with sessions := m.sessions.erase id, size := m.size - 1 }
  else m

def get (m : SessionManager) (id : UInt16) : Option SessionRef :=
  if m.closed then none else m.sessions.lookup id

def modify (m : SessionManager) (r : SessionRef) (f : Session → Session) : SessionManager :=
  { m with arena := m.arena.modify r f }

/-- `Session::close`. What it does under the lock at its end is what `remove`
does for the session's id. -/
def closeSession (m : SessionManager) (r : SessionRef) (now : Nat) : SessionManager × Bool :=
  match m.arena[r]? with
  | none => (m, false)
  | some session =>
    if session.closedFlag then (m, false)
    else
      let m := { m with arena := m.arena.set r (session.shutDown now) }
      (if session.hasParent then m.remove session.id else m, true)

def markClosed (m : SessionManager) : SessionManager :=
  { m with closed := true, closedFlag := true }

def clear (m : SessionManager) : SessionManager := { m with sessions := ∅, size := 0 }

def closeIfNoSessionAndIdle (m : SessionManager) (checkSize : Nat) (checkCount : UInt16) :
    SessionManager × Bool :=
  if m.closed then (m, true)
  else if m.sessions.keys ≠ [] ∨ checkSize ≠ 0 ∨ checkCount ≠ m.innerCount then (m, false)
  else (m.markClosed.clear, true)

/-- The sessions are closed outside the lock, when the manager already counts as
closed. -/
def close (m : SessionManager) (now : Nat) : SessionManager :=
  if m.closed then m
  else
    let refs := m.sessions.entries.map (·.2)
    (refs.foldl (fun m r => (m.closeSession r now).1) m.markClosed).clear

end SessionManager

end XrayCore.Mux
