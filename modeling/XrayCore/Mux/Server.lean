import XrayCore.Lib.PieceReader
import XrayCore.Mux.FrameCodec
import XrayCore.Mux.Session

/-!
# The server end of a carrier

`xray-mux`'s `ServerWorker` reads frames off one carrier and hands their data to the sessions they
name, each over a link that the dispatcher opens. A session with a GlobalID is also entered in a
registry, where a later one with the same GlobalID finds it and takes over its link.

What the code around a worker decides is in `Surroundings`. The tasks that copy a link's answers
back end in a close of their session, which is a step of its own. Traffic counts are left out.
-/

namespace XrayCore.Mux

open Lib Net List
open Buf (Buffer)
open XrayCore.Xudp (GlobalId)

/-- What `InvalidFrame` says. Of the texts only that of `eof` starts with `EOF`. -/
inductive FrameFault
  | newWithoutTarget
  | xudpWithoutTarget
  | metaLenTooLarge (len : Nat)
  | parseMeta (error : MuxError)
  | unexpectedNetwork (network allowed : Network)
  | eof (wanted offset : Nat)
  | exceedsCapacity
  deriving DecidableEq

inductive DispatchFault
  | dispatch (target : Destination) (reason : String)
  | xudpDispatch (reason : String)
  | initialData (reason : String)
  | xudpInitialData (reason : String)
  deriving DecidableEq

inductive ServerError
  | invalidFrame (fault : FrameFault)
  | dispatchFailed (fault : DispatchFault)
  | sessionAddFailed (id : UInt16)
  deriving DecidableEq

structure XudpEntry extends Xudp where
  mux : Option SessionRef
  deriving DecidableEq, Repr

def XudpEntry.new (now : Nat) : XudpEntry := ⟨⟨.initializing, now⟩, none⟩

structure XudpManager where
  entries : AList fun _ : GlobalId => XudpEntry

namespace XudpManager

def new : XudpManager := ⟨∅⟩

def get (x : XudpManager) (gid : GlobalId) : Option XudpEntry := x.entries.lookup gid

def register (x : XudpManager) (gid : GlobalId) (xudp : XudpEntry) : XudpManager :=
  ⟨x.entries.insert gid xudp⟩

def unregister (x : XudpManager) (gid : GlobalId) : XudpManager := ⟨x.entries.erase gid⟩

def expired (x : XudpManager) (now : Nat) : List (GlobalId × XudpEntry) :=
  (x.entries.entries.map fun entry => (entry.1, entry.2)).filter fun entry =>
    entry.2.status = .expiring ∧ entry.2.expire ≤ now

def cleanup (x : XudpManager) (now : Nat) : XudpManager :=
  (x.expired now).foldl (fun x entry => x.unregister entry.1) x

theorem get_register_self (x : XudpManager) (gid : GlobalId) (xudp : XudpEntry) :
    (x.register gid xudp).get gid = some xudp :=
  AList.lookup_insert _

theorem get_register_ne (x : XudpManager) (h : gid' ≠ gid)
    (xudp : XudpEntry) : (x.register gid xudp).get gid' = x.get gid' :=
  AList.lookup_insert_ne h

theorem get_unregister_self (x : XudpManager) (gid : GlobalId) :
    (x.unregister gid).get gid = none :=
  AList.lookup_erase _ _

theorem get_unregister_ne (x : XudpManager) (h : gid' ≠ gid) :
    (x.unregister gid).get gid' = x.get gid' :=
  AList.lookup_erase_ne h

end XudpManager

/-- What is decided outside the worker while it takes a step: the time; what the dispatcher answers;
whether the link of a session, or a new one, takes what is written; whether a task still holds a
closed session; whether a wait is interrupted by the end of the worker. -/
structure Surroundings where
  now : Nat
  dispatch : Destination → Except String Unit
  dispatchInbound : Destination → Option Destination → Option Destination → Except String Unit
  oldLink : Except String Unit
  newLink : Except String Unit
  held : Bool
  doneFirst : Bool

structure Surroundings.Obliging (env : Surroundings) : Prop where
  dispatch : ∀ target, env.dispatch target = .ok ()
  dispatchInbound : ∀ target source localDest, env.dispatchInbound target source localDest = .ok ()
  oldLink : env.oldLink = .ok ()
  newLink : env.newLink = .ok ()

def obliging : Surroundings :=
  ⟨0, fun _ => .ok (), fun _ _ _ => .ok (), .ok (), .ok (), true, false⟩

def Surroundings.openLink (env : Surroundings) (data : Bytes) : Except String Output :=
  if data = [] then .ok .new else env.newLink.map fun _ => Output.new.write data

/-- `closed` is both the flag and the watch channel, which are set together. -/
structure ServerWorker where
  sessionManager : SessionManager
  xudpManager : XudpManager
  closed : Bool
  readSourceAndLocal : Bool
  allowedNetwork : Option Network

namespace ServerWorker

def new (readSourceAndLocal : Bool) (allowedNetwork : Option Network) : ServerWorker :=
  ⟨.new, .new, false, readSourceAndLocal, allowedNetwork⟩

def close (w : ServerWorker) : ServerWorker := { w with closed := true }

def closeSession (w : ServerWorker) (r : SessionRef) (now : Nat) : ServerWorker :=
  { w with sessionManager := (w.sessionManager.closeSession r now).1 }

def addSession (w : ServerWorker) (session : Session) : ServerWorker × Option SessionRef :=
  let (m, r) := w.sessionManager.add session
  ({ w with sessionManager := m }, r)

def writeOutput (w : ServerWorker) (r : SessionRef) (data : Bytes) : ServerWorker :=
  { w with sessionManager := w.sessionManager.modify r fun s =>
      { s with output := s.output.map (·.write data) } }

/-- `Weak::upgrade`. A session that is not closed is held by the task that copies its
link's answers. -/
def upgrades (w : ServerWorker) (env : Surroundings) (r : SessionRef) : Bool :=
  match w.sessionManager.arena[r]? with
  | none => false
  | some session => !session.closedFlag || env.held

def handleNormalNew (w : ServerWorker) (env : Surroundings) (frame : FrameMetadata)
    (data : Bytes) : ServerWorker × Except ServerError Unit :=
  match frame.target with
  | none => (w, .error (.invalidFrame .newWithoutTarget))
  | some target =>
    let link :=
      if w.readSourceAndLocal ∧ frame.source.isSome then
        env.dispatchInbound target frame.source frame.localDest
      else env.dispatch target
    match link with
    | .error reason => (w, .error (.dispatchFailed (.dispatch target reason)))
    | .ok () =>
      let transferType := if target.network = .udp then .packet else .stream
      match env.openLink data with
      | .error reason => (w, .error (.dispatchFailed (.initialData reason)))
      | .ok output =>
        match w.addSession { Session.new frame.sessionId transferType with
            input := some .new, output := some output } with
        | (w, none) => (w, .error (.sessionAddFailed frame.sessionId))
        | (w, some _) => (w, .ok ())

/-- The end of both ways to a session with a GlobalID: its entry is Active, in the
registry and, as a copy, in the session. -/
def activate (w : ServerWorker) (gid : GlobalId) (xudp : XudpEntry) (r : SessionRef) :
    ServerWorker :=
  let xudp := { xudp with mux := some r, status := .active }
  { w with
    sessionManager := w.sessionManager.modify r fun s => { s with xudp := some xudp.toXudp }
    xudpManager := w.xudpManager.register gid xudp }

def firstPacket (w : ServerWorker) (env : Surroundings) (old : SessionRef) (data : Bytes) :
    Option ServerWorker :=
  if data = [] then some w
  else
    match (w.sessionManager.arena[old]?).bind (·.output), env.oldLink with
    | some _, .ok () => some (w.writeOutput old data)
    | _, _ => none

/-- The old session is closed and its link moves to a session with the new id. Where it cannot, the
answer is `false`, with the old one closed all the same. -/
def xudpHitRebind (w : ServerWorker) (env : Surroundings) (old : SessionRef)
    (frame : FrameMetadata) (data : Bytes) (gid : GlobalId) (xudp : XudpEntry) :
    ServerWorker × Bool :=
  let w := w.closeSession old env.now
  match w.firstPacket env old data with
  | none => (w, false)
  | some w =>
    let input := (w.sessionManager.arena[old]?).bind (·.input)
    let output := (w.sessionManager.arena[old]?).bind (·.output)
    let w := { w with sessionManager := w.sessionManager.modify old fun s =>
      { s with input := none, output := none } }
    match input, output with
    | some input, some output =>
      match w.addSession { Session.new frame.sessionId .packet with
          input := some input, output := some output } with
      | (w, none) => (w, false)
      | (w, some r) => (w.activate gid xudp r, true)
    | _, _ => (w, false)

def hitActive (w : ServerWorker) (env : Surroundings) (frame : FrameMetadata) (data : Bytes)
    (gid : GlobalId) (xudp : XudpEntry) : ServerWorker × Bool :=
  match xudp.status, xudp.mux with
  | .active, some old =>
    if w.upgrades env old then w.xudpHitRebind env old frame data gid xudp else (w, false)
  | _, _ => (w, false)

def openXudp (w : ServerWorker) (env : Surroundings) (frame : FrameMetadata) (data : Bytes)
    (gid : GlobalId) (target : Destination) (xudp : XudpEntry) :
    ServerWorker × Except ServerError Unit :=
  let w := { w with xudpManager := w.xudpManager.register gid xudp }
  match env.dispatch target with
  | .error reason =>
    ({ w with xudpManager := w.xudpManager.unregister gid },
      .error (.dispatchFailed (.xudpDispatch reason)))
  | .ok () =>
    match env.openLink data with
    | .error reason => (w, .error (.dispatchFailed (.xudpInitialData reason)))
    | .ok output =>
      match w.addSession { Session.new frame.sessionId .packet with
          input := some .new, output := some output } with
      | (w, none) => (w, .error (.sessionAddFailed frame.sessionId))
      | (w, some r) => (w.activate gid xudp r, .ok ())

def handleXudpNew (w : ServerWorker) (env : Surroundings) (frame : FrameMetadata) (data : Bytes)
    (gid : GlobalId) : ServerWorker × Except ServerError Unit :=
  match frame.target with
  | none => (w, .error (.invalidFrame .xudpWithoutTarget))
  | some target =>
    match w.xudpManager.get gid with
    | none => w.openXudp env frame data gid target (.new env.now)
    | some xudp =>
      if xudp.status = .initializing then (w, .ok ())
      else
        match w.hitActive env frame data gid xudp with
        | (w, true) => (w, .ok ())
        | (w, false) =>
          w.openXudp env frame data gid target { xudp with status := .initializing }

def handleStatusKeep (w : ServerWorker) (env : Surroundings) (frame : FrameMetadata)
    (data : Bytes) : ServerWorker :=
  if data = [] then w
  else
    match w.sessionManager.get frame.sessionId, env.oldLink with
    | some r, .ok () => w.writeOutput r data
    | _, _ => w

def handleStatusEnd (w : ServerWorker) (env : Surroundings) (frame : FrameMetadata) :
    ServerWorker :=
  match w.sessionManager.get frame.sessionId with
  | none => w
  | some r => w.closeSession r env.now

def refusedNetwork (w : ServerWorker) (frame : FrameMetadata) : Option ServerError :=
  match w.allowedNetwork, frame.target with
  | some allowed, some target =>
    if target.network ≠ allowed then
      some (.invalidFrame (.unexpectedNetwork target.network allowed))
    else none
  | _, _ => none

def handleFrame (w : ServerWorker) (env : Surroundings) (frame : FrameMetadata) (data : Bytes) :
    ServerWorker × Except ServerError Unit :=
  match frame.sessionStatus with
  | .new =>
    match w.refusedNetwork frame with
    | some error => (w, .error error)
    | none =>
      match frame.globalId with
      | some gid =>
        if frame.isUdpTarget then w.handleXudpNew env frame data gid
        else w.handleNormalNew env frame data
      | none => w.handleNormalNew env frame data
  | .keep => (w.handleStatusKeep env frame data, .ok ())
  | .ended => (w.handleStatusEnd env frame, .ok ())
  | .keepAlive => (w, .ok ())

def cleanup (w : ServerWorker) (env : Surroundings) : ServerWorker :=
  let interrupt (w : ServerWorker) (r : SessionRef) : ServerWorker :=
    if w.upgrades env r then
      { w with sessionManager := w.sessionManager.modify r fun s =>
          { s with input := s.input.map (·.interrupt), output := s.output.map (·.flush) } }
    else w
  let expired := w.xudpManager.expired env.now
  (expired.filterMap (·.2.mux)).foldl interrupt
    { w with xudpManager := w.xudpManager.cleanup env.now }

def readExactSlice (reader : PieceReader) (n : Nat) : Except ServerError (Bytes × PieceReader) :=
  match reader.readExact [] n with
  | .ok result => .ok result
  | .error offset => .error (.invalidFrame (.eof n offset))

def readExactInto (reader : PieceReader) (dst : Buffer) (n remaining : Nat) :
    Except ServerError (Buffer × PieceReader) :=
  if remaining = 0 then .ok (dst, reader)
  else if dst.free < remaining then .error (.invalidFrame .exceedsCapacity)
  else
    let (more, reader) := reader.read remaining
    if more = [] then .error (.invalidFrame (.eof n (n - remaining)))
    else readExactInto reader (dst.writeFrom more).1 n (remaining - more.length)
termination_by remaining
decreasing_by
  rename_i hremaining _ hmore
  have := length_pos_of_ne_nil hmore
  omega

def readMeta (readSourceAndLocal : Bool) (board : Bytes) : Except ServerError FrameMetadata :=
  match FrameMetadata.readFromBytesImpl board readSourceAndLocal with
  | .ok (frame, _) => .ok frame
  | .error error => .error (.invalidFrame (.parseMeta error))

def readFrame (readSourceAndLocal : Bool) (reader : PieceReader) :
    Except ServerError (Option (FrameMetadata × Bytes × PieceReader)) :=
  match readExactSlice reader 2 with
  | .error _ => .ok none
  | .ok (lenBuf, reader) =>
    let metaLen := (u16At lenBuf 0).toNat
    if metaLen > MAX_METADATA_LEN then .error (.invalidFrame (.metaLenTooLarge metaLen))
    else do
      let (board, reader) ← readExactInto reader (Buffer.new.writeFrom lenBuf).1 metaLen metaLen
      let frame ← readMeta readSourceAndLocal board.bytes
      if frame.hasData then
        let (sizeBuf, reader) ← readExactSlice reader 2
        let size := (u16At sizeBuf 0).toNat
        let (payload, reader) ← readExactInto reader Buffer.new size size
        return some (frame, payload.bytes, reader)
      else return some (frame, [], reader)

def processFrame (w : ServerWorker) (env : Surroundings) (reader : PieceReader) :
    ServerWorker × Except ServerError (Option PieceReader) :=
  if w.closed ∧ env.doneFirst then (w, .ok none)
  else
    match readFrame w.readSourceAndLocal reader with
    | .error error => (w, .error error)
    | .ok none => (w, .ok none)
    | .ok (some (frame, data, reader)) =>
      match w.handleFrame env frame data with
      | (w, .error error) => (w, .error error)
      | (w, .ok ()) => (w, .ok (some reader))

section Open

variable {w : ServerWorker} {env : Surroundings} {reader : PieceReader}

theorem processFrame_error (ho : w.closed = false)
    (hr : readFrame w.readSourceAndLocal reader = .error error) :
    w.processFrame env reader = (w, .error error) := by
  rw [processFrame, if_neg (fun h => Bool.false_ne_true (ho.symm.trans h.1)), hr]

theorem processFrame_none (ho : w.closed = false)
    (hr : readFrame w.readSourceAndLocal reader = .ok none) :
    w.processFrame env reader = (w, .ok none) := by
  rw [processFrame, if_neg (fun h => Bool.false_ne_true (ho.symm.trans h.1)), hr]

theorem processFrame_some (ho : w.closed = false)
    (hr : readFrame w.readSourceAndLocal reader = .ok (some (frame, data, reader')))
    (hh : w.handleFrame env frame data = (w', .ok ())) :
    w.processFrame env reader = (w', .ok (some reader')) := by
  rw [processFrame, if_neg (fun h => Bool.false_ne_true (ho.symm.trans h.1)), hr]
  dsimp only
  rw [hh]

end Open

variable {reader reader' : PieceReader}

theorem readExactInto_ok (h : readExactInto rd dst n remaining = .ok (dst', reader')) :
    ∃ next, dst'.bytes = dst.bytes ++ next ∧ next.length = remaining ∧
      rd.contents = next ++ reader'.contents := by
  fun_induction readExactInto rd dst n remaining with
  | case1 rd dst =>
    cases h
    exact ⟨[], (append_nil _).symm, rfl, rfl⟩
  | case2 | case3 => cases h
  | case4 rd dst remaining hremaining hfits more r1 hr hmore ih =>
    obtain ⟨next, hb, hl, hc⟩ := ih h
    have hf : more ++ r1.contents = rd.contents := by
      have := rd.read_append remaining
      rwa [hr] at this
    have hle : more.length ≤ remaining := by
      have := rd.length_read_le remaining
      rwa [hr] at this
    refine ⟨more ++ next, ?_, ?_, ?_⟩
    · rw [hb, Buffer.bytes_writeFrom, append_assoc,
        take_of_length_le (le_trans hle (not_lt.mp hfits))]
    · rw [length_append, hl]
      exact Nat.add_sub_cancel' hle
    · rw [← hf, hc, append_assoc]

theorem readExactSlice_ok (h : readExactSlice reader n = .ok (b, reader')) :
    b.length = n ∧ reader.contents = b ++ reader'.contents := by
  unfold readExactSlice at h
  split at h
  · next hr =>
    cases h
    obtain ⟨next, rfl, hl, hc⟩ := PieceReader.readExact_ok hr
    exact ⟨hl, hc⟩
  · cases h

theorem readFrame_shrinks (h : readFrame rsl reader = .ok (some (frame, data, reader'))) :
    reader'.contents.length < reader.contents.length := by
  unfold readFrame at h
  split at h
  · cases h
  · next lb re1 hl =>
    obtain ⟨ht, hc⟩ := readExactSlice_ok hl
    dsimp only at h
    split at h
    · cases h
    obtain ⟨⟨b, r2⟩, hb, h⟩ := bind_ok.mp h
    obtain ⟨next, -, -, hn⟩ := readExactInto_ok hb
    obtain ⟨m, -, h⟩ := bind_ok.mp h
    rw [hc, hn, length_append, length_append, ht]
    split at h
    · obtain ⟨⟨sb, rea3⟩, hsize, h⟩ := bind_ok.mp h
      obtain ⟨-, ha⟩ := readExactSlice_ok hsize
      obtain ⟨⟨p, ra4⟩, hp, h⟩ := bind_ok.mp h
      obtain ⟨rest, -, -, hrest⟩ := readExactInto_ok hp
      cases h
      rw [ha, hrest, length_append, length_append]
      dsimp only
      omega
    · cases h
      dsimp only
      omega

variable {w w' : ServerWorker}

theorem processFrame_shrinks (h : w.processFrame env reader = (w', .ok (some reader'))) :
    reader'.contents.length < reader.contents.length := by
  unfold processFrame at h
  split at h
  · cases h
  split at h
  · cases h
  · cases h
  · next f data r1 hr =>
    split at h
    · cases h
    · cases h
      exact readFrame_shrinks hr

def serve (env : Nat → Surroundings) (w : ServerWorker) (reader : PieceReader) :
    ServerWorker × Except ServerError Unit :=
  match h : w.processFrame (env 0) reader with
  | (w, .error error) => (w, .error error)
  | (w, .ok none) => (w, .ok ())
  | (w, .ok (some reader)) => serve (fun n => env (n + 1)) w reader
termination_by reader.contents.length
decreasing_by exact processFrame_shrinks h

variable {env : Nat → Surroundings}

theorem serve_error (h : w.processFrame (env 0) reader = (w', .error error)) :
    serve env w reader = (w', .error error) := by
  rw [serve]
  split
  all_goals
    next hf =>
      cases hf.symm.trans h
      try rfl

theorem serve_none
    (h : w.processFrame (env 0) reader = (w', .ok none)) : serve env w reader = (w', .ok ()) := by
  rw [serve]
  split
  all_goals
    next hf =>
      cases hf.symm.trans h
      try rfl

theorem serve_some (h : w.processFrame (env 0) reader = (w', .ok (some reader'))) :
    serve env w reader = serve (fun n => env (n + 1)) w' reader' := by
  rw [serve]
  split
  all_goals
    next hf =>
      cases hf.symm.trans h
      try rfl

end ServerWorker

end XrayCore.Mux
