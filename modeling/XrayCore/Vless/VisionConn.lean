import Mathlib.Data.List.Infix
import XrayCore.Lib.Polling
import XrayCore.Lib.Traces
import XrayCore.Vless.Vision

/-!
# The Vision connection

`VisionConn` reads and writes an inner connection in padding mode, and in each direction leaves that
mode with an `End` or a `Direct` block. After `Direct` a direction is to go on with the raw socket,
which both keep in one field. What the inner connection, the raw socket and the generator answer
comes in as scripts; what a call does to them goes out as events.
-/

namespace XrayCore.Vless.Vision

open Lib

def TLS_SERVER_HANDSHAKE_START : Bytes := [0x16, 0x03, 0x03]

def TLS_CLIENT_HANDSHAKE_START : Bytes := [0x16, 0x03]

def TLS13_SUPPORTED_VERSIONS : Bytes := [0x00, 0x2b, 0x00, 0x02, 0x03, 0x04]

def TLS_HANDSHAKE_TYPE_CLIENT_HELLO : UInt8 := 0x01

def TLS_HANDSHAKE_TYPE_SERVER_HELLO : UInt8 := 0x02

structure TrafficState where
  numberOfPacketToFilter : Int
  enableXtls : Bool
  isTls12OrAbove : Bool
  isTls : Bool
  cipher : UInt16
  remainingServerHello : Int
  deriving DecidableEq, Repr

def tls13CipherSuiteName (cipher : UInt16) : Option String :=
  if cipher = 0x1301 then some "TLS_AES_128_GCM_SHA256"
  else if cipher = 0x1302 then some "TLS_AES_256_GCM_SHA384"
  else if cipher = 0x1303 then some "TLS_CHACHA20_POLY1305_SHA256"
  else if cipher = 0x1304 then some "TLS_AES_128_CCM_SHA256"
  else if cipher = 0x1305 then some "TLS_AES_128_CCM_8_SHA256"
  else none

namespace TrafficState

def new : TrafficState := ⟨8, false, false, false, 0, 0⟩

def hello (s : TrafficState) (b : Bytes) : TrafficState :=
  if TLS_SERVER_HANDSHAKE_START <+: b ∧ byteAt b 5 = TLS_HANDSHAKE_TYPE_SERVER_HELLO then
    let s := { s with
      remainingServerHello := ((u16At b 3).toNat : Int) + 5, isTls12OrAbove := true, isTls := true }
    let cipherOff := 44 + (byteAt b 43).toNat
    if 79 ≤ b.length ∧ 79 ≤ s.remainingServerHello ∧ cipherOff + 2 ≤ b.length then
      { s with cipher := u16At b cipherOff }
    else s
  else if TLS_CLIENT_HANDSHAKE_START <+: b ∧ byteAt b 5 = TLS_HANDSHAKE_TYPE_CLIENT_HELLO then
    { s with isTls := true }
  else s

def splices (s : TrafficState) : Bool :=
  match tls13CipherSuiteName s.cipher with
  | some name => name ≠ "TLS_AES_128_CCM_8_SHA256"
  | none => false

end TrafficState

def xtlsFilterTls : List Bytes → TrafficState → TrafficState
  | [], s => s
  | b :: buffers, s =>
    if s.numberOfPacketToFilter ≤ 0 then s
    else
      let s := { s with numberOfPacketToFilter := s.numberOfPacketToFilter - 1 }
      if b.length < 6 then xtlsFilterTls buffers s
      else
        let s := s.hello b
        if 0 < s.remainingServerHello then
          let stop := (min s.remainingServerHello b.length).toNat
          let s := { s with remainingServerHello := s.remainingServerHello - b.length }
          if TLS13_SUPPORTED_VERSIONS.length ≤ stop ∧ TLS13_SUPPORTED_VERSIONS <:+: b.take stop then
            { s with
              enableXtls := s.enableXtls || s.splices
              numberOfPacketToFilter := 0 }
          else if s.remainingServerHello ≤ 0 then { s with numberOfPacketToFilter := 0 }
          else if s.numberOfPacketToFilter ≤ 0 then s
          else xtlsFilterTls buffers s
        else if s.numberOfPacketToFilter ≤ 0 then s
        else xtlsFilterTls buffers s

def recordLoop (left : Bytes) (headerLeft recordLen : Nat) : Bool :=
  match left with
  | [] => headerLeft = 5
  | byte :: rest =>
    if headerLeft = 0 then
      if (byte :: rest).length < recordLen then false
      else recordLoop ((byte :: rest).drop recordLen) 5 0
    else if headerLeft = 5 then byte = 0x17 && recordLoop rest 4 recordLen
    else if headerLeft = 4 then byte = 0x03 && recordLoop rest 3 recordLen
    else if headerLeft = 3 then byte = 0x03 && recordLoop rest 2 recordLen
    else if headerLeft = 2 then recordLoop rest 1 (byte.toNat * 256)
    else
      let recordLen := recordLen + byte.toNat
      if recordLen = 0 then recordLoop rest 5 0 else recordLoop rest 0 recordLen
termination_by 2 * left.length + if headerLeft = 0 then 1 else 0
decreasing_by
  all_goals simp only [List.length_drop, List.length_cons, if_true, if_false]
  all_goals split <;> omega

def isCompleteRecordSlices (slices : List Bytes) : Bool := recordLoop slices.flatten 5 0

def MAX_PADDING_CONTENT : Nat := 2027

inductive UpGate
  | none
  | directArm
  | endCommit
  deriving DecidableEq, Repr

structure UpFrame where
  padded : Bytes
  sent : Nat
  origLen : Nat
  gate : UpGate
  deriving DecidableEq

abbrev TcpStream := Nat

structure VisionConn where
  userUuid : Bytes
  uplinkUuidPending : Option Bytes
  downlinkState : DirectionState
  downlinkPending : Bytes
  uplinkPending : List UpFrame
  uplinkPadding : Bool
  downlinkPadding : Bool
  paddingSeed : Fin 4 → UInt32
  uplinkTraffic : TrafficState
  downlinkTraffic : TrafficState
  rawFallback : Option TcpStream
  rawTcp : Option TcpStream
  innerRawTcp : Option TcpStream
  spliceArmed : Bool
  endCommit : Bool
  isServer : Bool
  /-- The first raw write waits for a timer. -/
  rawWriteGate : Bool

inductive Channel
  | inner
  | raw
  deriving DecidableEq, Repr

/-- What a call does: a channel is read; the inner connection takes bytes of a frame, or a channel
takes bytes as they are; the inner connection is flushed behind a frame that ends the mode, and is
`ready` or not; a channel is flushed or shut down. A direction leaves padding mode. A call of the
writer took so many bytes. -/
inductive Event
  | read (channel : Channel)
  | framed (bytes : Bytes)
  | plain (channel : Channel) (bytes : Bytes)
  | gate (ready : Bool)
  | flush (channel : Channel)
  | shutdown (channel : Channel)
  | readLeft (command : UInt8)
  | writeLeft (command : UInt8)
  | took (presented : Bytes) (n : Nat)
  deriving DecidableEq

inductive IoError
  | writeZero (message : String)
  | inner
  deriving DecidableEq

inductive Poll (α : Type)
  | pending
  | ready (a : α)
  | failed (e : IoError)
  deriving DecidableEq

namespace VisionConn

def defaultPaddingSeed (i : Fin 4) : UInt32 := [900, 500, 900, 256].getD i 0

def new (userUuid : Bytes) (innerRawTcp : Option TcpStream) : VisionConn where
  userUuid := userUuid
  uplinkUuidPending := some userUuid
  downlinkState := ⟨-1, -1, -1, 0⟩
  downlinkPending := []
  uplinkPending := []
  uplinkPadding := true
  downlinkPadding := true
  paddingSeed := defaultPaddingSeed
  uplinkTraffic := .new
  downlinkTraffic := .new
  rawFallback := none
  rawTcp := none
  innerRawTcp := innerRawTcp
  spliceArmed := false
  endCommit := false
  isServer := false
  rawWriteGate := false

def newServer (userUuid : Bytes) (rawTcp : TcpStream) (innerRawTcp : Option TcpStream) :
    VisionConn :=
  { new userUuid innerRawTcp with rawTcp := some rawTcp, isServer := true }

def withPaddingSeed (conn : VisionConn) (seed : List UInt32) : VisionConn :=
  { conn with
    paddingSeed := if seed.length < 4 then defaultPaddingSeed else fun i => seed.getD i 0 }

def writeUuidOnlyPadding (conn : VisionConn) (draw : Nat) : Option (VisionConn × Bytes) :=
  (xtlsPadding ⟨none, COMMAND_PADDING_CONTINUE, true, conn.paddingSeed, draw⟩
      conn.uplinkUuidPending).map fun r =>
    ({ conn with uplinkUuidPending := r.2 }, r.1)

def armRaw (conn : VisionConn) : VisionConn :=
  if conn.rawFallback.isNone then
    { conn with rawFallback := conn.rawTcp.or conn.innerRawTcp, rawTcp := none }
  else conn

def plainChannel (conn : VisionConn) : Channel := if conn.rawFallback.isSome then .raw else .inner

/-- The counters say that the current block is complete. The header's counter is not asked. -/
def framesDone (s : DirectionState) : Bool :=
  s.remainingContent ≤ 0 ∧ s.remainingPadding ≤ 0 ∧ s.currentCommand ≠ 0

/-- The mode after a piece: `End` and `Direct` count once the block is complete. -/
def leavePadding (conn : VisionConn) : VisionConn × List Event :=
  if framesDone conn.downlinkState then
    if conn.downlinkState.currentCommand = COMMAND_PADDING_END.toNat then
      ({ conn with downlinkPadding := false }, [.readLeft COMMAND_PADDING_END])
    else if conn.downlinkState.currentCommand = COMMAND_PADDING_DIRECT.toNat then
      (armRaw { conn with downlinkPadding := false }, [.readLeft COMMAND_PADDING_DIRECT])
    else (conn, [])
  else (conn, [])

def unpadPiece (conn : VisionConn) (piece : Bytes) : Option (VisionConn × List Event) := do
  let (state, content) ← xtlsUnpadding piece.length conn.userUuid conn.downlinkState piece
  let (conn, events) := leavePadding
    { conn with downlinkState := state, downlinkPending := content }
  if content ≠ [] ∧ 0 < conn.downlinkTraffic.numberOfPacketToFilter then
    some ({ conn with downlinkTraffic := xtlsFilterTls [content] conn.downlinkTraffic }, events)
  else some (conn, events)

structure ReadStep where
  result : Poll Bytes
  conn : VisionConn
  inner : List Arrival
  raw : List Arrival
  events : List Event

def ofArrival : Arrival → Poll Bytes
  | .pending => .pending
  | .piece bytes => .ready bytes
  | .failed => .failed .inner

def readChannel (conn : VisionConn) : Channel :=
  if conn.downlinkPadding then .inner else conn.plainChannel

def READ_TMP : Nat := 16 * 1024

/-- `poll_read` with room for so many bytes. `none` is a panic of the decoder. -/
def pollRead (conn : VisionConn) (room : Nat) (inner raw : List Arrival) : Option ReadStep :=
  if conn.downlinkPending ≠ [] then
    some ⟨.ready (conn.downlinkPending.take room),
      { conn with downlinkPending := conn.downlinkPending.drop room }, inner, raw, []⟩
  else if conn.downlinkPadding = false then
    match conn.plainChannel with
    | .raw =>
      let (arrival, raw) := readUpTo room raw
      some ⟨ofArrival arrival, conn, inner, raw, [.read .raw]⟩
    | .inner =>
      let (arrival, inner) := readUpTo room inner
      some ⟨ofArrival arrival, conn, inner, raw, [.read .inner]⟩
  else
    match inner with
    | [] => some ⟨.ready [], conn, [], raw, [.read .inner]⟩
    | arrival :: source =>
      match _hread : readUpTo READ_TMP (arrival :: source) with
      | (.pending, inner) => some ⟨.pending, conn, inner, raw, [.read .inner]⟩
      | (.failed, inner) => some ⟨.failed .inner, conn, inner, raw, [.read .inner]⟩
      | (.piece [], inner) => some ⟨.ready [], conn, inner, raw, [.read .inner]⟩
      | (.piece (b :: piece), inner) => do
        let (conn, events) ← conn.unpadPiece (b :: piece)
        let step ← pollRead conn room inner raw
        some { step with events := .read .inner :: events ++ step.events }
termination_by backlog inner
decreasing_by
  have hless := backlog_readUpTo (n := READ_TMP) (by decide) (List.cons_ne_nil arrival source)
  rw [_hread] at hless
  exact hless

theorem unpadPiece_some (h : conn.unpadPiece pc = some (conn', events)) :
    ∃ state pending traffic, events = [] ∧ conn' = { conn with
        downlinkState := state, downlinkPending := pending, downlinkTraffic := traffic } ∨
      events = [.readLeft COMMAND_PADDING_END] ∧ conn' = { conn with
        downlinkState := state, downlinkPending := pending, downlinkTraffic := traffic
        downlinkPadding := false } ∨
      events = [.readLeft COMMAND_PADDING_DIRECT] ∧ conn' = { armRaw conn with
        downlinkState := state, downlinkPending := pending, downlinkTraffic := traffic
        downlinkPadding := false } := by
  obtain ⟨⟨state, pending⟩, -, h⟩ := Option.bind_eq_some_iff.mp h
  refine ⟨state, pending, ?_⟩
  dsimp only at h
  generalize hl : leavePadding _ = left at h
  obtain ⟨base, log⟩ := left
  have he : ∃ traffic, events = log ∧ conn' = { base with downlinkTraffic := traffic } := by
    dsimp only at h
    by_cases hf : pending ≠ [] ∧ 0 < base.downlinkTraffic.numberOfPacketToFilter
    · rw [if_pos hf] at h
      cases h
      exact ⟨_, rfl, rfl⟩
    · rw [if_neg hf] at h
      cases h
      exact ⟨conn'.downlinkTraffic, rfl, rfl⟩
  obtain ⟨traffic, rfl, rfl⟩ := he
  refine ⟨traffic, ?_⟩
  unfold leavePadding at hl
  split at hl
  · split at hl
    · cases hl
      exact .inr (.inl ⟨rfl, rfl⟩)
    split at hl
    · cases hl
      refine .inr (.inr ⟨rfl, ?_⟩)
      unfold armRaw
      split <;> rfl
    · cases hl
      exact .inl ⟨rfl, rfl⟩
  · cases hl
    exact .inl ⟨rfl, rfl⟩

section PollRead

variable {conn : VisionConn} {room : Nat} {inner raw : List Arrival}

theorem pollRead_of_pending (h : conn.downlinkPending ≠ []) :
    conn.pollRead room inner raw = some ⟨.ready (conn.downlinkPending.take room),
      { conn with downlinkPending := conn.downlinkPending.drop room }, inner, raw, []⟩ := by
  rw [pollRead.eq_def, if_pos h]

theorem pollRead_of_inner (h : conn.downlinkPending = []) (hp : conn.downlinkPadding = false)
    (hr : conn.rawFallback = none) :
    conn.pollRead room inner raw = some ⟨ofArrival (readUpTo room inner).1, conn,
      (readUpTo room inner).2, raw, [.read .inner]⟩ := by
  rw [pollRead.eq_def, if_neg (not_not.mpr h), if_pos hp, plainChannel, hr]
  rfl

section

variable (h : conn.downlinkPending = []) (hp : conn.downlinkPadding = true)

include h hp

theorem pollRead_at_end :
    conn.pollRead room [] raw = some ⟨.ready [], conn, [], raw, [.read .inner]⟩ := by
  rw [pollRead.eq_def, if_neg (not_not.mpr h), if_neg (by simp [hp])]

theorem pollRead_waits : conn.pollRead room (.pending :: inner) raw =
      some ⟨.pending, conn, inner, raw, [.read .inner]⟩ := by
  rw [pollRead.eq_def, if_neg (not_not.mpr h), if_neg (by simp [hp])]
  rfl

theorem pollRead_piece (hne : pc ≠ []) (hle : pc.length ≤ READ_TMP) :
    conn.pollRead room (.piece pc :: inner) raw =
      (conn.unpadPiece pc).bind fun r => (r.1.pollRead room inner raw).map fun step =>
        { step with events := .read .inner :: r.2 ++ step.events } := by
  obtain ⟨b, pc, rfl⟩ := List.exists_cons_of_ne_nil hne
  have hr : readUpTo READ_TMP (.piece (b :: pc) :: inner) = (.piece (b :: pc), inner) := by
    rw [readUpTo, if_pos hle]
  rw [pollRead.eq_def, if_neg (not_not.mpr h), if_neg (by simp [hp])]
  dsimp only
  split
  · next ho => cases hr.symm.trans ho
  · next ho => cases hr.symm.trans ho
  · next ho => cases hr.symm.trans ho
  · next ho =>
    cases hr.symm.trans ho
    cases conn.unpadPiece (b :: pc) with
    | none => rfl
    | some r =>
      rw [Option.bind_some, Option.map_eq_bind]
      rfl

end

theorem pollRead_rule {P : VisionConn → List Event → VisionConn → Prop}
    (hq : ∀ conn pending, P conn [] { conn with downlinkPending := pending })
    (hr : ∀ conn, P conn [.read conn.readChannel] conn)
    (hpi : ∀ conn piece conn' evs log conn'', conn.downlinkPadding = true →
      conn.unpadPiece piece = some (conn', evs) → P conn' log conn'' →
      P conn (.read .inner :: evs ++ log) conn'')
    {step : ReadStep} (h : conn.pollRead room inner raw = some step) :
    P conn step.events step.conn := by
  have hi (conn : VisionConn) (hp : ¬conn.downlinkPadding = false) :
      P conn [.read .inner] conn := by
    have h := hr conn
    rwa [readChannel, if_pos (eq_true_of_ne_false hp)] at h
  have hpl (conn : VisionConn) (hp : conn.downlinkPadding = false) {channel : Channel}
      (hc : conn.plainChannel = channel) : P conn [.read channel] conn := by
    have h := hr conn
    rwa [readChannel, if_neg (by simp [hp]), hc] at h
  fun_induction pollRead conn room inner raw generalizing step with
  | case1 conn inner hpe =>
    cases h
    exact hq conn _
  | case2 conn inner hpe hp hc | case3 conn inner hpe hp hc =>
    cases h
    exact hpl conn hp hc
  | case4 conn hpe hp | case5 conn hpe hp | case6 conn hpe hp | case7 conn hpe hp =>
    cases h
    exact hi conn hp
  | case8 conn hpe hp a s b piece rest hr ih =>
    obtain ⟨⟨conn', evs⟩, hu, h⟩ := Option.bind_eq_some_iff.mp h
    obtain ⟨step', hrest, h⟩ := Option.bind_eq_some_iff.mp h
    cases h
    exact hpi conn _ conn' evs _ _ (eq_true_of_ne_false hp) hu (ih conn' hrest)

end PollRead

end VisionConn

def locateFrom (off stop : Nat) : Nat → List Bytes → Option Bytes
  | _, [] => none
  | pos, slice :: bufs =>
    if stop ≤ pos + slice.length then
      if pos ≤ off then some ((slice.take (stop - pos)).drop (off - pos)) else none
    else locateFrom off stop (pos + slice.length) bufs

def copyFrom (start stop : Nat) : Nat → List Bytes → Bytes
  | _, [] => []
  | pos, slice :: bufs =>
    let send := pos + slice.length
    if send ≤ start then copyFrom start stop send bufs
    else if stop ≤ pos then []
    else
      let lo := max start pos - pos
      let hi := min stop send - pos
      (slice.take hi).drop lo ++ copyFrom start stop send bufs

def locateIoSliceSpan (bufs : List Bytes) (off stop : Nat) : Option Bytes :=
  locateFrom off stop 0 bufs

def copyIoSliceSpan (bufs : List Bytes) (start stop : Nat) : Bytes := copyFrom start stop 0 bufs

def totalLen (bufs : List Bytes) : Nat := (bufs.map List.length).sum

namespace VisionConn

structure Batch where
  command : UInt8
  longPadding : Bool

def judge (conn : VisionConn) (bufs : List Bytes) : VisionConn × Batch :=
  let total := totalLen bufs
  let probe := copyIoSliceSpan bufs 0 (min total MAX_PADDING_CONTENT)
  let conn :=
    if 0 < conn.uplinkTraffic.numberOfPacketToFilter then
      { conn with uplinkTraffic := xtlsFilterTls [probe] conn.uplinkTraffic }
    else conn
  let writeSide := if conn.isServer then conn.uplinkTraffic else conn.downlinkTraffic
  let isAppData := 3 ≤ total ∧ byteAt probe 0 = 0x17 ∧ byteAt probe 1 = 0x03 ∧ byteAt probe 2 = 0x03
  let wholeComplete := isAppData ∧ writeSide.isTls ∧ isCompleteRecordSlices bufs
  let isEarlyEnd := writeSide.isTls12OrAbove = false ∧ writeSide.numberOfPacketToFilter ≤ 1
  let command :=
    if wholeComplete ∧ writeSide.enableXtls then COMMAND_PADDING_DIRECT
    else if wholeComplete ∨ isEarlyEnd then COMMAND_PADDING_END
    else COMMAND_PADDING_CONTINUE
  (conn, ⟨command, wholeComplete ∨ conn.uplinkTraffic.isTls ∨ conn.downlinkTraffic.isTls⟩)

def gateOf (command : UInt8) : UpGate :=
  if command = COMMAND_PADDING_DIRECT then .directArm
  else if command = COMMAND_PADDING_END then .endCommit
  else .none

/-- The loop that cuts a batch into frames, from `off` on. Frame `k` uses the `k`-th draw, and only
the last frame carries the command of the batch. -/
def frameLoop (seed : Fin 4 → UInt32) (bufs : List Bytes) (batch : Batch) (draw : Nat → Nat)
    (uuid : Option Bytes) (k off : Nat) : Option (List UpFrame × Option Bytes) :=
  if off < totalLen bufs then do
    let stop := min (off + MAX_PADDING_CONTENT) (totalLen bufs)
    let command := if stop = totalLen bufs then batch.command else COMMAND_PADDING_CONTINUE
    let content := (locateIoSliceSpan bufs off stop).getD (copyIoSliceSpan bufs off stop)
    let (padded, uuid) ← xtlsPadding ⟨some content, command, batch.longPadding, seed, draw k⟩ uuid
    let (frames, uuid) ← frameLoop seed bufs batch draw uuid (k + 1) stop
    some (⟨padded, 0, stop - off, gateOf command⟩ :: frames, uuid)
  else some ([], uuid)
termination_by totalLen bufs - off
decreasing_by
  unfold MAX_PADDING_CONTENT
  omega

/-- A batch becomes frames that are to be written; the mode changes only when the last of them is
out. -/
def frameBatch (conn : VisionConn) (bufs : List Bytes) (draw : Nat → Nat) : Option VisionConn := do
  let (conn, batch) := conn.judge bufs
  let (frames, uuid) ← frameLoop conn.paddingSeed bufs batch draw conn.uplinkUuidPending 0 0
  some { conn with
    uplinkUuidPending := uuid
    uplinkPending := conn.uplinkPending ++ frames
    spliceArmed := conn.spliceArmed || batch.command = COMMAND_PADDING_DIRECT
    endCommit := conn.endCommit || batch.command = COMMAND_PADDING_END }

structure WriteStep where
  result : Poll Nat
  conn : VisionConn
  events : List Event

def flushInner : List Answer → Poll Unit × Event
  | .ready _ :: _ => (.ready (), .gate true)
  | .failed :: _ => (.failed .inner, .gate false)
  | _ => (.pending, .gate false)

def armSpliceRaw (conn : VisionConn) : VisionConn × List Event :=
  if conn.spliceArmed then
    (armRaw { conn with spliceArmed := false, uplinkPadding := false, rawWriteGate := true },
      [.writeLeft COMMAND_PADDING_DIRECT])
  else (conn, [])

/-- The gate of a frame that is written out; `commit` is what happens once the inner connection is
flushed. -/
def passGate (conn : VisionConn) (origLen : Nat) (answers : List Answer)
    (commit : VisionConn → VisionConn × List Event) : WriteStep :=
  match flushInner answers with
  | (.ready (), event) =>
    let (conn, events) := commit conn
    ⟨.ready origLen, { conn with uplinkPending := conn.uplinkPending.tail }, event :: events⟩
  | (.pending, event) => ⟨.pending, conn, [event]⟩
  | (.failed e, event) => ⟨.failed e, conn, [event]⟩

def commitEnd (conn : VisionConn) : VisionConn × List Event :=
  ({ conn with uplinkPadding := false, endCommit := false }, [.writeLeft COMMAND_PADDING_END])

def finishFrame (conn : VisionConn) (frame : UpFrame) (answers : List Answer) : WriteStep :=
  match frame.gate with
  | .none => ⟨.ready frame.origLen, { conn with uplinkPending := conn.uplinkPending.tail }, []⟩
  | .directArm =>
    if conn.spliceArmed then passGate conn frame.origLen answers armSpliceRaw
    else if conn.endCommit then passGate conn frame.origLen answers commitEnd
    else ⟨.ready frame.origLen, { conn with uplinkPending := conn.uplinkPending.tail }, []⟩
  | .endCommit => passGate conn frame.origLen answers commitEnd

def writeFront (conn : VisionConn) (frame : UpFrame) (frames : List UpFrame)
    (answers : List Answer) : WriteStep :=
  if frame.sent < frame.padded.length then
    let rest := frame.padded.drop frame.sent
    let (left, pushed, answers) := push rest answers
    let frame := { frame with sent := frame.padded.length - left.length }
    let conn := { conn with uplinkPending := frame :: frames }
    let event := Event.framed (written rest left)
    match pushed with
    | .done =>
      let step := finishFrame conn frame answers
      { step with events := event :: step.events }
    | .pending => ⟨.pending, conn, [event]⟩
    | .zero => ⟨.failed (.writeZero "inner conn accepted 0 bytes"), conn, [event]⟩
    | .failed => ⟨.failed .inner, conn, [event]⟩
  else finishFrame conn frame answers

def writeChannel (conn : VisionConn) (channel : Channel) (bufs : List Bytes) :
    List Answer → WriteStep
  | .ready n :: _ =>
    let bytes := bufs.flatten.take n
    ⟨.ready bytes.length, conn, [.plain channel bytes]⟩
  | .failed :: _ => ⟨.failed .inner, conn, []⟩
  | _ => ⟨.pending, conn, []⟩

def writePlain (conn : VisionConn) (bufs : List Bytes) (answers : List Answer) : WriteStep :=
  match conn.plainChannel with
  | .raw =>
    if conn.rawWriteGate then
      match answers with
      | .ready _ :: answers => writeChannel { conn with rawWriteGate := false } .raw bufs answers
      | _ => ⟨.pending, conn, []⟩
    else writeChannel conn .raw bufs answers
  | .inner => writeChannel conn .inner bufs answers

/-- `none` is a panic: the generator is given an empty range. -/
def pollWriteVectored (conn : VisionConn) (bufs : List Bytes) (answers : List Answer)
    (draw : Nat → Nat) : Option WriteStep :=
  match conn.uplinkPending with
  | frame :: frames => some (writeFront conn frame frames answers)
  | [] =>
    if conn.uplinkPadding = false then some (writePlain conn bufs answers)
    else if totalLen bufs = 0 then some ⟨.ready 0, conn, []⟩
    else do
      let conn ← conn.frameBatch bufs draw
      match conn.uplinkPending with
      | frame :: frames => some (writeFront conn frame frames answers)
      | [] => none

def ofAnswer : List Answer → Poll Unit
  | .ready _ :: _ => .ready ()
  | .failed :: _ => .failed .inner
  | _ => .pending

def pollFlush (conn : VisionConn) (answers : List Answer) : Poll Unit × Event :=
  (ofAnswer answers, .flush conn.plainChannel)

def pollShutdown (conn : VisionConn) (answers : List Answer) : Poll Unit × Event :=
  (ofAnswer answers, .shutdown conn.plainChannel)

def WriteStep.accepted (step : WriteStep) : Nat :=
  match step.result with
  | .ready n => n
  | _ => 0

inductive Op
  | read (room : Nat) (inner raw : List Arrival)
  | write (bufs : List Bytes) (answers : List Answer) (draw : Nat → Nat)
  | flush (answers : List Answer)
  | shutdown (answers : List Answer)

def apply (conn : VisionConn) : Op → Option (VisionConn × List Event)
  | .read room inner raw =>
    (conn.pollRead room inner raw).map fun step => (step.conn, step.events)
  | .write bufs answers draw =>
    (conn.pollWriteVectored bufs answers draw).map fun step =>
      (step.conn, step.events ++ [.took bufs.flatten step.accepted])
  | .flush answers => some (conn, [(conn.pollFlush answers).2])
  | .shutdown answers => some (conn, [(conn.pollShutdown answers).2])

def run (conn : VisionConn) (ops : List Op) : Option (VisionConn × List Event) :=
  logged apply conn ops

end VisionConn

end XrayCore.Vless.Vision
