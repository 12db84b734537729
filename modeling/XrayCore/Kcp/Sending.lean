import XrayCore.Kcp.Config
import XrayCore.Kcp.Segment

/-!
# The sending side

`sending.rs`: the window of unacknowledged segments and the worker around it.
The source guards the worker with a mutex, so each method is one step on its
state. The round-trip estimator is shared with the receiving side; a method
takes its value and, where it updates it, returns the new one.
-/

namespace XrayCore.Kcp

open Lib Buf

structure SendingWindow where
  cache : List DataSegment
  totalInFlightSize : UInt32
  deriving DecidableEq

structure FlushPreparation where
  toSend : List DataSegment
  lost : UInt32
  inFlight : UInt32
  totalInFlightSize : UInt32

structure FlushOutcome where
  needsPing : Bool
  deriving DecidableEq

def cloneForSend (seg : DataSegment) : DataSegment :=
  { seg with payload := seg.payload.map fun b => (Buffer.new.writeFrom b.bytes).1 }

def FlushPreparation.record (acc : FlushPreparation) (old seg : DataSegment) : FlushPreparation :=
  { toSend := acc.toSend ++ [cloneForSend seg]
    lost := if old.transmit = 0 then acc.lost else acc.lost + 1
    inFlight := acc.inFlight + 1
    totalInFlightSize :=
      if old.transmit = 0 then acc.totalInFlightSize + 1 else acc.totalInFlightSize }

namespace SendingWindow

def new : SendingWindow := ⟨[], 0⟩

def release (w : SendingWindow) : SendingWindow := { w with cache := [] }

def len (w : SendingWindow) : UInt32 := UInt32.ofNat w.cache.length

def isEmpty (w : SendingWindow) : Bool := w.cache.isEmpty

def push (w : SendingWindow) (number : UInt32) (payload : Buffer) : SendingWindow :=
  { w with
    cache := w.cache ++ [{ DataSegment.new with number := number, payload := some payload }] }

def firstNumber (w : SendingWindow) : Option UInt32 := w.cache.head?.map DataSegment.number

/-- Pops segments while the front is below `una`; the counter stays. -/
def clearBefore (w : SendingWindow) (una : UInt32) : SendingWindow :=
  { w with cache := w.cache.dropWhile fun seg => seg.number < una }

def fastAckLoop (number rto : UInt32) : List DataSegment → List DataSegment
  | [] => []
  | seg :: rest =>
    if number = seg.number ∨ 0x7FFFFFFF < number - seg.number then seg :: rest
    else
      let seg' := if 0 < seg.transmit ∧ rto / 3 < seg.timeout then
          { seg with timeout := seg.timeout - rto / 3 }
        else seg
      seg' :: fastAckLoop number rto rest

def handleFastAck (w : SendingWindow) (number rto : UInt32) : SendingWindow :=
  if w.isEmpty then w else { w with cache := fastAckLoop number rto w.cache }

def remove (w : SendingWindow) (number : UInt32) : SendingWindow × Bool :=
  match w.cache.findIdx? fun seg => seg.number == number with
  | some idx =>
    ({ cache := w.cache.eraseIdx idx
       totalInFlightSize :=
        if 0 < w.totalInFlightSize then w.totalInFlightSize - 1 else w.totalInFlightSize }, true)
  | none => (w, false)

def due (current : UInt32) (seg : DataSegment) : Bool := current - seg.timeout < 0x7FFFFFFF

def stamp (current rto : UInt32) (conv : UInt16) (state : State) (una : UInt32)
    (seg : DataSegment) : DataSegment :=
  { seg with
    timeout := current + rto
    timestamp := current
    transmit := seg.transmit + 1
    conv := conv
    option := if state = .readyToClose then SEGMENT_OPTION_CLOSE else 0
    sendingNext := una }

def prepareLoop (current rto maxInFlight : UInt32) (conv : UInt16) (state : State) (una : UInt32) :
    List DataSegment → FlushPreparation → List DataSegment × FlushPreparation
  | [], acc => ([], acc)
  | seg :: rest, acc =>
    if due current seg then
      let seg' := stamp current rto conv state una seg
      let acc' := acc.record seg seg'
      if maxInFlight ≤ acc'.inFlight then (seg' :: rest, acc')
      else
        let out := prepareLoop current rto maxInFlight conv state una rest acc'
        (seg' :: out.1, out.2)
    else
      let out := prepareLoop current rto maxInFlight conv state una rest acc
      (seg :: out.1, out.2)

def prepareFlush (w : SendingWindow) (current rto maxInFlight : UInt32) (conv : UInt16)
    (state : State) (una : UInt32) : SendingWindow × FlushPreparation :=
  let out := prepareLoop current rto maxInFlight conv state una w.cache
    ⟨[], 0, 0, w.totalInFlightSize⟩
  (⟨out.1, out.2.totalInFlightSize⟩, out.2)

end SendingWindow

structure SendingWorker where
  window : SendingWindow
  firstUnacknowledged : UInt32
  nextNumber : UInt32
  remoteNextNumber : UInt32
  controlWindow : UInt32
  windowSize : UInt32
  firstUnacknowledgedUpdated : Bool
  closed : Bool
  conv : UInt16
  config : Config
  deriving DecidableEq

def adjustControlWindow (current lossRate : UInt32) (config : Config) : UInt32 :=
  let newCwnd := if 15 ≤ lossRate then 3 * current / 4 else current
  let newCwnd := if lossRate ≤ 5 then newCwnd + newCwnd / 4 else newCwnd
  let newCwnd := if newCwnd < 16 then 16 else newCwnd
  min newCwnd config.getSendingInFlightSize

def saturatingMul (a b : UInt32) : UInt32 := UInt32.ofNat (min (a.toNat * b.toNat) (2 ^ 32 - 1))

namespace SendingWorker

def new (conv : UInt16) (config : Config) : SendingWorker :=
  { window := .new
    firstUnacknowledged := 0
    nextNumber := 0
    remoteNextNumber := 32
    controlWindow := config.getSendingInFlightSize
    windowSize := config.getSendingBufferSize
    firstUnacknowledgedUpdated := false
    closed := false
    conv := conv
    config := config }

def release (w : SendingWorker) : SendingWorker :=
  { w with window := w.window.release, closed := true }

def findFirstUnacknowledged (w : SendingWorker) : SendingWorker :=
  let first := w.window.firstNumber.getD w.nextNumber
  { w with
    firstUnacknowledged := first
    firstUnacknowledgedUpdated :=
      if w.firstUnacknowledged ≠ first then true else w.firstUnacknowledgedUpdated }

def processReceivingNext (w : SendingWorker) (nextNumber : UInt32) : SendingWorker :=
  { w with window := w.window.clearBefore nextNumber }.findFirstUnacknowledged

def processAck (w : SendingWorker) (number : UInt32) : SendingWorker × Bool :=
  let tooLow := 0x7FFFFFFF < number - w.firstUnacknowledged
  let tooHigh := number - w.nextNumber < 0x7FFFFFFF
  if tooLow ∨ tooHigh then (w, false)
  else
    let (window, removed) := w.window.remove number
    let w := { w with window := window }
    (if removed then w.findFirstUnacknowledged else w, removed)

def ackLoop : List UInt32 → SendingWorker × UInt32 × Bool → SendingWorker × UInt32 × Bool
  | [], acc => acc
  | number :: rest, (w, maxack, maxackRemoved) =>
    let (w, removed) := w.processAck number
    ackLoop rest (if maxack < number then (w, number, removed) else (w, maxack, maxackRemoved))

def raiseRemote (w : SendingWorker) (receivingWindow : UInt32) : SendingWorker :=
  if w.remoteNextNumber < receivingWindow then { w with remoteNextNumber := receivingWindow }
  else w

def processAckNumbers (w : SendingWorker) (numbers : List UInt32) (rto : UInt32) :
    SendingWorker × Bool :=
  let (w, maxack, maxackRemoved) := ackLoop numbers (w, 0, false)
  (if maxackRemoved then { w with window := w.window.handleFastAck maxack rto } else w,
    maxackRemoved)

def processAckSegment (w : SendingWorker) (rtt : RoundTripInfo) (current : UInt32)
    (ack : AckSegment) (rto : UInt32) : SendingWorker × RoundTripInfo :=
  if w.closed then (w, rtt)
  else
    -- the source clears and looks up the first number inline, as `process_receiving_next` does
    let w := (w.raiseRemote ack.receivingWindow).processReceivingNext ack.receivingNext
    if ack.isEmpty then (w, rtt)
    else
      let (w, maxackRemoved) := w.processAckNumbers ack.numberList rto
      let diff := current - ack.timestamp
      (w, if maxackRemoved ∧ diff < 10000 then rtt.update diff current else rtt)

/-- Whether the payload was taken; the state argument is unused in the source. -/
def push (w : SendingWorker) (payload : Buffer) (_state : State) : SendingWorker × Bool :=
  if w.closed then (w, false)
  else if w.windowSize < w.window.len then (w, false)
  else
    ({ w with
      window := w.window.push w.nextNumber payload
      nextNumber := w.nextNumber + 1 }, true)

/-- The window a flush may use: what the remote accepts and the loss rate
allows, times the configured factor. -/
def cwnd (w : SendingWorker) : UInt32 :=
  let cwnd := w.config.getSendingInFlightSize
  let unaDiff := w.remoteNextNumber - w.firstUnacknowledged
  let cwnd := if unaDiff < cwnd then unaDiff else cwnd
  let cwnd := if w.controlWindow < cwnd then w.controlWindow else cwnd
  saturatingMul cwnd (max w.config.cwndMultiplier 1)

/-- The segments are handed to the writer in order. The flag of the outcome is
cleared before it is read, as in the source. -/
def flushWithWriter (w : SendingWorker) (rtt : RoundTripInfo) (current : UInt32) (state : State) :
    SendingWorker × List DataSegment × FlushOutcome :=
  if w.closed then (w, [], ⟨false⟩)
  else
    let (window, prep) := w.window.prepareFlush current rtt.timeout w.cwnd w.conv state
      w.firstUnacknowledged
    let controlWindow := if 0 < prep.inFlight ∧ 0 < prep.totalInFlightSize then
        adjustControlWindow w.controlWindow (prep.lost * 100 / prep.totalInFlightSize) w.config
      else w.controlWindow
    let w := { w with
      window := window
      controlWindow := controlWindow
      firstUnacknowledgedUpdated := false }
    ({ w with firstUnacknowledgedUpdated := false }, prep.toSend, ⟨w.firstUnacknowledgedUpdated⟩)

def closeWrite (w : SendingWorker) : SendingWorker :=
  { w with window := w.window.clearBefore 0xFFFFFFFF }

end SendingWorker

end XrayCore.Kcp
