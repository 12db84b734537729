import XrayCore.Buf.MultiBuffer
import XrayCore.Kcp.Config
import XrayCore.Kcp.Segment
import Mathlib.Data.List.AList

/-!
# The receiving side

`receiving.rs`: the window of segments that arrived ahead of the reader, the
list of numbers to acknowledge, and the worker around both. Rust's hash map is
an association list with distinct keys; its order is never observed.
-/

namespace XrayCore.Kcp

open Lib Buf

structure ReceivingWindow where
  cache : AList fun _ : UInt32 => DataSegment

namespace ReceivingWindow

def new : ReceivingWindow := ⟨∅⟩

def set (w : ReceivingWindow) (id : UInt32) (value : DataSegment) :
    ReceivingWindow × Option DataSegment :=
  if id ∈ w.cache then (w, some value) else (⟨w.cache.insert id value⟩, none)

def has (w : ReceivingWindow) (id : UInt32) : Bool := id ∈ w.cache

def remove (w : ReceivingWindow) (id : UInt32) : ReceivingWindow × Option DataSegment :=
  (⟨w.cache.erase id⟩, w.cache.lookup id)

end ReceivingWindow

structure AckEntry where
  number : UInt32
  timestamp : UInt32
  nextFlush : UInt32
  deriving DecidableEq

/-- The candidates vector is scratch space of `flush` and has no field. -/
structure AckList where
  entries : List AckEntry
  dirty : Bool
  mss : Nat
  deriving DecidableEq

/-- The capacity the candidates vector is made with; it never grows past it. -/
def FLUSH_CANDIDATES : Nat := 128

structure AckFlush where
  out : List AckSegment
  seg : AckSegment
  candidates : List UInt32
  dirty : Bool

def AckFlush.postpone (acc : AckFlush) (e : AckEntry) : AckFlush :=
  if acc.candidates.length < FLUSH_CANDIDATES then
    { acc with candidates := acc.candidates ++ [e.number] }
  else acc

def AckFlush.put (acc : AckFlush) (limit : Nat) (e : AckEntry) : AckFlush :=
  let seg := (acc.seg.putNumber e.number).putTimestamp e.timestamp
  if seg.isFull then { acc with out := acc.out ++ [seg], seg := .new limit, dirty := false }
  else { acc with seg := seg }

namespace AckList

def new (mss : Nat) : AckList := ⟨[], false, mss⟩

def numbers (l : AckList) : List UInt32 := l.entries.map AckEntry.number

def add (l : AckList) (number timestamp : UInt32) : AckList :=
  { l with entries := l.entries ++ [⟨number, timestamp, 0⟩], dirty := true }

def clear (l : AckList) (una : UInt32) : AckList :=
  let kept := l.entries.filter fun e => ¬e.number < una
  { l with entries := kept, dirty := if kept.length < l.entries.length then true else l.dirty }

def limit (l : AckList) : Nat := (l.mss - 17) / 4

def flushLoop (current rto : UInt32) (limit : Nat) :
    List AckEntry → AckFlush → List AckEntry × AckFlush
  | [], acc => ([], acc)
  | e :: rest, acc =>
    if current < e.nextFlush then
      let out := flushLoop current rto limit rest (acc.postpone e)
      (e :: out.1, out.2)
    else
      let timeout := if rto / 2 < 20 then 20 else rto / 2
      let out := flushLoop current rto limit rest (acc.put limit e)
      ({ e with nextFlush := current + timeout } :: out.1, out.2)

def fillLoop : List UInt32 → AckSegment → AckSegment
  | [], seg => seg
  | number :: rest, seg => if seg.isFull then seg else fillLoop rest (seg.putNumber number)

def flush (l : AckList) (current rto : UInt32) : AckList × List AckSegment :=
  let (entries, acc) := flushLoop current rto l.limit l.entries
    ⟨[], .new l.limit, [], l.dirty⟩
  if acc.dirty || !acc.seg.isEmpty then
    ({ l with entries := entries, dirty := false }, acc.out ++ [fillLoop acc.candidates acc.seg])
  else ({ l with entries := entries, dirty := acc.dirty }, acc.out)

end AckList

structure ReceivingWorker where
  window : ReceivingWindow
  acklist : AckList
  nextNumber : UInt32
  windowSize : UInt32
  leftOver : Option MultiBuffer
  conv : UInt16

namespace ReceivingWorker

def new (config : Config) (conv : UInt16) (mss : Nat) : ReceivingWorker :=
  { window := .new
    acklist := .new mss
    nextNumber := 0
    windowSize := config.getReceivingInFlightSize
    leftOver := none
    conv := conv }

def processSendingNext (w : ReceivingWorker) (number : UInt32) : ReceivingWorker :=
  { w with acklist := w.acklist.clear number }

def processSegment (w : ReceivingWorker) (seg : DataSegment) : ReceivingWorker :=
  let idx := seg.number - w.nextNumber
  if w.windowSize ≤ idx then w
  else
    { w with
      acklist := (w.acklist.clear seg.sendingNext).add seg.number seg.timestamp
      window := (w.window.set seg.number seg).1 }

/-- The loop of `read_multi_buffer`. Every turn takes a segment out of the
window, so the window's size bounds the number of turns. -/
def drainLoop : Nat → ReceivingWindow → UInt32 → MultiBuffer →
    ReceivingWindow × UInt32 × MultiBuffer
  | 0, window, next, mb => (window, next, mb)
  | fuel + 1, window, next, mb =>
    match window.remove next with
    | (_, none) => (window, next, mb)
    | (window, some seg) =>
      drainLoop fuel window (next + 1) (match seg.payload with
        | some buf => mb.push buf
        | none => mb)

def readMultiBuffer (w : ReceivingWorker) : MultiBuffer × ReceivingWorker :=
  match w.leftOver with
  | some mb => (mb, { w with leftOver := none })
  | none =>
    let (window, next, mb) := drainLoop w.window.cache.keys.length w.window w.nextNumber .new
    (mb, { w with window := window, nextNumber := next })

def read (w : ReceivingWorker) (want : Nat) : Bytes × ReceivingWorker :=
  let (mb, w) := w.readMultiBuffer
  if mb.isEmpty then ([], w)
  else
    let (split, rest) := mb.splitBytes want
    (split.toVec, if rest.isEmpty then w else { w with leftOver := some rest })

def isDataAvailable (w : ReceivingWorker) : Bool := w.window.has w.nextNumber

def updateNecessary (w : ReceivingWorker) : Bool := 0 < w.acklist.entries.length

def flush (w : ReceivingWorker) (rtt : RoundTripInfo) (current : UInt32) (state : State) :
    ReceivingWorker × List AckSegment :=
  let (acklist, segments) := w.acklist.flush current rtt.timeout
  ({ w with acklist := acklist }, segments.map fun seg =>
    { seg with
      conv := w.conv
      option := if state = .readyToClose then SEGMENT_OPTION_CLOSE else 0
      receivingNext := w.nextNumber
      receivingWindow := w.nextNumber + w.windowSize })

end ReceivingWorker

end XrayCore.Kcp
