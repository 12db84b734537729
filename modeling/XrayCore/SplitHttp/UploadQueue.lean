import XrayCore.Lib.BigEndian
import XrayCore.Lib.MinHeap

/-!
# The upload queue

`upload_queue.rs`: packets arrive in any order through a channel and are read as one byte stream in
the order of their `seq`. Of the binary heap only the laws of `Lib.MinHeap` are used.

A `push` is a send that completed. A `read` that finds nothing waits: the model returns `pending`
with the state the waiting call leaves, and the call goes on, from its loop's start, as another
`read`. The sequence number never reaches the end of `u64`.
-/

namespace XrayCore.SplitHttp

open Lib (Bytes MinHeap)

structure Packet where
  payload : Bytes
  seq : Nat
  deriving DecidableEq

inductive SplitHttpError
  | queueClosed
  | packetQueueTooLarge (max current : Nat)
  deriving DecidableEq

inductive ReadResult
  | ok (bytes : Bytes)
  | err (e : SplitHttpError)
  | pending
  deriving DecidableEq

/-- `pushed` is the receiving end of the channel, dropped by `close`. -/
structure UploadQueue (H : Type) where
  heap : H
  pushed : Option (List Packet)
  nextSeq : Nat
  current : Option Packet
  closed : Bool
  maxPackets : Nat

namespace UploadQueue

variable {H : Type} [MinHeap H Packet Packet.seq]

def new (maxPackets : Nat) : UploadQueue H :=
  { heap := MinHeap.empty
    pushed := some []
    nextSeq := 0
    current := none
    closed := false
    maxPackets := maxPackets }

def push (q : UploadQueue H) (packet : Packet) : Except SplitHttpError (UploadQueue H) :=
  match q.pushed with
  | some channel => .ok { q with pushed := some (channel ++ [packet]) }
  | none => .error .queueClosed

def file (q : UploadQueue H) (packet : Packet) : UploadQueue H :=
  if packet.seq = q.nextSeq ∧ q.current.isNone then { q with current := some packet }
  else { q with heap := MinHeap.push q.heap packet }

def close (q : UploadQueue H) : UploadQueue H :=
  let q' := (q.pushed.getD []).foldl file q
  { q' with closed := true, pushed := none }

def consume (q : UploadQueue H) (packet : Packet) (want : Nat) : ReadResult × UploadQueue H :=
  let n := min want packet.payload.length
  if n < packet.payload.length then
    (.ok (packet.payload.take n),
      { q with current := some { packet with payload := packet.payload.drop n } })
  else (.ok (packet.payload.take n), { q with current := none, nextSeq := q.nextSeq + 1 })

/-- The first two parts of the loop of `read`: `current`, then the top of the heap; `none` where the
loop goes on to the channel. -/
def ready (q : UploadQueue H) (want : Nat) : Option (ReadResult × UploadQueue H) :=
  match q.current with
  | some packet => some (q.consume packet want)
  | none =>
    match MinHeap.peek q.heap with
    | some top =>
      if top.seq = q.nextSeq then
        some (consume { q with heap := MinHeap.pop q.heap } top want)
      else if q.maxPackets < MinHeap.len q.heap then
        some (.err (.packetQueueTooLarge q.maxPackets (MinHeap.len q.heap)), q)
      else none
    | none => none

def readLoop (want : Nat) : List Packet → UploadQueue H → ReadResult × UploadQueue H
  | [], q => (q.ready want).getD (.pending, q)
  | packet :: rest, q =>
    match q.ready want with
    | some out => out
    | none =>
      let q := { q with pushed := some rest }
      if packet.seq = q.nextSeq then readLoop want rest { q with current := some packet }
      else if packet.seq < q.nextSeq then readLoop want rest q
      else
        let q := { q with heap := MinHeap.push q.heap packet }
        if q.maxPackets < MinHeap.len q.heap then
          (.err (.packetQueueTooLarge q.maxPackets (MinHeap.len q.heap)), q)
        else readLoop want rest q

def read (q : UploadQueue H) (want : Nat) : ReadResult × UploadQueue H :=
  match q.pushed with
  | some channel => readLoop want channel q
  | none => (q.ready want).getD (.ok [], q)

end UploadQueue

end XrayCore.SplitHttp
