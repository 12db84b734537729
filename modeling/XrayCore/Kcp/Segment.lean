import XrayCore.Buf.Buffer

/-!
# mKCP segments

The three segment kinds of mKCP, their wire format and the packet reader. All kinds share a
four-byte header (conversation, command, option); integers are big endian. `serialize` gives the
bytes the source writes into a slice of `byte_size` bytes; the validity flag and the length that a
`parse` of the source returns are an `Option` here.
-/

namespace XrayCore.Kcp

open Lib Buf

inductive Command
  | ack
  | data
  | terminate
  | ping
  deriving DecidableEq, Repr

def Command.toU8 : Command → UInt8
  | .ack => 0
  | .data => 1
  | .terminate => 2
  | .ping => 3

def Command.fromU8 (v : UInt8) : Option Command :=
  if v = 0 then some .ack
  else if v = 1 then some .data
  else if v = 2 then some .terminate
  else if v = 3 then some .ping
  else none

@[simp] theorem Command.fromU8_toU8 (c : Command) : fromU8 c.toU8 = some c := by
  cases c <;> rfl

theorem Command.toU8_of_fromU8 (h : fromU8 v = some c) : c.toU8 = v := by
  unfold fromU8 at h
  repeat' split at h
  all_goals cases h
  all_goals exact Eq.symm ‹_›

def SEGMENT_OPTION_CLOSE : UInt8 := 1

def header (conv : UInt16) (cmd : Command) (opt : UInt8) : Bytes := be16 conv ++ [cmd.toU8, opt]

@[simp] theorem length_header : (header conv cmd opt).length = 4 := rfl

/-- `timeout` and `transmit` are the sending window's own and not on the wire. -/
structure DataSegment where
  conv : UInt16
  option : UInt8
  timestamp : UInt32
  number : UInt32
  sendingNext : UInt32
  payload : Option Buffer
  timeout : UInt32
  transmit : UInt32
  deriving DecidableEq

def DataSegment.new : DataSegment := ⟨0, 0, 0, 0, 0, none, 0, 0⟩

def DataSegment.payloadBytes (s : DataSegment) : Bytes :=
  match s.payload with
  | some b => b.bytes
  | none => []

def DataSegment.body (s : DataSegment) : Bytes :=
  be32 s.timestamp ++ (be32 s.number ++ (be32 s.sendingNext ++
    (be16 (UInt16.ofNat s.payloadBytes.length) ++ s.payloadBytes)))

def DataSegment.serialize (s : DataSegment) : Bytes := header s.conv .data s.option ++ s.body

def DataSegment.parse (s : DataSegment) (conv : UInt16) (opt : UInt8) (body : Bytes) :
    Option (DataSegment × Nat) :=
  if body.length < 14 then none
  else
    let dataLen := (u16At body 12).toNat
    if body.length < 14 + dataLen then none
    else
      -- `data()` allocates a pooled buffer when there is none yet
      let payload := (s.payload.getD Buffer.new).clear
      some ({ s with
        conv := conv
        option := opt
        timestamp := u32At body 0
        number := u32At body 4
        sendingNext := u32At body 8
        payload := some (payload.writeFrom ((body.drop 14).take dataLen)).1 }, 14 + dataLen)

def ACK_NUMBER_LIMIT : Nat := 128

structure AckSegment where
  conv : UInt16
  option : UInt8
  receivingWindow : UInt32
  receivingNext : UInt32
  timestamp : UInt32
  numberList : List UInt32
  limit : Nat
  deriving DecidableEq

def AckSegment.new (limit : Nat) : AckSegment :=
  ⟨0, 0, 0, 0, 0, [], max 1 (min limit ACK_NUMBER_LIMIT)⟩

def AckSegment.putNumber (s : AckSegment) (n : UInt32) : AckSegment :=
  { s with numberList := s.numberList ++ [n] }

def AckSegment.putTimestamp (s : AckSegment) (timestamp : UInt32) : AckSegment :=
  if timestamp - s.timestamp < 0x7FFFFFFF then { s with timestamp := timestamp } else s

def AckSegment.isFull (s : AckSegment) : Bool := s.numberList.length == s.limit

def AckSegment.isEmpty (s : AckSegment) : Bool := s.numberList.isEmpty

def AckSegment.body (s : AckSegment) : Bytes :=
  be32 s.receivingWindow ++ (be32 s.receivingNext ++ (be32 s.timestamp ++
    (UInt8.ofNat s.numberList.length :: s.numberList.flatMap be32)))

def AckSegment.serialize (s : AckSegment) : Bytes := header s.conv .ack s.option ++ s.body

def AckSegment.parse (s : AckSegment) (conv : UInt16) (opt : UInt8) (body : Bytes) :
    Option (AckSegment × Nat) :=
  if body.length < 13 then none
  else
    let count := (byteAt body 12).toNat
    if body.length < 13 + count * 4 then none
    else
      some ({ s with
        conv := conv
        option := opt
        receivingWindow := u32At body 0
        receivingNext := u32At body 4
        timestamp := u32At body 8
        numberList := (List.range count).map fun i => u32At body (13 + i * 4) }, 13 + count * 4)

structure CmdOnlySegment where
  conv : UInt16
  cmd : Command
  option : UInt8
  sendingNext : UInt32
  receivingNext : UInt32
  peerRto : UInt32
  deriving DecidableEq

def CmdOnlySegment.new : CmdOnlySegment := ⟨0, .ping, 0, 0, 0, 0⟩

def CmdOnlySegment.body (s : CmdOnlySegment) : Bytes :=
  be32 s.sendingNext ++ (be32 s.receivingNext ++ be32 s.peerRto)

def CmdOnlySegment.serialize (s : CmdOnlySegment) : Bytes := header s.conv s.cmd s.option ++ s.body

def CmdOnlySegment.parse (s : CmdOnlySegment) (conv : UInt16) (cmd : Command) (opt : UInt8)
    (body : Bytes) : Option (CmdOnlySegment × Nat) :=
  if body.length < 12 then none
  else
    some ({ s with
      conv := conv
      cmd := cmd
      option := opt
      sendingNext := u32At body 0
      receivingNext := u32At body 4
      peerRto := u32At body 8 }, 12)

inductive SegmentKind
  | data (s : DataSegment)
  | ack (s : AckSegment)
  | cmd (s : CmdOnlySegment)
  deriving DecidableEq

def SegmentKind.serialize : SegmentKind → Bytes
  | .data s => s.serialize
  | .ack s => s.serialize
  | .cmd s => s.serialize

def parseBody (conv : UInt16) (cmd : Command) (opt : UInt8) (body : Bytes) :
    Option (SegmentKind × Nat) :=
  match cmd with
  | .data => (DataSegment.new.parse conv opt body).map fun p => (.data p.1, p.2)
  | .ack => ((AckSegment.new ACK_NUMBER_LIMIT).parse conv opt body).map fun p => (.ack p.1, p.2)
  | .terminate | .ping =>
    (CmdOnlySegment.new.parse conv cmd opt body).map fun p => (.cmd p.1, p.2)

def readSegment (buf : Bytes) : Option (SegmentKind × Nat) :=
  if buf.length < 4 then none
  else do
    let cmd ← Command.fromU8 (byteAt buf 2)
    let (seg, consumed) ← parseBody (u16At buf 0) cmd (byteAt buf 3) (buf.drop 4)
    return (seg, 4 + consumed)

def KCPPacketReader.read (b : Bytes) : List SegmentKind :=
  if b = [] then []
  else
    match readSegment b with
    | some (seg, consumed) =>
      if consumed = 0 then [] else seg :: KCPPacketReader.read (b.drop consumed)
    | none => []
termination_by b.length
decreasing_by
  have := List.length_pos_iff.mpr ‹b ≠ []›
  simp only [List.length_drop]
  omega

end XrayCore.Kcp
