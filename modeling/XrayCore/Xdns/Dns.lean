import XrayCore.Lib.BigEndian
import XrayCore.Lib.Fallible

/-!
# DNS messages

The wire format of the DNS tunnel. A name is a sequence of labels; the writer keeps where it has
put each suffix of a name and writes a pointer when the suffix comes again, the reader follows at
most ten pointers for a name. The data of a CNAME record is read as a name and written out again
without pointers.
-/

namespace XrayCore.Xdns

open Lib

def COMPRESSION_POINTER_LIMIT : Nat := 10

def RR_TYPE_CNAME : UInt16 := 5

def RR_TYPE_OPT : UInt16 := 41

def CLASS_IN : UInt16 := 1

inductive DnsError
  | zeroLengthLabel
  | longLabel
  | longName
  | nameEof
  | unexpectedEof
  | tooManyPointers
  | reservedLabel
  | trailingBytes
  | integerOverflow
  deriving DecidableEq

def DnsError.message : DnsError → String
  | zeroLengthLabel => "name contains a zero-length label"
  | longLabel => "name contains a label longer than 63 octets"
  | longName => "name is longer than 255 octets"
  | nameEof => "unexpected eof reading name"
  | unexpectedEof => "failed to fill whole buffer"
  | tooManyPointers => "too many compression pointers"
  | reservedLabel => "reserved label type"
  | trailingBytes => "trailing bytes after message"
  | integerOverflow => "integer overflow"

def wireLen : List Bytes → Nat
  | [] => 1
  | label :: labels => 1 + label.length + wireLen labels

def ValidLabels (labels : List Bytes) : Prop :=
  (∀ label ∈ labels, label ≠ [] ∧ label.length ≤ 63) ∧ wireLen labels ≤ 255

instance (labels : List Bytes) : Decidable (ValidLabels labels) := by
  unfold ValidLabels
  infer_instance

structure Name where
  labels : List Bytes
  valid : ValidLabels labels
  deriving DecidableEq

namespace Name

def labelError (label : Bytes) : Option DnsError :=
  if label = [] then some .zeroLengthLabel
  else if label.length > 63 then some .longLabel
  else none

def new (labels : List Bytes) : Except DnsError Name :=
  if h : ValidLabels labels then .ok ⟨labels, h⟩
  else .error ((labels.findSome? labelError).getD .longName)

theorem valid_nil : ValidLabels [] := by decide

def root : Name := ⟨[], valid_nil⟩

theorem new_labels (n : Name) : new n.labels = .ok n := dif_pos n.valid

end Name

structure Question where
  name : Name
  qtype : UInt16
  qclass : UInt16
  deriving DecidableEq

structure RR where
  name : Name
  rtype : UInt16
  rclass : UInt16
  ttl : UInt32
  data : Bytes
  deriving DecidableEq

structure Message where
  id : UInt16
  flags : UInt16
  question : List Question
  answer : List RR
  authority : List RR
  additional : List RR
  deriving DecidableEq

namespace Message

def opcode (m : Message) : UInt16 := (m.flags >>> 11) &&& 0xf

def counts (m : Message) : List Nat :=
  [m.question.length, m.answer.length, m.authority.length, m.additional.length]

def records (m : Message) : List RR := m.answer ++ m.authority ++ m.additional

end Message

def readExact (buf : Bytes) (pos n : Nat) : Except DnsError (Bytes × Nat) :=
  if pos + n ≤ buf.length then .ok ((buf.drop pos).take n, pos + n) else .error .unexpectedEof

/-- The loop of `read_name`. `pointers` have been followed; `seekTo` is the position behind the
first of them. -/
def readNameLoop (buf : Bytes) (pos : Nat) (labels : List Bytes) (pointers seekTo : Nat) :
    Except DnsError (Name × Nat) :=
  match buf[pos]? with
  | none => .error .nameEof
  | some labelType =>
    if labelType &&& 0xc0 = 0 then
      let length := (labelType &&& 0x3f).toNat
      if length = 0 then do
        let name ← Name.new labels
        .ok (name, if pointers > 0 then seekTo else pos + 1)
      else if pos + 1 + length > buf.length then .error .unexpectedEof
      else
        readNameLoop buf (pos + 1 + length) (labels ++ [(buf.drop (pos + 1)).take length]) pointers
          seekTo
    else if labelType &&& 0xc0 = 0xc0 then
      match buf[pos + 1]? with
      | none => .error .unexpectedEof
      | some lower =>
        let offset := (labelType &&& 0x3f).toNat * 256 + lower.toNat
        if pointers + 1 > COMPRESSION_POINTER_LIMIT then .error .tooManyPointers
        else
          readNameLoop buf offset labels (pointers + 1) (if pointers = 0 then pos + 2 else seekTo)
    else .error .reservedLabel
termination_by (COMPRESSION_POINTER_LIMIT - pointers) * (buf.length + 1) + (buf.length - pos)
decreasing_by
  · omega
  have hless : COMPRESSION_POINTER_LIMIT - pointers =
      COMPRESSION_POINTER_LIMIT - (pointers + 1) + 1 := by omega
  rw [hless, Nat.succ_mul]
  omega

def readName (buf : Bytes) (pos : Nat) : Except DnsError (Name × Nat) :=
  readNameLoop buf pos [] 0 0

def readQuestion (buf : Bytes) (pos : Nat) : Except DnsError (Question × Nat) := do
  let (name, pos) ← readName buf pos
  let (b, pos) ← readExact buf pos 4
  .ok (⟨name, u16At b 0, u16At b 2⟩, pos)

def labelBytes : List Bytes → Bytes
  | [] => [0]
  | label :: labels => UInt8.ofNat label.length :: label ++ labelBytes labels

/-- A name in CNAME data that cannot be read leaves the bytes as they are. If it can be read, the
position is behind the name, not behind the data. -/
def readRR (buf : Bytes) (pos : Nat) : Except DnsError (RR × Nat) := do
  let (name, pos) ← readName buf pos
  let (head, pos) ← readExact buf pos 8
  let (rdLen, pos) ← readExact buf pos 2
  let rdLength := (u16At rdLen 0).toNat
  let (data, afterData) ← readExact buf pos rdLength
  let rr : RR := ⟨name, u16At head 0, u16At head 2, u32At head 4, data⟩
  if rr.rtype ≠ RR_TYPE_CNAME ∨ rdLength = 0 then .ok (rr, afterData)
  else
    match readName buf pos with
    | .ok (cname, pos) => .ok ({ rr with data := labelBytes cname.labels }, pos)
    | .error _ => .ok (rr, afterData)

def readMany {α : Type} (read : Nat → Except DnsError (α × Nat)) :
    Nat → Nat → Except DnsError (List α × Nat)
  | 0, pos => .ok ([], pos)
  | n + 1, pos => do
    let (a, pos) ← read pos
    let (as, pos) ← readMany read n pos
    .ok (a :: as, pos)

def readMessage (buf : Bytes) : Except DnsError (Message × Nat) := do
  let (header, pos) ← readExact buf 0 12
  let (question, pos) ← readMany (readQuestion buf) (u16At header 4).toNat pos
  let (answer, pos) ← readMany (readRR buf) (u16At header 6).toNat pos
  let (authority, pos) ← readMany (readRR buf) (u16At header 8).toNat pos
  let (additional, pos) ← readMany (readRR buf) (u16At header 10).toNat pos
  .ok (⟨u16At header 0, u16At header 2, question, answer, authority, additional⟩, pos)

def messageFromWireFormat (buf : Bytes) : Except DnsError Message := do
  let (message, pos) ← readMessage buf
  if pos < buf.length then .error .trailingBytes else .ok message

def isPlain (b : UInt8) : Bool :=
  b == 45 || (48 ≤ b && b ≤ 57) || (65 ≤ b && b ≤ 90) || (97 ≤ b && b ≤ 122)

def hexDigit (n : Nat) : UInt8 := UInt8.ofNat (if n < 10 then 48 + n else 87 + n)

/-- A letter, a digit and `-` stand for themselves, another byte is written as `\\xXX`. -/
def escape (b : UInt8) : Bytes :=
  if isPlain b then [b] else [92, 120, hexDigit (b.toNat / 16), hexDigit (b.toNat % 16)]

def suffixStr (labels : List Bytes) : Bytes :=
  if labels = [] then [46] else [46].intercalate (labels.map fun label => label.flatMap escape)

structure MessageBuilder where
  w : Bytes
  nameCache : Bytes → Option Nat

namespace MessageBuilder

def new : MessageBuilder := ⟨[], fun _ => none⟩

def push (b : MessageBuilder) (bytes : Bytes) : MessageBuilder := { b with w := b.w ++ bytes }

def pointer? (b : MessageBuilder) (suffix : List Bytes) : Option Nat :=
  (b.nameCache (suffixStr suffix)).filter fun ptr => ptr &&& 0x3fff = ptr

def pushLabel (b : MessageBuilder) (label : Bytes) (suffix : List Bytes) : MessageBuilder :=
  { w := b.w ++ UInt8.ofNat label.length :: label
    nameCache := Function.update b.nameCache (suffixStr suffix) (some b.w.length) }

def writeLabels (b : MessageBuilder) : List Bytes → MessageBuilder
  | [] => b.push [0]
  | label :: labels =>
    match b.pointer? (label :: labels) with
    | some ptr => b.push [0xc0 ||| UInt8.ofNat (ptr / 256), UInt8.ofNat (ptr % 256)]
    | none => (b.pushLabel label (label :: labels)).writeLabels labels

def writeQuestion (b : MessageBuilder) (q : Question) : MessageBuilder :=
  (b.writeLabels q.name.labels).push (be16 q.qtype ++ be16 q.qclass)

def writeRR (b : MessageBuilder) (rr : RR) : Except DnsError MessageBuilder :=
  let b := (b.writeLabels rr.name.labels).push (be16 rr.rtype ++ be16 rr.rclass ++ be32 rr.ttl)
  if rr.data.length ≤ 0xffff then
    .ok (b.push (be16 (UInt16.ofNat rr.data.length) ++ rr.data))
  else .error .integerOverflow

def writeMessage (b : MessageBuilder) (m : Message) : Except DnsError MessageBuilder :=
  if ∃ c ∈ m.counts, c > 0xffff then .error .integerOverflow
  else
    let b := b.push (be16 m.id ++ be16 m.flags ++ m.counts.flatMap fun c => be16 (UInt16.ofNat c))
    m.records.foldlM writeRR (m.question.foldl writeQuestion b)

end MessageBuilder

def Message.wireFormat (m : Message) : Except DnsError Bytes := do
  let b ← MessageBuilder.new.writeMessage m
  .ok b.w

end XrayCore.Xdns
