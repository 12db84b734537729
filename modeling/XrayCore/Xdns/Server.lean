import XrayCore.Net.Address
import XrayCore.Xdns.Frag
import XrayCore.Xdns.Resp

/-!
# The server's side of the tunnel

`serverRead` takes a datagram through the DNS reader, the choice of a domain and the decoding of
the name; the data is then a poll, a whole packet or a fragment. Whatever is wrong with a query is
answered at once, by way of a queue for one response that drops what does not fit.
-/

namespace XrayCore.Xdns

open Lib Checked
open Net (SocketAddr Ipv6Addr)

def REC_QUEUE_CAP : Nat := 255

def RCODE_NO_ERROR : UInt16 := 0

def RCODE_FORMAT_ERROR : UInt16 := 1

def RCODE_NAME_ERROR : UInt16 := 3

def RCODE_NOT_IMPLEMENTED : UInt16 := 4

structure Rec where
  resp : Resp
  clientId : ClientID
  addr : SocketAddr
  deriving DecidableEq

structure DrResp where
  msg : Message
  addr : SocketAddr
  deriving DecidableEq

structure Packet where
  data : Bytes
  addr : SocketAddr
  deriving DecidableEq

/-- The queues are what is in the channels, `read` is everything that was handed up. A channel is
open while its receiver is. -/
structure ServerState where
  domains : List Domain
  frag : Inner
  recQueue : List Rec
  recOpen : Bool
  drQueue : List DrResp
  read : List Packet

theorem clientIp_length (cid : ClientID) : (0xfd :: List.replicate 7 0 ++ cid.1).length = 16 := by
  simp [cid.2]

def clientIdToAddr (clientId : ClientID) : SocketAddr :=
  .v6 ⟨0xfd :: List.replicate 7 0 ++ clientId.1, clientIp_length clientId⟩ 0

theorem clientPart_length (addr : Ipv6Addr) : (addr.octets.drop 8).length = 8 := by
  rw [List.length_drop, addr.length_octets]

theorem length_noClient : (List.replicate 8 (0 : UInt8)).length = 8 := rfl

def noClient : ClientID := ⟨List.replicate 8 0, length_noClient⟩

def clientIdFromAddr : SocketAddr → ClientID
  | .v6 addr _ => ⟨addr.octets.drop 8, clientPart_length addr⟩
  | .v4 _ _ => noClient

def toClientId (b : Bytes) : Option ClientID := if h : b.length = 8 then some ⟨b, h⟩ else none

namespace ServerState

def decref (s : ServerState) (msg : Message) (addr : SocketAddr) : ServerState :=
  if s.drQueue.length < 1 then { s with drQueue := s.drQueue ++ [⟨msg, addr⟩] } else s

def trySend (s : ServerState) (r : Rec) : Option ServerState :=
  if s.recOpen ∧ s.recQueue.length < REC_QUEUE_CAP then
    some { s with recQueue := s.recQueue ++ [r] }
  else none

end ServerState

def okHeader (msg : Message) : Message :=
  { msg with flags := 0x8000 ||| 0x0400, answer := [], authority := [], additional := [] }

def setOptTtl (ttl : UInt32) : List RR → List RR
  | [] => []
  | rr :: rrs =>
    if rr.rtype = RR_TYPE_OPT then { rr with ttl := ttl } :: rrs else rr :: setOptTtl ttl rrs

def optLoop (msg : Message) (edns0 : Option UInt16) : List RR → Except Message UInt16
  | [] => .ok ((edns0.map fun size => max 512 (min size 4096)).getD 0)
  | rr :: rrs =>
    if rr.rtype = RR_TYPE_OPT then
      if edns0.isSome then
        .error { msg with flags := (msg.flags &&& ~~~0x000f) ||| (RCODE_FORMAT_ERROR &&& 0xf) }
      else if (rr.ttl >>> 16) &&& 0xff ≠ 0 then
        .error { msg with
          flags := (msg.flags &&& ~~~0x000f) ||| (RCODE_NO_ERROR &&& 0xf)
          additional := setOptTtl ((1 : UInt32) <<< 24) msg.additional }
      else optLoop msg (some rr.rclass) rrs
    else optLoop msg edns0 rrs

namespace ServerState

def deliver (s : ServerState) (it : Iteration FragKey) (now : Instant) (clientId : ClientID)
    (decoded : Bytes) : Checked ServerState := do
  let marker ← index decoded 8
  if marker &&& 0x3f = 8 then .ok s
  else if marker &&& 0xc0 = 0xc0 then
    let fragId ← index decoded 12
    let fragIdx ← index decoded 13
    let fragN ← index decoded 14
    let data ← slice decoded 15 decoded.length
    let (frag, out) ← s.frag.feed it now ⟨clientId, fragId⟩ fragIdx fragN data
    let s := { s with frag := frag }
    if out = [] then .ok s
    else .ok { s with read := s.read ++ [⟨out, clientIdToAddr clientId⟩] }
  else
    let data ← slice decoded 12 decoded.length
    .ok { s with read := s.read ++ [⟨data, clientIdToAddr clientId⟩] }

def wellFormed (qtype : UInt16) (decoded : Bytes) : Checked Bool := do
  let n := decoded.length
  let marker ← index decoded 8
  let flag8 := marker &&& 0x3f
  let first ← index decoded 0
  .ok (¬ (typeMap_ (first &&& 3) ≠ qtype ∨ (flag8 ≠ 3 ∧ flag8 ≠ 8) ∨
    (flag8 = 3 ∧ n < 9 + 3 + 1) ∨ (flag8 = 8 ∧ n ≠ 9 + 8)))

def serveQuery (s : ServerState) (it : Iteration FragKey) (now : Instant) (msg : Message)
    (addr : SocketAddr) (edns0 : UInt16) (q : Question) (domain : Domain) :
    Checked ServerState := do
  let decoded ← domain.decode q.name
  if decoded.length < 9 then .ok (s.decref (okHeader msg) addr)
  else if ← wellFormed q.qtype decoded then
    let front ← slice decoded 0 8
    let clientId ← expect (toClientId front)
    let resp ← Resp.new msg domain edns0
    match s.trySend ⟨resp, clientId, addr⟩ with
    | none => .ok (s.decref (okHeader msg) addr)
    | some s => s.deliver it now clientId decoded
  else .ok (s.decref (okHeader msg) addr)

def serverRead (s : ServerState) (it : Iteration FragKey) (now : Instant) (buf : Bytes)
    (addr : SocketAddr) : Checked ServerState :=
  match messageFromWireFormat buf with
  | .error _ => .ok s
  | .ok msg =>
    if msg.flags &&& 0x8000 ≠ 0 then .ok s
    else if msg.opcode ≠ 0 then
      .ok (s.decref { msg with flags := 0x8000 ||| (RCODE_NOT_IMPLEMENTED &&& 0xf) } addr)
    else if msg.question.length ≠ 1 then
      .ok (s.decref { msg with flags := 0x8000 ||| (RCODE_FORMAT_ERROR &&& 0xf) } addr)
    else
      match optLoop msg none msg.additional with
      | .error msg => .ok (s.decref msg addr)
      | .ok edns0 => do
        let q ← index msg.question 0
        match ← s.domains.findM? fun d => d.isDomain q.name with
        | none =>
          .ok (s.decref { msg with flags := 0x8000 ||| (RCODE_NAME_ERROR &&& 0xf) } addr)
        | some domain =>
          if domain.hasType q.qtype then s.serveQuery it now msg addr edns0 q domain
          else .ok (s.decref (okHeader msg) addr)

end ServerState

def frames : List Bytes → Bytes
  | [] => []
  | p :: ps =>
    let l := if ps = [] then p.length ||| 0xc000 else p.length
    be16 (UInt16.ofNat l) ++ p ++ frames ps

end XrayCore.Xdns
