import XrayCore.Net.Address
import XrayCore.Xdns.Frag
import XrayCore.Xdns.Resp

/-!
# The client's side of the tunnel

`sendOnce` puts a packet into queries for a domain and a type that are drawn: a poll when there is
nothing to send, one query when the packet fits, fragments otherwise. The queries go to the
resolvers in turn. `clientRead` takes the packets out of a response.
-/

namespace XrayCore.Xdns

open Lib List
open Net (SocketAddr)

structure Draws where
  domain : UInt32
  qtype : UInt32
  poll : { b : Bytes // b.length = 8 }
  fill : { b : Bytes // b.length = 3 }
  ids : Nat → UInt32

structure ClientState where
  clientId : ClientID
  domains : List Domain
  resolvers : List SocketAddr
  /-- How often each resolver was asked since it last answered. -/
  sends : List UInt32
  index : UInt32
  fragId : UInt32

inductive SendError
  /-- An index out of range: a client without domains, types or resolvers. -/
  | index
  | domain (e : DomainError)
  | dns (e : DnsError)
  deriving DecidableEq

namespace ClientState

def queryMessage (id : UInt32) (domain : Domain) (qtype : UInt16) (name : Name) : Message :=
  { id := UInt16.ofNat (id &&& 0xffff).toNat
    flags := 0x0100
    question := [⟨name, qtype, CLASS_IN⟩]
    answer := []
    authority := []
    additional := if domain.edns0 > 0 then [⟨Name.root, RR_TYPE_OPT, domain.edns0, 0, []⟩] else [] }

/-- The search for the next resolver, for at most `k` more steps; after as many steps as there are
resolvers it is back at `index`. -/
def rotate (sends : List UInt32) (index : Nat) (cur : UInt32) : Nat → Nat → Nat
  | 0, i => i
  | k + 1, i =>
    let i := (i + 1) % sends.length
    if i = index then i
    else if cur > sends.getD i 0 then i
    else rotate sends index cur k i

def nextResolver (c : ClientState) : Except SendError (ClientState × SocketAddr) :=
  let n := c.resolvers.length
  let index := c.index.toNat % n
  match c.resolvers[index]? with
  | none => .error .index
  | some resolver =>
    let cur := c.sends.getD index 0 + 1
    let sends := c.sends.set index cur
    let i := rotate sends index cur n index
    .ok ({ c with sends := sends, index := UInt32.ofNat i }, resolver)

def sendMsg (c : ClientState) (id : UInt32) (p : Bytes) (domain : Domain) (qtype : UInt16) :
    Except SendError (ClientState × (Bytes × SocketAddr)) := do
  let name ← (domain.encode p).mapError .dns
  let pack ← (queryMessage id domain qtype name).wireFormat.mapError .dns
  let (c, resolver) ← c.nextResolver
  .ok (c, (pack, resolver))

def pick (c : ClientState) (draws : Draws) : Except SendError (Domain × UInt16) :=
  let nDomains := c.domains.length
  let domainIdx := if nDomains = 1 then 0 else draws.domain.toNat % nDomains
  match c.domains[domainIdx]? with
  | none => .error .index
  | some domain =>
    let nTypes := domain.types.length
    let typeIdx := if nTypes = 1 then 0 else draws.qtype.toNat % nTypes
    match domain.types[typeIdx]? with
    | none => .error .index
    | some qtype => .ok (domain, qtype)

theorem length_markId (cid : ClientID) (bits : UInt8) :
    ((byteAt cid.1 0 ||| bits) :: cid.1.drop 1).length = 8 := by
  rw [length_cons, length_drop, cid.2]

def markId (clientId : ClientID) (bits : UInt8) : ClientID :=
  ⟨(byteAt clientId.1 0 ||| bits) :: clientId.1.drop 1, length_markId clientId bits⟩

def sendFrags (draws : Draws) (domain : Domain) (qtype : UInt16) (front : Bytes) (fragId : UInt8)
    (fragN unit : Nat) : ClientState → Nat → Nat → Bytes →
    Except SendError (ClientState × List (Bytes × SocketAddr))
  | c, _, 0, _ => .ok (c, [])
  | c, i, k + 1, rest => do
    let size := min rest.length unit
    let data := front ++ [fragId, UInt8.ofNat i, UInt8.ofNat fragN] ++ rest.take size
    let (c, query) ← c.sendMsg (draws.ids i) data domain qtype
    let (c, queries) ← sendFrags draws domain qtype front fragId fragN unit c (i + 1) k
      (rest.drop size)
    .ok (c, query :: queries)

def sendOnce (c : ClientState) (draws : Draws) (p : Bytes) :
    Except SendError (ClientState × List (Bytes × SocketAddr)) := do
  let (domain, qtype) ← c.pick draws
  let bits ← (typeMap qtype).mapError .domain
  let id := (markId c.clientId bits).1
  if p = [] then
    let (c, query) ← c.sendMsg (draws.ids 0) (id ++ [8] ++ draws.poll.1) domain qtype
    .ok (c, [query])
  else if p.length ≤ domain.cap - 12 then
    let (c, query) ← c.sendMsg (draws.ids 0) (id ++ [3] ++ draws.fill.1 ++ p) domain qtype
    .ok (c, [query])
  else if p.length ≤ 255 * (domain.cap - 15) then
    let fragId := UInt8.ofNat (c.fragId + 1).toNat
    let unit := domain.cap - 15
    let fragN := (p.length + unit - 1) / unit
    sendFrags draws domain qtype (id ++ [3 ||| 0xc0] ++ draws.fill.1) fragId fragN unit
      { c with fragId := c.fragId + 1 } 0 fragN p
  else .ok (c, [])

/-- The packets of the data. A length beyond the end throws away all of them, and so does an end
without the mark of the last packet. -/
def unframe (bs : List Bytes) (b : Bytes) : List Bytes :=
  match b with
  | high :: low :: rest =>
    let last := high &&& 0xc0 = 0xc0
    let length := (high &&& 0x3f).toNat <<< 8 ||| low.toNat
    if length > rest.length then []
    else
      let bs := bs ++ [rest.take length]
      if last then bs
      else
        let b := rest.drop length
        unframe (if b.length < 2 then [] else bs) b
  | _ => bs
termination_by b.length
decreasing_by
  simp only [length_drop, length_cons]
  omega

def clientRead (c : ClientState) (buf : Bytes) : Checked (List Bytes) :=
  match messageFromWireFormat buf with
  | .error _ => .ok []
  | .ok msg =>
    if msg.flags &&& 0x8000 = 0 ∨ msg.flags &&& 0x0200 ≠ 0 ∨ msg.flags &&& 0x000f ≠ 0 ∨
        msg.question.length ≠ 1 then .ok []
    else do
      let q ← Checked.index msg.question 0
      match ← c.domains.findM? fun d => d.isDomain q.name with
      | none => .ok []
      | some domain =>
        if domain.hasType q.qtype then
          let resp ← Resp.new msg domain 0
          let payload ← resp.decode
          .ok (unframe [] payload)
        else .ok []

end ClientState

end XrayCore.Xdns
