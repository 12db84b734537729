import XrayCore.Lib.BigEndian
import XrayCore.Lib.Fallible
import XrayCore.Lib.Slots
import XrayCore.Lib.Tally

/-!
# Reassembly of fragments

The server collects fragments by client and fragment number. An entry lives for eight seconds after
its last fragment; its size, the sizes of a client's entries together, kept in a map of their own,
and the number of entries are limited. A map that is only looked up is a function; where the entries
are gone through, the order is a parameter.
-/

namespace XrayCore.Xdns

open Lib

abbrev ClientID := { b : Bytes // b.length = 8 }

abbrev Instant := Nat

def FRAG_TTL : Nat := 8000000000

def FRAG_SIZE : Nat := 4096

def FRAG_CLIENT_ID_SIZE : Nat := 16384

def FRAG_COUNT : Nat := 4096

structure FragKey where
  clientId : ClientID
  fragId : UInt8
  deriving DecidableEq

structure FragEntry where
  data : List (Option Bytes)
  size : Nat
  filled : Nat
  total : UInt8
  deadline : Instant

def FragEntry.store (e : FragEntry) (now : Instant) (fragIdx : UInt8) (data : Bytes) : FragEntry :=
  ⟨e.data.set fragIdx.toNat (some data), e.size + data.length, e.filled + 1, e.total,
    now + FRAG_TTL⟩

structure Inner where
  m : AList fun _ : FragKey => FragEntry
  sizem : ClientID → Option Nat
  closed : Bool

namespace Inner

def new : Inner := ⟨∅, fun _ => none, false⟩

def credit (g : Inner) (clientId : ClientID) (n : Nat) : Inner :=
  { g with sizem := Function.update g.sizem clientId (some ((g.sizem clientId).getD 0 + n)) }

def debit (g : Inner) (clientId : ClientID) (n : Nat) : Inner :=
  let s := (g.sizem clientId).getD 0 - n
  { g with sizem := Function.update g.sizem clientId (if s = 0 then none else some s) }

def removeEntry (g : Inner) (k : FragKey) : Inner :=
  match g.m.lookup k with
  | none => g
  | some e => debit { g with m := g.m.erase k } k.clientId e.size

def sweepExpired (it : Iteration FragKey) (now : Instant) (g : Inner) : Inner :=
  if g.closed then g
  else
    let expired := (it.order g.m.keys).filter fun k =>
      (g.m.lookup k).any fun e => now > e.deadline
    expired.foldl removeEntry g

def close (_ : Inner) : Inner := ⟨∅, fun _ => none, true⟩

def tryRemove (it : Iteration FragKey) (g : Inner) : Checked Inner :=
  if g.m.keys.length < FRAG_COUNT then .ok g
  else
    match it.order g.m.keys with
    | [] => .ok g
    | first :: keys => do
      let e ← Checked.expect (g.m.lookup first)
      let (worst, _) ← keys.foldlM
        (fun (worst, worstDl) k => do
          let e ← Checked.expect (g.m.lookup k)
          .ok (if e.deadline < worstDl then (k, e.deadline) else (worst, worstDl)))
        (first, e.deadline)
      .ok (g.removeEntry worst)

def newEntry (fragN : UInt8) (now : Instant) : FragEntry :=
  ⟨List.replicate fragN.toNat none, 0, 0, fragN, now + FRAG_TTL⟩

def isFresh (g : Inner) (now : Instant) (key : FragKey) : Bool :=
  match g.m.lookup key with
  | none => true
  | some e => now > e.deadline

def makeRoom (it : Iteration FragKey) (key : FragKey) (g : Inner) : Checked Inner :=
  if (g.m.lookup key).isNone then g.tryRemove it else .ok (g.removeEntry key)

def prepare (it : Iteration FragKey) (now : Instant) (key : FragKey) (fragN : UInt8) (g : Inner) :
    Checked Inner :=
  if g.isFresh now key then do
    let g ← g.makeRoom it key
    .ok { g with m := g.m.insert key (newEntry fragN now) }
  else .ok g

def rejects (g : Inner) (key : FragKey) (e : FragEntry) (fragIdx fragN : UInt8) (data : Bytes) :
    Checked Bool := do
  let last ← Checked.sub e.total.toNat 1
  let overClientBudget := e.filled < last ∧
    (g.sizem key.clientId).getD 0 + data.length > FRAG_CLIENT_ID_SIZE
  if fragN ≠ e.total ∨ fragIdx ≥ e.total then .ok true
  else
    let part ← Checked.index e.data fragIdx.toNat
    .ok (part.isSome ∨ e.size + data.length > FRAG_SIZE ∨ overClientBudget)

def place (g : Inner) (now : Instant) (key : FragKey) (e : FragEntry) (fragIdx : UInt8)
    (data : Bytes) : Checked (Inner × Bytes) := do
  let _ ← Checked.index e.data fragIdx.toNat
  let e := e.store now fragIdx data
  let g := g.credit key.clientId data.length
  if e.filled = e.total.toNat then
    let parts ← e.data.mapM Checked.expect
    .ok (debit { g with m := g.m.erase key } key.clientId e.size, parts.flatten)
  else .ok ({ g with m := g.m.insert key e }, [])

def feed (it : Iteration FragKey) (now : Instant) (key : FragKey) (fragIdx fragN : UInt8)
    (data : Bytes) (g : Inner) : Checked (Inner × Bytes) :=
  if g.closed ∨ fragN < 2 then .ok (g, [])
  else do
    let g ← g.prepare it now key fragN
    match g.m.lookup key with
    | none => .ok (g, [])
    | some e =>
      if ← g.rejects key e fragIdx fragN data then .ok (g, [])
      else g.place now key e fragIdx data

end Inner

end XrayCore.Xdns
