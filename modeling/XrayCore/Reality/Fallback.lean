import XrayCore.Lib.BigEndian

/-!
# The REALITY fallback

A connection whose first record is not that of a REALITY client is to look like one to `dest`. The
record is read before anything is decided, and an error of that reading ends the connection.
-/

namespace XrayCore.Reality

open Lib List

def readExact : Nat → List Bytes → Option (Bytes × List Bytes)
  | n, [] => if n = 0 then some ([], []) else none
  | n, piece :: pieces =>
    if n ≤ piece.length then some (piece.take n, piece.drop n :: pieces)
    else (readExact (n - piece.length) pieces).map fun r => (piece ++ r.1, r.2)

def MAX_TLS_RECORD_LEN : Nat := 16384

inductive RecordRead
  | record (bytes : Bytes) (rest : List Bytes)
  | insufficient
  | tooLong
  deriving DecidableEq

def readTlsRecord (pieces : List Bytes) : RecordRead :=
  match readExact 5 pieces with
  | none => .insufficient
  | some (header, pieces) =>
    let length := (u16At header 3).toNat
    if length > MAX_TLS_RECORD_LEN then .tooLong
    else
      match readExact length pieces with
      | none => .insufficient
      | some (body, rest) => .record (header ++ body) rest

inductive Outcome
  | waiting
  | closed
  | verified
  | relayed (toDest : Bytes)
  deriving DecidableEq

/-- The connection task, with `server_tls` and `fallback_to_dest`, on what the client has sent until
now and whether it has ended. -/
def serve (verifyAndProbe : Bytes → Bool) (proxyHeader : Bytes) (pieces : List Bytes)
    (ended : Bool) : Outcome :=
  match readTlsRecord pieces with
  | .tooLong => .closed
  | .insufficient => if ended then .closed else .waiting
  | .record record rest =>
    if verifyAndProbe record then .verified
    else .relayed (proxyHeader ++ record ++ rest.flatten)

/-- A client that is not a REALITY one sees a relay. -/
def Transparent (proxyHeader sent : Bytes) (ended : Bool) : Outcome → Prop
  | .waiting => ended = false
  | .closed => False
  | .verified => True
  | .relayed toDest =>
    toDest <+: proxyHeader ++ sent ∧ (ended = true → toDest = proxyHeader ++ sent)

def recordLength (sent : Bytes) : Nat := (u16At sent 3).toNat

end XrayCore.Reality
