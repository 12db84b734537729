import XrayCore.Lib.TwoPools
import XrayCore.Shadowsocks.Stream

/-!
# Shadowsocks 2022 requests

The server's side of a handshake: salt, fixed header, timestamp, variable header, and last the salt
filter. The inbound for one user and the one for many differ in how they find the key. A request
reads the clock twice: when the timestamp is checked, and when the filter is asked.
-/

namespace XrayCore.Shadowsocks

open Lib Crypto Net

abbrev SaltReplayFilter := TwoPools Bytes

def REPLAY_WINDOW : Nat := 60 * second

namespace SaltReplayFilter

def new (interval now : Nat) : SaltReplayFilter := TwoPools.new interval now

def check (replay : SaltReplayFilter) (now : Nat) (salt : Bytes) : Bool × SaltReplayFilter :=
  TwoPools.check replay now salt

end SaltReplayFilter

/-- The sum does not overflow: the seconds of a system clock are below `2 ^ 63`. -/
def checkTimestamp (timestamp : UInt64) (tolerance : Nat) (now : UInt64) : Except SsError Unit :=
  if now.toNat + tolerance < timestamp.toNat ∨ timestamp.toNat < now.toNat - tolerance then
    .error (.ss2022TimestampCheck
      s!"timestamp {timestamp} out of range (now={now}, tol={tolerance})")
  else .ok ()

structure Headers where
  aead : AeadCipher
  nonce : Bytes
  fixedPlain : Bytes
  variablePlain : Bytes
  address : Address
  port : Port
  firstPayload : Bytes
  rest : Bytes

def fixedPlainLen : Nat := 11

def readHeaders (aead : AeadCipher) (tolerance : Nat) (now : UInt64) (fixedWire input : Bytes) :
    Except SsError Headers := do
  let nonce := List.replicate aead.nonceSize 0
  let fixedPlain ← openWire aead nonce fixedWire
  let nonce := increment nonce
  if fixedPlain.length < fixedPlainLen then .error (.insufficientData fixedPlain.length)
  else if byteAt fixedPlain 0 ≠ 0 then .error (.ss2022InvalidHeaderType (byteAt fixedPlain 0))
  else do
    checkTimestamp (u64At fixedPlain 1) tolerance now
    let variableLen := (u16At fixedPlain 9).toNat
    let (variableWire, rest) ← readExact input (variableLen + aead.tagSize)
    let variablePlain ← openWire aead nonce variableWire
    let nonce := increment nonce
    let (address, port, hdrEnd) ← parseVariableHeader variablePlain
    if variablePlain.length < hdrEnd + 2 then .error (.insufficientData variablePlain.length)
    else
      let paddingLen := (u16At variablePlain hdrEnd).toNat
      let payloadStart := hdrEnd + 2 + paddingLen
      if variablePlain.length < payloadStart then .error (.insufficientData variablePlain.length)
      else
        return ⟨aead, nonce, fixedPlain, variablePlain, address, port,
          variablePlain.drop payloadStart, rest⟩

/-- The stream of an accepted request: both nonces at 1, the first payload before the body, the
response header waiting for the first write. -/
def Headers.stream (h : Headers) (psk : Bytes) (kind : CipherKind2022) (salt : Bytes) : SSStream :=
  let stream := SSStream.newWithAeadAndNonce h.rest h.aead (h.nonce.set 0 1)
  { stream with
    readNonce := stream.writeNonce
    plainPrefix := h.firstPayload
    pendingServer2022 := some ⟨psk, kind, salt⟩ }

structure Ss2022User where
  email : String
  psk : Bytes

/-- The salt, the user and the headers of a request, and the key they belong to: all that
comes before the filter. -/
structure Request where
  salt : Bytes
  psk : Bytes
  email : String
  headers : Headers

structure InboundResult where
  address : Address
  port : Port
  stream : SSStream
  userEmail : String

/-- The inbounds for one user and for many. A user of many has the hash of their key beside
them. -/
inductive Inbound
  | single (psk : Bytes) (kind : CipherKind2022) (email : String)
  | multi (psk : Bytes) (kind : CipherKind2022) (users : List (Ss2022User × Bytes))

namespace Inbound

def kind : Inbound → CipherKind2022
  | .single _ kind _ => kind
  | .multi _ kind _ => kind

def timestampTolerance : Nat := 30

def readSingle (L : Library) (psk : Bytes) (kind : CipherKind2022) (email : String)
    (now : UInt64) (conn : Bytes) : Except SsError Request := do
  let (salt, input) ← readExact conn kind.saltSize
  let aead ← L.buildAead kind (L.deriveSessionSubkey psk salt kind)
  let (fixedWire, input) ← readExact input (fixedPlainLen + aead.tagSize)
  let headers ← readHeaders aead timestampTolerance now fixedWire input
  return ⟨salt, psk, email, headers⟩

def readMulti (L : Library) (psk : Bytes) (kind : CipherKind2022)
    (users : List (Ss2022User × Bytes)) (now : UInt64) (conn : Bytes) :
    Except SsError Request := do
  let (salt, input) ← readExact conn kind.saltSize
  let (identityWire, input) ← readExact input Library.identityHeaderLen
  match L.decryptIdentityHeader psk identityWire salt kind with
  | .error _ => .error .ss2022NoUserMatched
  | .ok plaintext =>
    match users.find? fun entry => entry.2 = plaintext with
    | none => .error .ss2022NoUserMatched
    | some (user, _) => do
      let (fixedWire, input) ← readExact input (fixedPlainLen + 16)
      let aead ← L.buildAead kind (L.deriveSessionSubkey user.psk salt kind)
      let headers ← readHeaders aead timestampTolerance now fixedWire input
      return ⟨salt, user.psk, user.email, headers⟩

def readRequest (L : Library) (now : UInt64) (conn : Bytes) : Inbound → Except SsError Request
  | .single psk kind email => readSingle L psk kind email now conn
  | .multi psk kind users => readMulti L psk kind users now conn

/-- `handle_conn`: the filter is asked, and changed, only when all headers were read. -/
def handleConn (L : Library) (inbound : Inbound) (replay : SaltReplayFilter) (conn : Bytes)
    (now : UInt64) (filterNow : Nat) : Except SsError InboundResult × SaltReplayFilter :=
  match inbound.readRequest L now conn with
  | .error e => (.error e, replay)
  | .ok r =>
    let (fresh, replay) := replay.check filterNow r.salt
    if !fresh then (.error .ss2022SaltNotUnique, replay)
    else
      (.ok ⟨r.headers.address, r.headers.port, r.headers.stream r.psk inbound.kind r.salt, r.email⟩,
        replay)

end Inbound

end XrayCore.Shadowsocks
