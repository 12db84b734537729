import XrayCore.Lib.Chunks
import XrayCore.Lib.LeCounter
import XrayCore.Shadowsocks.Key

/-!
# The Shadowsocks stream

`SSStream` of `xray-proxy-ss`: a connection with a cipher and a nonce for each direction. A client
of Shadowsocks 2022 holds its request header back until its first write; a server writes its
response header with its first write. The client reads a response from a buffer its caller fills, in
stages.

The connection is two byte strings, what is still to be read and what was written.
-/

namespace XrayCore.Shadowsocks

open Lib Crypto Net

/-- A legacy account, as far as a response needs it: the size of its IV and the cipher
that an IV gives. -/
structure MemoryAccount where
  ivSize : Nat
  createAead : Bytes → Except SsError (Option AeadCipher)

def openWire (aead : AeadCipher) (nonce wire : Bytes) : Except SsError Bytes :=
  (aead.openBytes nonce [] wire).mapError fun e => .aeadOpen e.toString

inductive Rekey2022
  | salt (psk : Bytes) (kind : CipherKind2022) (requestSalt : Bytes)
  | fixed (fixedPlain : Nat) (requestSalt : Bytes)
  | var (varLen : Nat)

structure PendingServer2022 where
  psk : Bytes
  kind : CipherKind2022
  requestSalt : Bytes

structure PendingClient2022 where
  wirePrefix : Bytes
  fixedPlain : Bytes
  addrPort : Bytes

structure SSStream where
  input : Bytes
  output : Bytes
  writeAead : AeadCipher
  writeNonce : Bytes
  readAead : AeadCipher
  readNonce : Bytes
  tagSize : Nat
  responseRekey : Option MemoryAccount
  responseRekey2022 : Option Rekey2022
  pendingPayload : Option Nat
  pendingServer2022 : Option PendingServer2022
  pendingClient2022 : Option PendingClient2022
  plainPrefix : Bytes
  /-- Not in the code: the cipher and the nonce of every seal so far. -/
  seals : List (AeadCipher × Bytes)

/-- What a write draws at random and the seconds its clock shows. -/
structure Draw where
  padding : UInt16
  salt : Nat → UInt8
  now : UInt64

def Draw.randomSalt (draw : Draw) (kind : CipherKind2022) : Bytes :=
  (List.range kind.saltSize).map draw.salt

@[simp] theorem Draw.length_randomSalt (draw : Draw) (kind : CipherKind2022) :
    (draw.randomSalt kind).length = kind.saltSize := by
  simp [randomSalt]

def MAX_PADDING_LENGTH : Nat := 900

namespace SSStream

def newWithAeadAndNonce (input : Bytes) (aead : AeadCipher) (initialNonce : Bytes) : SSStream where
  input := input
  output := []
  writeAead := aead
  writeNonce := initialNonce
  readAead := aead
  readNonce := List.replicate aead.nonceSize 0xFF
  tagSize := aead.tagSize
  responseRekey := none
  responseRekey2022 := none
  pendingPayload := none
  pendingServer2022 := none
  pendingClient2022 := none
  plainPrefix := []
  seals := []

def bumpWriteNonce (s : SSStream) : SSStream := { s with writeNonce := increment s.writeNonce }

def send (s : SSStream) (wire : Bytes) : SSStream := { s with output := s.output ++ wire }

def sealPart (s : SSStream) (plaintext : Bytes) : Except SsError (Bytes × SSStream) :=
  match s.writeAead.sealBytes s.writeNonce [] plaintext with
  | .error e => .error (.aeadSeal e.toString)
  | .ok wire => .ok (wire, { s with seals := s.seals ++ [(s.writeAead, s.writeNonce)] })

def writeSingleChunk (s : SSStream) (plaintext : Bytes) : Except SsError SSStream :=
  if 65535 < plaintext.length then .error (.insufficientData plaintext.length)
  else do
    let (size, s) ← s.bumpWriteNonce.sealPart (be16 (UInt16.ofNat plaintext.length))
    let (payload, s) ← s.bumpWriteNonce.sealPart plaintext
    return s.send (size ++ payload)

def maxPayload (s : SSStream) : Nat := 8192 - s.tagSize - 2

def writeParts (s : SSStream) (rest : Bytes) : Except SsError SSStream :=
  (chunks (max s.maxPayload 1) rest).foldlM writeSingleChunk s

def emitPendingClient2022 (s : SSStream) (payload : Bytes) (draw : Draw) :
    Except SsError (Bytes × SSStream) :=
  match s.pendingClient2022 with
  | none => .ok (payload, s)
  | some p =>
    let s := { s with pendingClient2022 := none }
    let paddingLen :=
      if payload.length < MAX_PADDING_LENGTH then draw.padding.toNat % MAX_PADDING_LENGTH + 1
      else 0
    let maxFirst := 65535 - p.addrPort.length - 2 - paddingLen
    let first := min payload.length maxFirst
    let var := p.addrPort ++ (be16 (UInt16.ofNat paddingLen) ++
      (List.replicate paddingLen 0 ++ payload.take first))
    if 65535 < var.length then .error (.insufficientData var.length)
    else do
      -- the length of the variable header is known only now
      let fixedPlain := p.fixedPlain.take 9 ++ be16 (UInt16.ofNat var.length)
      let (sealedFixed, s) ← s.sealPart fixedPlain
      let (sealedVar, s) ← s.bumpWriteNonce.sealPart var
      let s := s.bumpWriteNonce
      -- back to 1: a body chunk increments before it seals
      let s := { s with writeNonce := s.writeNonce.set 0 1 }
      return (payload.drop first, s.send (p.wirePrefix ++ (sealedFixed ++ sealedVar)))

def writeResponse (L : Library) (s : SSStream) (p : PendingServer2022) (plaintext : Bytes)
    (draw : Draw) : Except SsError (Bytes × SSStream) :=
  let salt := draw.randomSalt p.kind
  match L.buildAead p.kind (L.deriveSessionSubkey p.psk salt p.kind) with
  | .error e => .error (.initDecode e.toString)
  | .ok aead =>
    let s := { s with
      tagSize := aead.tagSize, writeNonce := List.replicate aead.nonceSize 0xFF, writeAead := aead }
    let firstLen := min plaintext.length s.maxPayload
    let fixed := 1 :: (be64 draw.now ++ (p.requestSalt ++ be16 (UInt16.ofNat firstLen)))
    do
      let (sealedFixed, s) ← s.bumpWriteNonce.sealPart fixed
      let (sealedFirst, s) ← s.bumpWriteNonce.sealPart (plaintext.take firstLen)
      return (plaintext.drop firstLen, s.send (salt ++ (sealedFixed ++ sealedFirst)))

def writeChunk (L : Library) (s : SSStream) (plaintext : Bytes) (draw : Draw) :
    Except SsError SSStream :=
  if plaintext = [] then .ok s
  else if s.pendingClient2022.isSome then do
    let (rest, s) ← s.emitPendingClient2022 plaintext draw
    s.writeParts rest
  else
    match s.pendingServer2022 with
    | none => s.writeParts plaintext
    | some p => do
      let (rest, s) ← { s with pendingServer2022 := none }.writeResponse L p plaintext draw
      s.writeParts rest

def flushPendingClient2022 (s : SSStream) (draw : Draw) : Except SsError SSStream :=
  if s.pendingClient2022.isNone then .ok s
  else do
    let (_, s) ← s.emitPendingClient2022 [] draw
    return s

def openPart (s : SSStream) (wire : Bytes) : Except SsError (Bytes × SSStream) := do
  let nonce := increment s.readNonce
  let plaintext ← openWire s.readAead nonce wire
  return (plaintext, { s with readNonce := nonce })

def rekeyRead (s : SSStream) (account : MemoryAccount) (iv : Bytes) : Except SsError SSStream :=
  match account.createAead iv with
  | .error e => .error e
  | .ok none => .error .unsupportedCipher
  | .ok (some aead) => .ok { s with
      tagSize := aead.tagSize, readNonce := List.replicate aead.nonceSize 0xFF, readAead := aead }

def rekeyForResponse (s : SSStream) (account : MemoryAccount) : Except SsError SSStream := do
  let (iv, input) ← readExact s.input account.ivSize
  { s with input := input }.rekeyRead account iv

def readChunkBody (s : SSStream) : Except SsError (Option Bytes × SSStream) :=
  let sizeWireLen := 2 + s.tagSize
  if s.input.length < sizeWireLen then .ok (none, { s with input := [] })
  else do
    let sizeWire := s.input.take sizeWireLen
    let (sizePlain, s) ← { s with input := s.input.drop sizeWireLen }.openPart sizeWire
    if sizePlain.length < 2 then .error (.insufficientData sizePlain.length)
    else
      let payloadLen := (u16At sizePlain 0).toNat
      if payloadLen = 0 then .ok (none, s)
      else do
        let (payloadWire, input) ← readExact s.input (payloadLen + s.tagSize)
        let (plaintext, s) ← { s with input := input }.openPart payloadWire
        return (some plaintext, s)

def readChunk (s : SSStream) : Except SsError (Option Bytes × SSStream) :=
  if s.responseRekey2022.isSome then
    .error (.initDecode "SS-2022 must use try_open_chunk (pump); read_chunk is legacy-only")
  else if s.plainPrefix ≠ [] then .ok (some s.plainPrefix, { s with plainPrefix := [] })
  else
    match s.responseRekey with
    | none => s.readChunkBody
    | some account => do
      let s ← { s with responseRekey := none }.rekeyForResponse account
      s.readChunkBody

inductive ChunkOut
  | needMore
  | message (plaintext : Bytes)
  | ended

abbrev Opened := ChunkOut × SSStream × Bytes

def openPayload (s : SSStream) (pending : Bytes) (wireLen : Nat) : Except SsError Opened :=
  if pending.length < wireLen then .ok (.needMore, s, pending)
  else do
    let (plaintext, s) ← { s with pendingPayload := none }.openPart (pending.take wireLen)
    return (.message plaintext, s, pending.drop wireLen)

def tryOpenChunkBody (s : SSStream) (pending : Bytes) : Except SsError Opened :=
  match s.pendingPayload with
  | some wireLen => s.openPayload pending wireLen
  | none =>
    let sizeWireLen := 2 + s.tagSize
    if pending.length < sizeWireLen then .ok (.needMore, s, pending)
    else do
      let (sizePlain, s) ← s.openPart (pending.take sizeWireLen)
      let pending := pending.drop sizeWireLen
      if sizePlain.length < 2 then .error (.insufficientData sizePlain.length)
      else
        let payloadLen := (u16At sizePlain 0).toNat
        if payloadLen = 0 then .ok (.ended, s, pending)
        else
          let wire := payloadLen + s.tagSize
          { s with pendingPayload := some wire }.openPayload pending wire

def rekeyVar (s : SSStream) (pending : Bytes) (varLen : Nat) : Except SsError Opened :=
  let wire := varLen + s.tagSize
  if pending.length < wire then
    .ok (.needMore, { s with responseRekey2022 := some (.var varLen) }, pending)
  else do
    let (plain, s) ← { s with responseRekey2022 := none }.openPart (pending.take wire)
    return (.message plain, s, pending.drop wire)

def absDiff (a b : UInt64) : Nat := (a.toNat - b.toNat) + (b.toNat - a.toNat)

def checkFixed (fixedPlain : Nat) (requestSalt plain : Bytes) (now : UInt64) : Except SsError Nat :=
  if plain.length ≠ fixedPlain then .error (.insufficientData plain.length)
  else if byteAt plain 0 ≠ 1 then .error (.ss2022InvalidHeaderType (byteAt plain 0))
  else
    let epoch := u64At plain 1
    if 30 < absDiff now epoch then
      .error (.ss2022TimestampCheck s!"epoch {epoch} vs now {now}")
    else
      let saltLen := fixedPlain - 11
      let echo := (plain.drop 9).take saltLen
      if requestSalt < echo then .error .ss2022BadRequestSalt
      else .ok (u16At plain (9 + saltLen)).toNat

def rekeyFixed (s : SSStream) (pending : Bytes) (fixedPlain : Nat) (requestSalt : Bytes)
    (now : UInt64) : Except SsError Opened :=
  let wire := fixedPlain + s.tagSize
  if pending.length < wire then
    .ok (.needMore, { s with responseRekey2022 := some (.fixed fixedPlain requestSalt) }, pending)
  else do
    let (plain, s) ← { s with responseRekey2022 := none }.openPart (pending.take wire)
    let varLen ← checkFixed fixedPlain requestSalt plain now
    s.rekeyVar (pending.drop wire) varLen

def rekeySalt (L : Library) (s : SSStream) (pending psk : Bytes) (kind : CipherKind2022)
    (requestSalt : Bytes) (now : UInt64) : Except SsError Opened :=
  let saltSize := kind.saltSize
  if pending.length < saltSize then
    .ok (.needMore, { s with responseRekey2022 := some (.salt psk kind requestSalt) }, pending)
  else
    let salt := pending.take saltSize
    match L.buildAead kind (L.deriveSessionSubkey psk salt kind) with
    | .error e => .error (.initDecode e.toString)
    | .ok aead =>
      let s := { s with
        tagSize := aead.tagSize, readNonce := List.replicate aead.nonceSize 0xFF, readAead := aead,
        responseRekey2022 := none }
      s.rekeyFixed (pending.drop saltSize) (1 + 8 + saltSize + 2) requestSalt now

def drive2022Rekey (L : Library) (s : SSStream) (pending : Bytes) (now : UInt64) :
    Except SsError Opened :=
  match s.responseRekey2022 with
  | some (.salt psk kind requestSalt) => s.rekeySalt L pending psk kind requestSalt now
  | some (.fixed fixedPlain requestSalt) => s.rekeyFixed pending fixedPlain requestSalt now
  | some (.var varLen) => s.rekeyVar pending varLen
  | none => s.tryOpenChunkBody pending

def tryOpenChunk (L : Library) (s : SSStream) (pending : Bytes) (now : UInt64) :
    Except SsError Opened :=
  if s.plainPrefix ≠ [] then .ok (.message s.plainPrefix, { s with plainPrefix := [] }, pending)
  else if s.responseRekey2022.isSome then s.drive2022Rekey L pending now
  else
    match s.responseRekey with
    | none => s.tryOpenChunkBody pending
    | some account =>
      if pending.length < account.ivSize then .ok (.needMore, s, pending)
      else do
        let iv := pending.take account.ivSize
        let s ← { s with responseRekey := none }.rekeyRead account iv
        s.tryOpenChunkBody (pending.drop account.ivSize)

end SSStream

structure Client2022 where
  pskList : List Bytes
  kind : CipherKind2022

namespace Client2022

def finalPsk (c : Client2022) : Bytes := c.pskList.getD (c.pskList.length - 1) []

def identityHeaders (L : Library) (salt : Bytes) (kind : CipherKind2022) : List Bytes → Bytes
  | psk :: next :: rest =>
    L.encryptIdentityHeader psk next salt kind ++ identityHeaders L salt kind (next :: rest)
  | _ => []

/-- The stream to a target. Nothing is written yet: the header waits for the first
write. -/
def dialTargetOn (L : Library) (c : Client2022) (input : Bytes) (targetAddr : String)
    (targetPort : Port) (draw : Draw) : Except SsError SSStream := do
  let psk := c.finalPsk
  let salt := draw.randomSalt c.kind
  let aead ← L.buildAead c.kind (L.deriveSessionSubkey psk salt c.kind)
  let nonce := List.replicate 12 0
  let fixedPlain := 0 :: (be64 draw.now ++ [0, 0])
  if 255 < (asBytes targetAddr).length then .error .invalidRemoteAddress
  else
    let addrPort := encodeDomainPort targetAddr targetPort
    let wirePrefix := salt ++ identityHeaders L salt c.kind c.pskList
    return { SSStream.newWithAeadAndNonce input aead nonce with
      pendingClient2022 := some ⟨wirePrefix, fixedPlain, addrPort⟩
      responseRekey2022 := some (.salt psk c.kind salt) }

end Client2022

end XrayCore.Shadowsocks
