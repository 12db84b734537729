import XrayCore.Lib.Polling
import XrayCore.Vless.Aead

/-!
# The encrypted connection

`CommonConn` writes records under one AEAD and reads records under another. The two directions share
only the keys, so each is a half of its own here. When a nonce is used up, both ends derive the next
AEAD from the record that used it.
-/

namespace XrayCore.Vless.Encryption

open Lib List

def MAX_SEGMENT : Nat := 8192

def TICKET_REJECTED_MSG : String := "vless enc 0-RTT ticket rejected"

inductive ConnError
  | closed
  | writeZero
  | eofBeforeRandom
  | truncatedRecord
  | ticketRejected
  | invalidHeader (header : Bytes)
  | openFailed
  | inner
  deriving DecidableEq

def ConnError.message : ConnError → String
  | .closed => "write on closed CommonConn"
  | .writeZero => "inner conn accepted 0 bytes"
  | .eofBeforeRandom => "EOF before 0-RTT server random"
  | .truncatedRecord => "truncated record at EOF"
  | .ticketRejected => TICKET_REJECTED_MSG
  | .invalidHeader header =>
    "invalid header: [" ++ ", ".intercalate (header.map (toString ·.toNat)) ++ "]"
  | .openFailed => "AEAD open failed: aead::Error"
  | .inner => ""

structure Keys where
  derive : Derive
  unitedKey : Bytes
  useAes : Bool

def Keys.aead (k : Keys) (context : Bytes) : Aead := .new k.derive context k.unitedKey k.useAes

/-- A segment as a record, and the AEAD for the next one. The last nonce of an AEAD is still used;
the whole record is then the context of the next. -/
def sealRecord (k : Keys) (aead : Aead) (data : Bytes) : Bytes × Aead :=
  let header := tlsRecordHeader (UInt16.ofNat (data.length + TAG_LEN))
  let rotate := aead.isMax
  let (sealed, aead) := aead.sealInPlace data header
  let record := header ++ sealed
  (record, if rotate then k.aead record else aead)

structure WriteHalf where
  aead : Aead
  writeBuf : Bytes
  /-- How much of `write_buf` is sent, and the length of its plaintext. -/
  writePending : Option (Nat × Nat)
  preWrite : Option Bytes
  closed : Bool

structure WriteStep where
  result : PollResult ConnError Nat
  half : WriteHalf
  wire : Bytes
  answers : List Answer

namespace WriteHalf

def new (aead : Aead) (preWrite : Option Bytes) : WriteHalf := ⟨aead, [], none, preWrite, false⟩

def prepare (k : Keys) (w : WriteHalf) (data : Bytes) : WriteHalf :=
  let (record, aead) := sealRecord k w.aead data
  { w with aead := aead, writeBuf := w.preWrite.getD [] ++ record, preWrite := none }

def sendPending (w : WriteHalf) (sent plainLen : Nat) (answers : List Answer) : WriteStep :=
  let rest := w.writeBuf.drop sent
  let (left, pushed, _) := push rest answers
  let pending := some (w.writeBuf.length - left.length, plainLen)
  let (result, writePending) :=
    match pushed with
    | .done => (PollResult.ready plainLen, none)
    | .pending => (.pending, pending)
    | .zero => (.failed .writeZero, pending)
    | .failed => (.failed .inner, none)
  ⟨result, { w with writePending := writePending }, written rest left, answered rest answers⟩

def pollWrite (k : Keys) (w : WriteHalf) (buf : Bytes) (answers : List Answer) : WriteStep :=
  if w.closed then ⟨.failed .closed, w, [], []⟩
  else
    match w.writePending with
    | some (sent, plainLen) => w.sendPending sent plainLen answers
    | none =>
      let n := min buf.length MAX_SEGMENT
      if n = 0 then ⟨.ready 0, w, [], []⟩
      else (w.prepare k (buf.take n)).sendPending 0 n answers

end WriteHalf

/-- A record under an AEAD, and the AEAD for the next one, which the header and the ciphertext give
when the nonce is used up. -/
def openRecord (k : Keys) (aead : Aead) (header body : Bytes) : Option Bytes × Aead :=
  let rotate := aead.isMax
  let (opened, aead) := aead.openInPlace body header
  (opened, if rotate then k.aead (header ++ body) else aead)

structure ZeroRttCache where
  pfsKey : Option Bytes

structure ReadHalf where
  /-- Missing in 0-RTT until the server's random number is there. -/
  peerAead : Option Aead
  rawBuf : Bytes
  rawPos : Nat
  decrypted : Bytes
  decryptedPos : Nat
  cache : Option ZeroRttCache

/-- What a reader does: the inner connection has nothing yet; bytes are taken into `raw_buf`, which
then holds so many; a record is opened, or not; bytes are handed to the caller. -/
inductive ReadEvent
  | waits
  | received (piece : Bytes) (held : Nat)
  | opened (plaintext : Bytes)
  | refused (body : Bytes)
  | delivered (bytes : Bytes)
  deriving DecidableEq

structure ReadStep where
  result : PollResult ConnError Bytes
  half : ReadHalf
  inner : List Arrival
  events : List ReadEvent

inductive Front
  | incomplete
  | invalid (header : Bytes)
  | record (header body : Bytes)
  deriving DecidableEq

def frontOf (window : Bytes) : Front :=
  if TLS_RECORD_HEADER_LEN ≤ window.length then
    match decodeTlsRecordHeader (window.take TLS_RECORD_HEADER_LEN) with
    | none => .invalid (window.take TLS_RECORD_HEADER_LEN)
    | some len =>
      if TLS_RECORD_HEADER_LEN + len ≤ window.length then
        .record (window.take TLS_RECORD_HEADER_LEN)
          ((window.drop TLS_RECORD_HEADER_LEN).take len)
      else .incomplete
  else .incomplete

theorem frontOf_record (h : frontOf window = .record header body) :
    header.length = TLS_RECORD_HEADER_LEN ∧ decodeTlsRecordHeader header = some body.length ∧
      ∃ rest, window = header ++ body ++ rest := by
  unfold frontOf at h
  split at h
  · next hf =>
    split at h
    · cases h
    · next len hle =>
      split at h
      · next hl =>
        cases h
        have hb : ((window.drop TLS_RECORD_HEADER_LEN).take len).length = len := by
          rw [length_take, length_drop]
          omega
        refine ⟨length_take_of_le hf, by rw [hle, hb],
          window.drop (TLS_RECORD_HEADER_LEN + len), ?_⟩
        rw [append_assoc, ← drop_drop, take_append_drop, take_append_drop]
      · cases h
  · cases h

theorem length_record_le (h : frontOf window = .record header body) :
    TLS_RECORD_HEADER_LEN + body.length ≤ window.length := by
  obtain ⟨hh, -, rest, rfl⟩ := frontOf_record h
  rw [length_append, length_append, hh]
  omega

namespace ReadHalf

def new (peerAead : Option Aead) (cache : Option ZeroRttCache) : ReadHalf :=
  ⟨peerAead, [], 0, [], 0, cache⟩

def window (r : ReadHalf) : Bytes := r.rawBuf.drop r.rawPos

def consume (r : ReadHalf) (n : Nat) : ReadHalf :=
  if r.rawPos + n = r.rawBuf.length then { r with rawBuf := [], rawPos := 0 }
  else { r with rawPos := r.rawPos + n }

def extend (r : ReadHalf) (piece : Bytes) : ReadHalf := { r with rawBuf := r.rawBuf ++ piece }

def establish (k : Keys) (r : ReadHalf) : ReadHalf :=
  { r with peerAead := some (k.aead (r.window.take 16)) }.consume 16

/-- A bad header. When the session is known from a ticket, the ticket is dropped. -/
def reject (k : Keys) (r : ReadHalf) (header : Bytes) : ReadHalf × ConnError :=
  match r.cache with
  | some cache =>
    if 64 ≤ k.unitedKey.length ∧ cache.pfsKey = some (k.unitedKey.take 64) then
      ({ r with cache := some ⟨none⟩ }, .ticketRejected)
    else (r, .invalidHeader header)
  | none => (r, .invalidHeader header)

def deliver (r : ReadHalf) (room : Nat) : Bytes × ReadHalf :=
  let bytes := (r.decrypted.drop r.decryptedPos).take room
  let pos := r.decryptedPos + bytes.length
  (bytes, if r.decrypted.length ≤ pos then { r with decrypted := [], decryptedPos := 0 }
    else { r with decryptedPos := pos })

@[simp] theorem window_consume (r : ReadHalf) (n : Nat) :
    (r.consume n).window = r.window.drop n := by
  unfold consume window
  split
  · next he =>
    rw [drop_drop, he, drop_length]
    rfl
  · rw [drop_drop]

theorem window_consume_lt (r : ReadHalf) (hp : 0 < n) (hn : n ≤ r.window.length) :
    (r.consume n).window.length < r.window.length := by
  rw [window_consume, length_drop]
  omega

end ReadHalf

def ReadStep.after (step : ReadStep) (events : List ReadEvent) : ReadStep :=
  { step with events := events ++ step.events }

open ReadHalf in
/-- `poll_read` with room for so many bytes. A failed opening leaves the ciphertext in `decrypted`
and the cursor where it is. -/
def pollRead (k : Keys) (room : Nat) (r : ReadHalf) (inner : List Arrival) : ReadStep :=
  match r.peerAead with
  | none =>
    if _hshort : r.window.length < 16 then
      match inner with
      | [] => ⟨.failed .eofBeforeRandom, r, [], []⟩
      | arrival :: source =>
        match _hread : readUpTo 4096 (arrival :: source) with
        | (.pending, inner) => ⟨.pending, r, inner, [.waits]⟩
        | (.failed, inner) => ⟨.failed .inner, r, inner, []⟩
        | (.piece [], inner) => ⟨.failed .eofBeforeRandom, r, inner, []⟩
        | (.piece (b :: piece), inner) =>
          (pollRead k room (r.extend (b :: piece)) inner).after
            [.received (b :: piece) (r.extend (b :: piece)).rawBuf.length]
    else pollRead k room (r.establish k) inner
  | some aead =>
    if r.decryptedPos < r.decrypted.length then
      let (bytes, r) := r.deliver room
      ⟨.ready bytes, r, inner, [.delivered bytes]⟩
    else
      match _hfront : frontOf r.window with
      | .invalid header =>
        let (r, e) := r.reject k header
        ⟨.failed e, r, inner, []⟩
      | .record header body =>
        match openRecord k aead header body with
        | (none, aead) =>
          ⟨.failed .openFailed, { r with decrypted := body, peerAead := some aead }, inner,
            [.refused body]⟩
        | (some plaintext, aead) =>
          (pollRead k room ({ r with
            decrypted := plaintext, decryptedPos := 0, peerAead := some aead }.consume
              (TLS_RECORD_HEADER_LEN + body.length)) inner).after [.opened plaintext]
      | .incomplete =>
        match inner with
        | [] =>
          if r.rawPos = r.rawBuf.length then ⟨.ready [], r, [], [.delivered []]⟩
          else ⟨.failed .truncatedRecord, r, [], []⟩
        | arrival :: source =>
          match _hread : readUpTo 16384 (arrival :: source) with
          | (.pending, inner) => ⟨.pending, r, inner, [.waits]⟩
          | (.failed, inner) => ⟨.failed .inner, r, inner, []⟩
          | (.piece [], inner) =>
            if r.rawPos = r.rawBuf.length then ⟨.ready [], r, inner, [.delivered []]⟩
            else ⟨.failed .truncatedRecord, r, inner, []⟩
          | (.piece (b :: piece), inner) =>
            (pollRead k room (r.extend (b :: piece)) inner).after
              [.received (b :: piece) (r.extend (b :: piece)).rawBuf.length]
termination_by (backlog inner, r.window.length)
decreasing_by
  · exact .left _ _ (by
      have hless := backlog_readUpTo (n := 4096) (by decide) (cons_ne_nil arrival source)
      rw [_hread] at hless
      exact hless)
  · exact .right _ (window_consume_lt _ (by decide) (Nat.le_of_not_lt _hshort))
  · refine .right _ (window_consume_lt _ (Nat.add_pos_left (by decide) _) ?_)
    exact length_record_le _hfront
  · exact .left _ _ (by
      have hless := backlog_readUpTo (n := 16384) (by decide) (cons_ne_nil arrival source)
      rw [_hread] at hless
      exact hless)

def ReadHalf.Needs (r : ReadHalf) : Prop :=
  r.peerAead = none ∧ r.window.length < 16 ∨
    ∃ aead, r.peerAead = some aead ∧ r.decrypted.length ≤ r.decryptedPos ∧
      frontOf r.window = .incomplete

open ReadHalf in
inductive Polls (k : Keys) (room : Nat) : ReadHalf → List Arrival → ReadStep → Prop
  | waits {r inner source n} : 0 < n → r.Needs → readUpTo n inner = (.pending, source) →
    Polls k room r inner ⟨.pending, r, source, [.waits]⟩
  | fails {r inner source n} : 0 < n → r.Needs → readUpTo n inner = (.failed, source) →
    Polls k room r inner ⟨.failed .inner, r, source, []⟩
  | ends {r inner source n e} : 0 < n → r.Needs → inner = [] ∧ source = [] ∨
      inner ≠ [] ∧ readUpTo n inner = (.piece [], source) →
    Polls k room r inner ⟨.failed e, r, source, []⟩
  | closes {r inner source n aead} : 0 < n → r.Needs → r.peerAead = some aead →
    r.rawPos = r.rawBuf.length → inner = [] ∧ source = [] ∨
      inner ≠ [] ∧ readUpTo n inner = (.piece [], source) →
    Polls k room r inner ⟨.ready [], r, source, [.delivered []]⟩
  | receives {r inner source n piece step} : 0 < n → r.Needs → piece ≠ [] →
    readUpTo n inner = (.piece piece, source) → Polls k room (r.extend piece) source step →
    Polls k room r inner (step.after [.received piece (r.extend piece).rawBuf.length])
  | establishes {r inner step} : r.peerAead = none → 16 ≤ r.window.length →
    Polls k room (r.establish k) inner step → Polls k room r inner step
  | delivers {r inner aead} : r.peerAead = some aead → r.decryptedPos < r.decrypted.length →
    Polls k room r inner
      ⟨.ready (r.deliver room).1, (r.deliver room).2, inner, [.delivered (r.deliver room).1]⟩
  | rejects {r inner aead header} : r.peerAead = some aead → r.decrypted.length ≤ r.decryptedPos →
    frontOf r.window = .invalid header →
    Polls k room r inner ⟨.failed (r.reject k header).2, (r.reject k header).1, inner, []⟩
  | refuses {r inner aead header body next} : r.peerAead = some aead →
    r.decrypted.length ≤ r.decryptedPos → frontOf r.window = .record header body →
    openRecord k aead header body = (none, next) →
    Polls k room r inner ⟨.failed .openFailed, { r with decrypted := body, peerAead := some next },
      inner, [.refused body]⟩
  | opens {r inner aead header body plaintext next step} : r.peerAead = some aead →
    r.decrypted.length ≤ r.decryptedPos → frontOf r.window = .record header body →
    openRecord k aead header body = (some plaintext, next) →
    Polls k room ({ r with
      decrypted := plaintext, decryptedPos := 0, peerAead := some next }.consume
        (TLS_RECORD_HEADER_LEN + body.length)) inner step →
    Polls k room r inner (step.after [.opened plaintext])

theorem polls_pollRead (k : Keys) (room : Nat) (r : ReadHalf) (inner : List Arrival) :
    Polls k room r inner (pollRead k room r inner) := by
  fun_induction pollRead k room r inner with
  | case1 r hn hs => exact .ends one_pos (.inl ⟨hn, hs⟩) (.inl ⟨rfl, rfl⟩)
  | case2 r hn hs a s inner hr =>
    exact .waits (by decide) (.inl ⟨hn, hs⟩) hr
  | case3 r hn hs a s inner hr =>
    exact .fails (by decide) (.inl ⟨hn, hs⟩) hr
  | case4 r hn hs a s inner hr =>
    exact .ends (by decide) (.inl ⟨hn, hs⟩) (.inr ⟨cons_ne_nil _ _, hr⟩)
  | case5 r hn hs a s b p inner hr ih =>
    exact .receives (by decide) (.inl ⟨hn, hs⟩) (cons_ne_nil b p) hr ih
  | case6 r inner hn hl ih => exact .establishes hn (not_lt.mp hl) ih
  | case7 r inner aead hsome hmore byt r' heq =>
    obtain ⟨rfl, rfl⟩ : (r.deliver room).1 = byt ∧ (r.deliver room).2 = r' := by
      rw [heq]
      exact ⟨rfl, rfl⟩
    exact .delivers hsome hmore
  | case8 r inner aead hsome hd hdr hf r' e heq =>
    obtain ⟨rfl, rfl⟩ : (r.reject k hdr).1 = r' ∧ (r.reject k hdr).2 = e := by
      rw [heq]
      exact ⟨rfl, rfl⟩
    exact .rejects hsome (not_lt.mp hd) hf
  | case9 r inner aead hsome hd hdr body hf next ho =>
    exact .refuses hsome (not_lt.mp hd) hf ho
  | case10 r inner aead hsome hd hdr body hf pl next ho ih =>
    exact .opens hsome (not_lt.mp hd) hf ho ih
  | case11 r aead hsome hd hf hc =>
    exact .closes one_pos (.inr ⟨aead, hsome, not_lt.mp hd, hf⟩) hsome hc
      (.inl ⟨rfl, rfl⟩)
  | case12 r aead hsome hd hf ht =>
    exact .ends one_pos (.inr ⟨aead, hsome, not_lt.mp hd, hf⟩) (.inl ⟨rfl, rfl⟩)
  | case13 r aead hsome hd hf a s inner hr =>
    exact .waits (by decide) (.inr ⟨aead, hsome, not_lt.mp hd, hf⟩) hr
  | case14 r aead hsome hd hf a s inner hr =>
    exact .fails (by decide) (.inr ⟨aead, hsome, not_lt.mp hd, hf⟩) hr
  | case15 r aead hsome hd hf a s inner hr hc =>
    exact .closes (by decide) (.inr ⟨aead, hsome, not_lt.mp hd, hf⟩) hsome hc
      (.inr ⟨cons_ne_nil _ _, hr⟩)
  | case16 r aead hsome hd hf a s inner hr ht =>
    exact .ends (by decide) (.inr ⟨aead, hsome, not_lt.mp hd, hf⟩)
      (.inr ⟨cons_ne_nil _ _, hr⟩)
  | case17 r aead hsome hd hf a s b p inner hr ih =>
    exact .receives (by decide) (.inr ⟨aead, hsome, not_lt.mp hd, hf⟩)
      (cons_ne_nil b p) hr ih

end XrayCore.Vless.Encryption
