import XrayCore.Lib.Traces
import XrayCore.Vless.CommonConn

/-!
# The encrypted stream

What the writer puts on the wire is a sequence of records, and each record gives the AEAD for the
next one: the writer takes it from the record that it has assembled, the reader from the header and
the ciphertext that it has cut out of its buffer.
-/

namespace XrayCore.Vless.Encryption

open Lib List

structure Record where
  header : Bytes
  body : Bytes
  length_header : header.length = TLS_RECORD_HEADER_LEN
  decode_header : decodeTlsRecordHeader header = some body.length

def Record.bytes (record : Record) : Bytes := record.header ++ record.body

def wireOf (records : List Record) : Bytes := records.flatMap Record.bytes

def nextAead (k : Keys) (aead : Aead) (record : Record) : Aead :=
  (openRecord k aead record.header record.body).2

def aeadAfter (k : Keys) (aead : Aead) (records : List Record) : Aead :=
  records.foldl (nextAead k) aead

def openAll (k : Keys) : Aead → List Record → Option Bytes
  | _, [] => some []
  | aead, record :: records => do
    let plaintext ← (openRecord k aead record.header record.body).1
    let rest ← openAll k (nextAead k aead record) records
    pure (plaintext ++ rest)

variable {k : Keys} {aead : Aead} {records done todo : List Record}

@[simp] theorem wireOf_nil : wireOf [] = [] := rfl

@[simp] theorem wireOf_cons (record : Record) (records : List Record) :
    wireOf (record :: records) = record.bytes ++ wireOf records := rfl

@[simp] theorem wireOf_append (a b : List Record) : wireOf (a ++ b) = wireOf a ++ wireOf b :=
  flatMap_append

@[simp] theorem aeadAfter_nil : aeadAfter k aead [] = aead := rfl

@[simp] theorem aeadAfter_cons (record : Record) (records : List Record) :
    aeadAfter k aead (record :: records) = aeadAfter k (nextAead k aead record) records := rfl

@[simp] theorem aeadAfter_append (a b : List Record) :
    aeadAfter k aead (a ++ b) = aeadAfter k (aeadAfter k aead a) b :=
  foldl_append

theorem openAll_cons : openAll k aead (record :: records) = some plain ↔ ∃ pt rest,
      openRecord k aead record.header record.body = (some pt, nextAead k aead record) ∧
        openAll k (nextAead k aead record) records = some rest ∧ plain = pt ++ rest := by
  constructor
  · intro h
    obtain ⟨pt, hp, h⟩ := Option.bind_eq_some_iff.mp h
    obtain ⟨rest, hrest, h⟩ := Option.bind_eq_some_iff.mp h
    cases h
    exact ⟨pt, rest, Prod.ext hp rfl, hrest, rfl⟩
  · rintro ⟨pt, rest, ho, hrest, rfl⟩
    simp [openAll, ho, hrest]

theorem openAll_append : openAll k aead (done ++ todo) = some plain ↔ ∃ front rest,
      openAll k aead done = some front ∧ openAll k (aeadAfter k aead done) todo = some rest ∧
        plain = front ++ rest := by
  induction done generalizing aead plain with
  | nil => simp [openAll]
  | cons r done ih =>
    rw [cons_append, openAll_cons]
    constructor
    · rintro ⟨p, rest, ho, hrest, rfl⟩
      obtain ⟨front, rest', hf, hrest', rfl⟩ := ih.mp hrest
      refine ⟨p ++ front, rest', ?_, hrest', (append_assoc ..).symm⟩
      exact openAll_cons.mpr ⟨p, front, ho, hf, rfl⟩
    · rintro ⟨front, rest, hf, hrest, rfl⟩
      obtain ⟨p, f', ho, hf', rfl⟩ := openAll_cons.mp hf
      refine ⟨p, f' ++ rest, ho, ?_, append_assoc ..⟩
      exact ih.mpr ⟨f', rest, hf', hrest, rfl⟩

def nonces (k : Keys) : Nat → Aead → List Record → List (Nat × Bytes)
  | _, _, [] => []
  | generation, aead, record :: records =>
    (generation, aead.increaseNonce.nonce) ::
      nonces k (if aead.isMax then generation + 1 else generation) (nextAead k aead record) records

def Unfinished (tail : Bytes) : Prop := ∀ window, window <+: tail → frontOf window = .incomplete

theorem frontOf_bytes (record : Record) (rest : Bytes) :
    frontOf (record.bytes ++ rest) = .record record.header record.body := by
  obtain ⟨hdr, body, hh, hd⟩ := record
  have hl : (hdr ++ body ++ rest).length = TLS_RECORD_HEADER_LEN + body.length + rest.length := by
    rw [length_append, length_append, hh]
  unfold frontOf Record.bytes
  dsimp only
  rw [if_pos (by omega), append_assoc, take_left' hh, hd]
  dsimp only
  rw [← append_assoc, if_pos (by omega), append_assoc, drop_left' hh, take_left]

theorem unfinished_nil : Unfinished [] := by
  intro w h
  rw [prefix_nil.mp h]
  rfl

theorem Unfinished.mono (h : Unfinished tl) (hle : tl' <+: tl) :
    Unfinished tl' := fun window hw => h window (hw.trans hle)

theorem unfinished_of_length_lt {record : Record} {part : Bytes} (h : part <+: record.bytes)
    (hlt : part.length < record.bytes.length) : Unfinished part := by
  intro w hw
  have hs := lt_of_le_of_lt hw.length_le hlt
  replace hw := hw.trans h
  obtain ⟨header, body, hh, hd⟩ := record
  unfold Record.bytes at hs hw
  dsimp only at hs hw
  rw [length_append, hh] at hs
  unfold frontOf
  split
  · next hf =>
    have ht : w.take TLS_RECORD_HEADER_LEN = header := by
      obtain ⟨rest, hrest⟩ := hw
      have hfr : (header ++ body).take TLS_RECORD_HEADER_LEN = header := take_left' hh
      rw [← hfr, show header ++ body = w ++ rest from hrest.symm]
      exact (take_append_of_le_length hf).symm
    rw [ht, hd]
    dsimp only
    rw [if_neg (by omega)]
  · rfl

theorem frontOf_stream (h : window ++ more = wireOf todo ++ tl) (ht : Unfinished tl) :
    frontOf window = .incomplete ∨ ∃ record rest win', todo = record :: rest ∧
      window = record.bytes ++ win' ∧ frontOf window = .record record.header record.body := by
  cases todo with
  | nil => exact .inl (ht window ⟨more, h⟩)
  | cons record rest =>
    rw [wireOf_cons, append_assoc] at h
    rcases lt_or_ge window.length record.bytes.length with hlt | hle
    · have hp : window <+: record.bytes :=
        prefix_of_prefix_length_le ⟨more, h⟩ (prefix_append _ _) hlt.le
      exact .inl (unfinished_of_length_lt hp hlt window prefix_rfl)
    · obtain ⟨win', rfl⟩ : record.bytes <+: window :=
        prefix_of_prefix_length_le (prefix_append _ _) ⟨more, h⟩ hle
      exact .inr ⟨record, rest, win', rfl, rfl, frontOf_bytes record win'⟩

theorem records_of_part (h : part <+: wireOf recs ++ tl) (ht : Unfinished tl) :
    ∃ n tl', part = wireOf (recs.take n) ++ tl' ∧ Unfinished tl' := by
  induction recs generalizing part with
  | nil => exact ⟨0, part, rfl, ht.mono h⟩
  | cons r recs ih =>
    rw [wireOf_cons, append_assoc] at h
    rcases lt_or_ge part.length r.bytes.length with hlt | hle
    · have hp : part <+: r.bytes :=
        prefix_of_prefix_length_le h (prefix_append _ _) hlt.le
      exact ⟨0, part, rfl, unfinished_of_length_lt hp hlt⟩
    obtain ⟨part', rfl⟩ : r.bytes <+: part := prefix_of_prefix_length_le (prefix_append _ _) h hle
    obtain ⟨n, tl', rfl, ht'⟩ := ih ((prefix_append_right_inj _).mp h)
    exact ⟨n + 1, tl', by simp, ht'⟩

end XrayCore.Vless.Encryption
