import XrayCore.Lib.Fallible
import XrayCore.Lib.Polling

/-!
# Reading record by record

No call reads behind the TLS record in progress, so that the socket can be handed over at its end.
-/

namespace XrayCore.Streams

open Lib List

def HEADER_LEN : Nat := 5

/-- Of the header there are the bytes that were read. -/
structure RecordFramer where
  hdr : Bytes
  bodyRemaining : Nat

namespace RecordFramer

def new : RecordFramer := ⟨[], 0⟩

def want (r : RecordFramer) (room : Nat) : Nat :=
  if r.bodyRemaining = 0 then HEADER_LEN - r.hdr.length else min r.bodyRemaining room

def receive (r : RecordFramer) (piece : Bytes) : RecordFramer :=
  if r.bodyRemaining = 0 then
    let hdr := r.hdr ++ piece
    if hdr.length = HEADER_LEN then ⟨[], (u16At hdr 3).toNat⟩ else ⟨hdr, 0⟩
  else { r with bodyRemaining := r.bodyRemaining - piece.length }

def pollRead (r : RecordFramer) (room : Nat) (sock : List Arrival) :
    Checked (PollResult Unit Bytes × RecordFramer × List Arrival) :=
  match readUpTo (r.want room) sock with
  | (.pending, sock) => .ok (.pending, r, sock)
  | (.failed, sock) => .ok (.failed (), r, sock)
  | (.piece piece, sock) =>
    if piece = [] then .ok (.ready [], r, sock)
    -- a header is copied into the buffer, which has to have room for it
    else if r.bodyRemaining = 0 ∧ room < piece.length then .error .slice
    else .ok (.ready piece, r.receive piece, sock)

/-- A call, behind what was delivered before. -/
def call (s : Bytes × RecordFramer × List Arrival) (room : Nat) :
    Checked (Bytes × RecordFramer × List Arrival) := do
  match ← s.2.1.pollRead room s.2.2 with
  | (.ready piece, r, sock) => .ok (s.1 ++ piece, r, sock)
  | (_, r, sock) => .ok (s.1, r, sock)

/-- Where a record of the stream begins, by the lengths in the headers before it. -/
def start (stream : Bytes) : Nat → Nat
  | 0 => 0
  | k + 1 => start stream k + HEADER_LEN + (u16At stream (start stream k + 3)).toNat

/-- The first `n` bytes are read, the last of them in the record `k`. -/
inductive At (stream : Bytes) (k : Nat) : RecordFramer → Nat → Prop
  | header (len : Nat) (hl : len < HEADER_LEN) :
    At stream k ⟨(stream.drop (start stream k)).take len, 0⟩ (start stream k + len)
  | body {left n : Nat} (hb : 0 < left) (hlo : start stream k ≤ n)
    (hhi : n + left = start stream (k + 1)) : At stream k ⟨[], left⟩ n

variable {r : RecordFramer} {stream : Bytes}

theorem start_mono (stream : Bytes) : Monotone (start stream) :=
  monotone_nat_of_le_succ fun k => by
    rw [start]
    omega

theorem at_body {left : Nat} (hlo : start stream k ≤ n) (hhi : n + left = start stream (k + 1)) :
    ∃ k, At stream k ⟨[], left⟩ n := by
  rcases Nat.eq_zero_or_pos left with rfl | hb
  · obtain rfl : n = start stream (k + 1) := hhi
    exact ⟨k + 1, .header 0 (by decide)⟩
  · exact ⟨k, .body hb hlo hhi⟩

theorem At.next (h : At stream k r n) (hm : m ≤ r.want room) (hn : n + m ≤ stream.length) :
    (∃ k, At stream k (r.receive ((stream.drop n).take m)) (n + m)) ∧
      start stream k ≤ n ∧ n + m ≤ start stream (k + 1) := by
  have hm' : ((stream.drop n).take m).length = m := by
    rw [length_take, length_drop]
    omega
  cases h with
  | header len hl =>
    have hs : start stream (k + 1) =
      start stream k + HEADER_LEN + (u16At stream (start stream k + 3)).toNat := rfl
    have hd (m : Nat) (hm : start stream k + m ≤ stream.length) :
        ((stream.drop (start stream k)).take m).length = m := by
      rw [length_take, length_drop]
      omega
    rw [want, if_pos rfl, hd len (by omega)] at hm
    refine ⟨?_, by omega, by omega⟩
    rw [receive, if_pos rfl, ← drop_drop, ← take_add]
    dsimp only
    rw [hd _ (by omega)]
    split
    · next h5 =>
      have hu : u16At ((stream.drop (start stream k)).take (len + m)) 3 =
          u16At stream (start stream k + 3) := by
        simp [h5, HEADER_LEN, u16At, byteAt]
      rw [hu]
      exact at_body (k := k) (by omega) (by omega)
    · rw [add_assoc]
      exact ⟨k, .header _ (by omega)⟩
  | body hb hlo hhi =>
    rw [want, if_neg hb.ne'] at hm
    rw [receive, if_neg hb.ne', hm']
    exact ⟨at_body (k := k) (by omega) (by dsimp only at hm ⊢; omega), hlo, by dsimp only at hm; omega⟩

/-- What a call delivers, and with it the state of the reader. -/
theorem call_eq (out : Bytes) (r : RecordFramer) (sock : List Arrival) (hroom : 5 ≤ room) :
    ∃ piece r' sock', call (out, r, sock) room = .ok (out ++ piece, r', sock') ∧
      contents sock = piece ++ contents sock' ∧
      (piece = [] ∧ r' = r ∨ piece.length ≤ r.want room ∧ r' = r.receive piece) := by
  unfold call pollRead
  dsimp only
  rcases h : readUpTo (r.want room) sock with ⟨_ | piece | _, sock'⟩
  · exact ⟨[], r, sock', by simp, contents_readUpTo h, .inl ⟨rfl, rfl⟩⟩
  · have hle := (readUpTo_piece h).1
    have hc := contents_readUpTo h
    by_cases hp : piece = []
    · exact ⟨[], r, sock', by simp [hp], by simpa [hp] using hc, .inl ⟨rfl, rfl⟩⟩
    · have hnot : ¬(r.bodyRemaining = 0 ∧ room < piece.length) := by
        rintro ⟨hb, hlt⟩
        rw [want, if_pos hb, HEADER_LEN] at hle
        omega
      exact ⟨piece, _, sock', by simp [hp, hnot], by simpa using hc, .inr ⟨hle, rfl⟩⟩
  · exact ⟨[], r, sock', by simp, contents_readUpTo h, .inl ⟨rfl, rfl⟩⟩

theorem At.call (h : At stream k r out.length) (hs : out ++ contents sock = stream)
    (hroom : 5 ≤ room) : ∃ piece r' sock', call (out, r, sock) room = .ok (out ++ piece, r', sock') ∧
      out ++ piece ++ contents sock' = stream ∧ (∃ k, At stream k r' (out ++ piece).length) ∧
      ∀ j, out.length < start stream j → (out ++ piece).length ≤ start stream j := by
  obtain ⟨piece, r', sock', hc, hcon, hr⟩ := call_eq out r sock hroom
  refine ⟨piece, r', sock', hc, by rw [append_assoc, ← hcon, hs], ?_⟩
  rcases hr with ⟨rfl, rfl⟩ | ⟨hle, rfl⟩
  · rw [append_nil]
    exact ⟨⟨k, h⟩, fun j => le_of_lt⟩
  have hp : (stream.drop out.length).take piece.length = piece := by
    rw [← hs, hcon, drop_left, take_left]
  have hlen : out.length + piece.length ≤ stream.length := by
    rw [← hs, hcon, length_append, length_append]
    omega
  obtain ⟨hn, hlo, hhi⟩ := h.next hle hlen
  rw [hp] at hn
  rw [length_append]
  refine ⟨hn, fun j hj => hhi.trans (start_mono stream ?_)⟩
  by_contra hk
  exact (hj.trans_le (start_mono stream (by omega))).not_ge hlo

theorem At.calls (rooms : List Nat) (h : At stream k r out.length)
    (hs : out ++ contents sock = stream) (hrooms : ∀ room ∈ rooms, 5 ≤ room) :
    ∃ out' r' sock' k', rooms.foldlM RecordFramer.call (out, r, sock) = .ok (out', r', sock') ∧
      out' ++ contents sock' = stream ∧ At stream k' r' out'.length := by
  induction rooms generalizing out r sock k with
  | nil => exact ⟨out, r, sock, k, rfl, hs, h⟩
  | cons room rooms ih =>
    obtain ⟨hroom, hrooms⟩ := forall_mem_cons.mp hrooms
    obtain ⟨piece, r', sock', hc, hs', ⟨k', h'⟩, -⟩ := h.call hs hroom
    rw [foldlM_cons, hc, ok_bind]
    exact ih h' hs' hrooms

theorem reads_within_record (sock : List Arrival) (rooms : List Nat) (room : Nat)
    (h : ∀ n ∈ room :: rooms, 5 ≤ n) : ∃ out r sock' piece r' sock'',
      rooms.foldlM call ([], new, sock) = .ok (out, r, sock') ∧
      call (out, r, sock') room = .ok (out ++ piece, r', sock'') ∧
      contents sock = out ++ piece ++ contents sock'' ∧
      ∀ k, out.length < start (contents sock) k →
        (out ++ piece).length ≤ start (contents sock) k := by
  obtain ⟨hroom, hrooms⟩ := forall_mem_cons.mp h
  have hnew : At (contents sock) 0 new ([] : Bytes).length := .header 0 (by decide)
  obtain ⟨out, r, sock', k, hrun, hs, ha⟩ := hnew.calls rooms rfl hrooms
  obtain ⟨piece, r', sock'', hc, hs', -, hle⟩ := ha.call hs hroom
  exact ⟨out, r, sock', piece, r', sock'', hrun, hc, hs'.symm, hle⟩

/-- A record with one byte, cut in its header. -/
theorem reads_within_record_split : ∃ out r sock' piece r' sock'',
    [5, 5].foldlM call ([], new, [.piece [22, 3, 3, 0], .piece [1, 9, 22]]) = .ok (out, r, sock') ∧
    call (out, r, sock') 5 = .ok (out ++ piece, r', sock'') ∧
    (out.length < 6 → (out ++ piece).length ≤ 6) := by
  obtain ⟨out, r, sock', piece, r', sock'', hrun, hc, -, hle⟩ :=
    reads_within_record [.piece [22, 3, 3, 0], .piece [1, 9, 22]] [5, 5] 5 (by decide)
  exact ⟨out, r, sock', piece, r', sock'', hrun, hc, hle 1⟩

end RecordFramer

end XrayCore.Streams
