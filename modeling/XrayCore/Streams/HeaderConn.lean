import XrayCore.Lib.Polling
import XrayCore.Lib.Reads

/-!
# HTTP camouflage

The peer's header is read through the caller's own buffer, which is cleared for it.
-/

namespace XrayCore.Streams

open Lib List

def ENDING : Bytes := [0x0d, 0x0a, 0x0d, 0x0a]

def MAX_HEADER_LENGTH : Nat := 8192

inductive HeaderError
  | tooLong
  | pathMismatch
  | malformed
  | eof
  | inner

def findEnding (buf : Bytes) : Option Nat :=
  (List.range (buf.length - 3)).find? fun i => (buf.drop i).take 4 = ENDING

/-- `lossy` is `String::from_utf8_lossy`. -/
def parseRequestLinePath (lossy : Bytes → String) (header : Bytes) : Option String :=
  match (header.takeWhile (· ≠ 0x0d)).splitOn 0x20 with
  | [_, path, _] => some (lossy path)
  | _ => none

def checkPath (lossy : Bytes → String) (expectedUris : List String) (header : Bytes) :
    Except HeaderError Unit :=
  if expectedUris = [] then .ok ()
  else
    match parseRequestLinePath lossy header with
    | none => .error .malformed
    | some path => if path ∈ expectedUris then .ok () else .error .pathMismatch

section
variable (lossy : Bytes → String) (expectedUris : List String)

def feed (buffered chunk : Bytes) : Except HeaderError (Bytes ⊕ Bytes) :=
  let buffered := buffered ++ chunk
  if MAX_HEADER_LENGTH < buffered.length then .error .tooLong
  else
    match findEnding buffered with
    | none => .ok (.inr buffered)
    | some endIdx => do
      checkPath lossy expectedUris (buffered.take endIdx)
      .ok (.inl (buffered.drop (endIdx + ENDING.length)))

structure HeaderConn where
  reader : Option Bytes
  replay : Option Bytes

abbrev HeaderRead := PollResult HeaderError Unit × Bytes × HeaderConn × List Arrival

namespace HeaderConn

def pass (filled : Bytes) (capacity : Nat) (source : List Arrival) : HeaderRead :=
  match readUpTo (capacity - filled.length) source with
  | (.pending, source) => (.pending, filled, ⟨none, none⟩, source)
  | (.failed, source) => (.failed .inner, filled, ⟨none, none⟩, source)
  | (.piece piece, source) => (.ready (), filled ++ piece, ⟨none, none⟩, source)

def give (filled data : Bytes) (capacity : Nat) (source : List Arrival) : HeaderRead :=
  let n := min (capacity - filled.length) data.length
  (.ready (), filled ++ data.take n,
    ⟨none, if n < data.length then some (data.drop n) else none⟩, source)

def readHeader (buffered filled : Bytes) (capacity : Nat) (source : List Arrival) : HeaderRead :=
  match _ : readUpTo (capacity - filled.length) source with
  | (.pending, rest) => (.pending, filled, ⟨some buffered, none⟩, rest)
  | (.failed, rest) => (.failed .inner, filled, ⟨some buffered, none⟩, rest)
  | (.piece piece, rest) =>
    if _ : piece = [] then (.failed .eof, filled, ⟨none, none⟩, rest)
    else
      match feed lossy expectedUris buffered (filled ++ piece) with
      | .error e => (.failed e, filled ++ piece, ⟨none, none⟩, rest)
      | .ok (.inr buffered) => readHeader buffered [] capacity rest
      | .ok (.inl body) => if body = [] then pass [] capacity rest else give [] body capacity rest
termination_by backlog source
decreasing_by exact (readUpTo_piece ‹_›).2 ‹_›

def pollRead (conn : HeaderConn) (filled : Bytes) (capacity : Nat) (source : List Arrival) :
    HeaderRead :=
  match conn.replay, conn.reader with
  | some data, _ => give filled data capacity source
  | none, some buffered => readHeader lossy expectedUris buffered filled capacity source
  | none, none => pass filled capacity source

def got (p : HeaderRead) : Got :=
  match p.1 with
  | .pending => .pending
  | .ready _ => .bytes p.2.1
  | .failed _ => .failed

def received : PollRead HeaderConn Arrival := fun conn capacity source =>
  let p := conn.pollRead lossy expectedUris [] capacity source
  (got p, p.2.2)

end HeaderConn

end

variable {lossy : Bytes → String} {expectedUris : List String} {sent : Bytes} {e : Nat}

theorem findEnding_take (h : findEnding sent = some e) (hk : k ≤ sent.length) :
    findEnding (sent.take k) = if e + 4 ≤ k then some e else none := by
  have hw : ∀ i, i + 4 ≤ k → ((sent.take k).drop i).take 4 = (sent.drop i).take 4 := by
    intro i hi
    rw [drop_take, take_take, min_eq_left (by omega)]
  simp only [findEnding, find?_range_eq_some, mem_range, decide_eq_true_eq] at h
  obtain ⟨he, hlt, hno⟩ := h
  rw [findEnding, length_take_of_le hk]
  split
  next hek =>
    refine find?_range_eq_some.mpr ⟨by simpa [hw e hek] using he, by simp; omega, fun j hj => ?_⟩
    simpa [hw j (by omega)] using hno j hj
  next hek =>
    refine find?_range_eq_none.mpr fun j hj => ?_
    simpa [hw j (by omega)] using hno j (by omega)

theorem length_of_findEnding (h : findEnding sent = some e) : e + 4 ≤ sent.length := by
  have := (find?_range_eq_some.mp h).2.1
  rw [mem_range] at this
  omega

theorem feed_eq (h : findEnding sent = some e)
    (hc : checkPath lossy expectedUris (sent.take e) = .ok ()) (hb : buffered ++ pc = sent.take k)
    (hk : k ≤ sent.length) (hm : k ≤ MAX_HEADER_LENGTH) :
    feed lossy expectedUris buffered pc =
      .ok (if e + 4 ≤ k then .inl ((sent.take k).drop (e + 4)) else .inr (sent.take k)) := by
  rw [feed, hb, if_neg (by rw [length_take]; omega), findEnding_take h hk]
  by_cases hek : e + 4 ≤ k
  · simp only [if_pos hek, take_take, min_eq_left (by omega : e ≤ k), hc]
    rfl
  · simp [if_neg hek]

namespace HeaderConn

def Left (sent : Bytes) (e : Nat) (conn : HeaderConn) (source : List Arrival) (data : Bytes) :
    Prop :=
  Flowing source ∧ ((∃ buffered, conn = ⟨some buffered, none⟩ ∧ buffered ++ contents source = sent ∧
      buffered.length < e + 4 ∧ data = sent.drop (e + 4)) ∨
    ∃ replay, conn = ⟨none, replay⟩ ∧ replay ≠ some [] ∧ data = replay.getD [] ++ contents source)

def Right (sent : Bytes) (e : Nat) (source : List Arrival) (data : Bytes) (p : HeaderRead) : Prop :=
  (got p = .pending → p.2.2.2.length < source.length) ∧ got p ≠ .failed ∧
    (got p = .bytes [] → p.2.2.2 = [] ∧ data = []) ∧
    ∃ rest, data = (got p).data ++ rest ∧ Left sent e p.2.2.1 p.2.2.2 rest

theorem Right.mono (h : Right sent e rest data p) (hl : rest.length ≤ source.length) :
    Right sent e source data p :=
  ⟨fun hp => (h.1 hp).trans_le hl, h.2⟩

theorem right_pass (hf : Flowing source) (hc : 0 < capacity) :
    Right sent e source (contents source) (pass [] capacity source) := by
  unfold pass
  split
  next rest hr =>
    obtain ⟨hr', hcr, hl⟩ := hf.of_pending hr
    exact ⟨fun _ => by simp [hl], by simp [got], by simp [got], contents source, rfl, hr',
      .inr ⟨none, rfl, by simp, by simp [hcr]⟩⟩
  next rest hr => exact absurd hr hf.not_failed
  next piece rest hr =>
    obtain ⟨hr', hcr, -⟩ := hf.of_piece hr
    refine ⟨by simp [got], by simp [got], fun hb => ?_, contents rest, hcr, hr',
      .inr ⟨none, rfl, by simp, rfl⟩⟩
    obtain rfl : piece = [] := by simpa [got] using hb
    have hs : source = [] := by
      by_contra hne
      exact hf.not_ended hc hne hr
    subst hs
    cases hr
    exact ⟨rfl, rfl⟩

theorem right_give (hf : Flowing source) (hc : 0 < capacity) (hd : data ≠ []) :
    Right sent e source (data ++ contents source) (give [] data capacity source) := by
  have hl := length_pos_iff.mpr hd
  refine ⟨by simp [got, give], by simp [got, give], fun hb => ?_, _, ?_, hf, .inr ⟨_, rfl, ?_, rfl⟩⟩
  · have : min capacity data.length = 0 := by simpa [got, give, hd] using hb
    omega
  · by_cases hlt : capacity < data.length
    · simp [got, give, Got.data, hlt, ← append_assoc, min_eq_left hlt.le]
    · simp [got, give, Got.data, min_eq_right (not_lt.mp hlt)]
  · by_cases hlt : capacity < data.length
    · simp [hlt, min_eq_left hlt.le]
    · simp [hlt]

theorem right_readHeader (h : findEnding sent = some e)
    (hp : checkPath lossy expectedUris (sent.take e) = .ok ()) (hc : 0 < capacity)
    (hm : e + 3 + capacity ≤ MAX_HEADER_LENGTH) (hf : Flowing source)
    (hs : buffered ++ contents source = sent) (hb : buffered.length < e + 4) :
    Right sent e source (sent.drop (e + 4))
      (readHeader lossy expectedUris buffered [] capacity source) := by
  induction hn : backlog source using Nat.strongRecOn generalizing buffered source with
  | _ n ih =>
  rw [readHeader]
  split
  next rest hr =>
    obtain ⟨hr', hcr, hl⟩ := hf.of_pending hr
    exact ⟨fun _ => by simp [hl], by simp [got], by simp [got], _, rfl, hr',
      .inl ⟨buffered, rfl, hcr ▸ hs, hb, rfl⟩⟩
  next rest hr => exact absurd hr hf.not_failed
  next piece rest hr =>
    obtain ⟨hr', hcr, hlr⟩ := hf.of_piece hr
    have he := length_of_findEnding h
    have hpi : piece ≠ [] := by
      rintro rfl
      refine hf.not_ended hc ?_ hr
      rintro rfl
      simp [← hs] at he
      omega
    rw [dif_neg hpi]
    have hall : (buffered ++ piece) ++ contents rest = sent := by
      rw [append_assoc, ← hcr, hs]
    have hk : buffered ++ piece = sent.take (buffered ++ piece).length := by
      rw [← hall, take_left]
    have hle : (buffered ++ piece).length ≤ sent.length := by simp [← hall]
    have hpc := readUpTo_piece hr
    have hl : (buffered ++ piece).length = buffered.length + piece.length := length_append
    rw [nil_append, feed_eq h hp hk hle (by omega)]
    by_cases hek : e + 4 ≤ (buffered ++ piece).length
    · have hda : sent.drop (e + 4) = (buffered ++ piece).drop (e + 4) ++ contents rest := by
        rw [← hall, drop_append_of_le_length hek]
      simp only [if_pos hek, ← hk, hda]
      split
      next hbo =>
        rw [hbo, nil_append]
        exact (right_pass hr' hc).mono hlr
      next hbo => exact (right_give hr' hc hbo).mono hlr
    · simp only [if_neg hek, ← hk]
      exact (ih _ (hn ▸ hpc.2 hpi) hr' hall (not_le.mp hek) rfl).mono hlr

theorem payload_delivered (lossy : Bytes → String) (expectedUris : List String)
    (src : List Arrival) (hf : Flowing src) (h : findEnding (contents src) = some e)
    (hp : checkPath lossy expectedUris ((contents src).take e) = .ok ()) (capacities : List Nat)
    (hc : ∀ capacity ∈ capacities, 0 < capacity ∧ e + 3 + capacity ≤ MAX_HEADER_LENGTH) :
    Delivers src (reads (received lossy expectedUris) ⟨some [], none⟩ src capacities)
      ((contents src).drop (e + 4)) := by
  refine delivers_of_step (Left (contents src) e) ?_ capacities _ src _
    ⟨hf, .inl ⟨[], rfl, rfl, Nat.succ_pos _, rfl⟩⟩ hc
  rintro conn rest data capacity ⟨hr, hl⟩ ⟨hpos, hm⟩
  rcases hl with ⟨buffered, rfl, hs, hb, rfl⟩ | ⟨_ | replay, rfl, hne, rfl⟩
  · exact right_readHeader h hp hpos hm hr hs hb
  · exact right_pass hr hpos
  · exact right_give hr hpos (by simpa using hne)

theorem payload_delivered_ok : Delivers [.piece [1, 13, 10], .piece [13, 10, 7, 8]]
      (reads (received (fun _ => "") []) ⟨some [], none⟩
        [.piece [1, 13, 10], .piece [13, 10, 7, 8]] [4, 4]) [7, 8] :=
  payload_delivered (fun _ => "") [] [.piece [1, 13, 10], .piece [13, 10, 7, 8]]
    ⟨by decide, by decide⟩ (by decide : _ = some 1) rfl [4, 4] (by simp [MAX_HEADER_LENGTH])

theorem filled_lost :
    (pollRead (fun _ => "") [] ⟨some [], none⟩ [5] 8 [.piece [13, 10, 13, 10, 7]]).2.1 = [7] := by
  simp only [pollRead]
  unfold readHeader
  decide

end HeaderConn

end XrayCore.Streams
