import XrayCore.Vless.CommonStream

/-!
# Reading the encrypted stream

However the stream is cut, a call returns the next bytes of the plaintext, and leaves less than
there was. With the random number of 0-RTT in front, the AEAD is there as soon as its 16 bytes are.
-/

namespace XrayCore.Vless.Encryption

open Lib ReadHalf List ReadHalf

def returned : PollResult ConnError Bytes → Bytes
  | .ready bytes => bytes
  | _ => []

def readCall (k : Keys) (s : ReadHalf × List Arrival) (room : Nat) :
    Option ((ReadHalf × List Arrival) × Bytes) :=
  let step := pollRead k room s.1 s.2
  some ((step.half, step.inner), returned step.result)

def readCalls (k : Keys) (r : ReadHalf) (inner : List Arrival) (rooms : List Nat) :
    Option ((ReadHalf × List Arrival) × Bytes) :=
  logged (readCall k) (r, inner) rooms

/-- What a reader has still to return of a stream of records that begins under `aead`. -/
inductive Expects (k : Keys) (aead : Aead) (records : List Record) (tail : Bytes) :
    ReadHalf × List Arrival → Bytes → Prop
  | underway {r inner done todo plain} : Flowing inner → r.rawPos ≤ r.rawBuf.length →
    done ++ todo = records → r.peerAead = some (aeadAfter k aead done) →
    r.window ++ contents inner = wireOf todo ++ tail →
    openAll k (aeadAfter k aead done) todo = some plain →
    Expects k aead records tail (r, inner) (r.decrypted.drop r.decryptedPos ++ plain)
  | early {r inner random plain} : Flowing inner → r.rawPos ≤ r.rawBuf.length →
    r.peerAead = none → r.decrypted = [] → random.length = 16 → k.aead random = aead →
    r.window ++ contents inner = random ++ (wireOf records ++ tail) →
    openAll k aead records = some plain → Expects k aead records tail (r, inner) plain
  | short {r inner} : Flowing inner → r.rawPos ≤ r.rawBuf.length → r.peerAead = none →
    r.decrypted = [] → (r.window ++ contents inner).length < 16 → records = [] →
    Expects k aead records tail (r, inner) []

def ahead (s : ReadHalf × List Arrival) (rest : Bytes) : Nat := s.2.length + rest.length

/-- A call returns the next of the bytes, and leaves less unless nothing was left. -/
def Returns (k : Keys) (aead : Aead) (records : List Record) (tail : Bytes)
    (s : ReadHalf × List Arrival) (rest : Bytes) (step : ReadStep) : Prop :=
  ∃ rest', rest = returned step.result ++ rest' ∧
    Expects k aead records tail (step.half, step.inner) rest' ∧
    ahead (step.half, step.inner) rest' ≤ ahead s rest - 1

section

variable {k : Keys} {aead : Aead} {records : List Record} {tail : Bytes} {r : ReadHalf}
  {inner source : List Arrival} {rest : Bytes} {n : Nat}

theorem window_extend (hc : r.rawPos ≤ r.rawBuf.length) (piece : Bytes) :
    (r.extend piece).window = r.window ++ piece :=
  drop_append_of_le_length hc

theorem Expects.flowing (h : Expects k aead records tail (r, inner) rest) : Flowing inner := by
  cases h <;> assumption

theorem Expects.pending (h : Expects k aead records tail (r, inner) rest)
    (hr : readUpTo n inner = (.pending, source)) :
    Expects k aead records tail (r, source) rest ∧ source.length + 1 = inner.length := by
  obtain ⟨hf, hco, hl⟩ := h.flowing.of_pending hr
  refine ⟨?_, hl.symm⟩
  cases h with
  | underway _ hc hre ha hs hp =>
    exact .underway hf hc hre ha (by rw [hco, hs]) hp
  | early _ hc hn he hra ha hs hp =>
    exact .early hf hc hn he hra ha (by rw [hco, hs]) hp
  | short _ hc hn he hlt hni =>
    exact .short hf hc hn he (by rwa [hco]) hni

theorem Expects.piece {piece : Bytes} (h : Expects k aead records tail (r, inner) rest)
    (hr : readUpTo n inner = (.piece piece, source)) :
    Expects k aead records tail (r.extend piece, source) rest ∧ source.length ≤ inner.length := by
  obtain ⟨hf, hco, hl⟩ := h.flowing.of_piece hr
  have hc' (hc : r.rawPos ≤ r.rawBuf.length) :
      (r.extend piece).rawPos ≤ (r.extend piece).rawBuf.length := by
    rw [extend, length_append]
    exact Nat.le_add_right_of_le hc
  have hw (hc : r.rawPos ≤ r.rawBuf.length) :
      (r.extend piece).window ++ contents source = r.window ++ contents inner := by
    rw [window_extend hc, hco, append_assoc]
  refine ⟨?_, hl⟩
  cases h with
  | underway _ hc hre ha hs hp =>
    exact .underway (r := r.extend piece) hf (hc' hc) hre ha ((hw hc).trans hs) hp
  | early _ hc hn he hra ha hs hp =>
    exact .early hf (hc' hc) hn he hra ha ((hw hc).trans hs) hp
  | short _ hc hn he hlt hni =>
    exact .short hf (hc' hc) hn he (by rwa [hw hc]) hni

theorem rawPos_consume_le (hc : r.rawPos ≤ r.rawBuf.length) (hn : n ≤ r.window.length) :
    (r.consume n).rawPos ≤ (r.consume n).rawBuf.length := by
  unfold window at hn
  rw [length_drop] at hn
  unfold consume
  split
  · exact le_rfl
  · dsimp only
    omega

@[simp] theorem decrypted_consume : (r.consume n).decrypted = r.decrypted := by
  unfold consume
  split <;> rfl

@[simp] theorem decryptedPos_consume : (r.consume n).decryptedPos = r.decryptedPos := by
  unfold consume
  split <;> rfl

@[simp] theorem peerAead_consume : (r.consume n).peerAead = r.peerAead := by
  unfold consume
  split <;> rfl

theorem Expects.establish (h : Expects k aead records tail (r, inner) rest)
    (hn : r.peerAead = none) (hl : 16 ≤ r.window.length) :
    Expects k aead records tail (r.establish k, inner) rest := by
  cases h with
  | underway _ _ _ ha =>
    rw [hn] at ha
    cases ha
  | @early _ _ random _ hf hc _ he hr ha hs hp =>
    obtain ⟨w', hw⟩ : random <+: r.window :=
      prefix_of_prefix_length_le ⟨_, hs.symm⟩ ⟨_, rfl⟩ (by omega)
    have ht : r.window.take 16 = random := by rw [← hw, take_left' hr]
    have hpe : (r.establish k).peerAead = some (aeadAfter k aead []) := by
      rw [ReadHalf.establish, peerAead_consume, ht, ha]
      rfl
    have hrest : rest = (r.establish k).decrypted.drop (r.establish k).decryptedPos ++ rest := by
      simp [ReadHalf.establish, he]
    rw [hrest]
    refine .underway hf (rawPos_consume_le hc hl) (nil_append records) hpe ?_ hp
    rw [← hw, append_assoc, append_cancel_left_eq] at hs
    rw [ReadHalf.establish, window_consume]
    change r.window.drop 16 ++ _ = _
    rw [← hw, drop_left' hr, hs]
  | short _ _ _ _ hlt =>
    rw [length_append] at hlt
    omega

variable {aead' : Aead}

theorem Expects.records_of_drained (h : Expects k aead records tail (r, inner) rest)
    (hsome : r.peerAead = some aead') (hd : r.decrypted.length ≤ r.decryptedPos) :
    ∃ done todo, done ++ todo = records ∧ aead' = aeadAfter k aead done ∧
      r.rawPos ≤ r.rawBuf.length ∧ r.window ++ contents inner = wireOf todo ++ tail ∧
      openAll k aead' todo = some rest := by
  cases h with
  | underway _ hc hr ha hs hp =>
    rw [hsome, Option.some.injEq] at ha
    subst ha
    rw [drop_eq_nil_of_le hd]
    exact ⟨_, _, hr, rfl, hc, hs, hp⟩
  | early _ _ hn | short _ _ hn =>
    rw [hsome] at hn
    cases hn

theorem Expects.record (ht : Unfinished tail)
    (h : Expects k aead records tail (r, inner) rest) (hsome : r.peerAead = some aead')
    (hd : r.decrypted.length ≤ r.decryptedPos) (hf : frontOf r.window = .record header body) :
    ∃ pt next, openRecord k aead' header body = (some pt, next) ∧
      Expects k aead records tail ({ r with
        decrypted := pt, decryptedPos := 0, peerAead := some next }.consume
          (TLS_RECORD_HEADER_LEN + body.length), inner) rest := by
  obtain ⟨done, todo, rfl, rfl, hc, hs, hp⟩ := h.records_of_drained hsome hd
  rcases frontOf_stream hs ht with hn | ⟨record, todo', w', rfl, hw, hr⟩
  · rw [hf] at hn
    cases hn
  rw [hf] at hr
  cases hr
  obtain ⟨pt, rest', ho, hrest', rfl⟩ := openAll_cons.mp hp
  have hl : record.bytes.length = TLS_RECORD_HEADER_LEN + record.body.length := by
    rw [Record.bytes, length_append, record.length_header]
  refine ⟨pt, _, ho, ?_⟩
  generalize hr' : { r with
    decrypted := pt, decryptedPos := 0,
    peerAead := some (nextAead k (aeadAfter k aead done) record) } = r'
  have hde : pt = (r'.consume (TLS_RECORD_HEADER_LEN + record.body.length)).decrypted.drop
        (r'.consume (TLS_RECORD_HEADER_LEN + record.body.length)).decryptedPos := by
    simp [← hr']
  rw [hde]
  subst hr'
  refine .underway h.flowing (rawPos_consume_le hc (length_record_le hf))
    (append_cons done record todo').symm ?_ ?_ ?_
  · simp
  · rw [hw, append_assoc, wireOf_cons, append_assoc, append_cancel_left_eq] at hs
    rw [window_consume]
    change r.window.drop _ ++ _ = _
    rw [hw, drop_left' hl, hs]
  · simpa using hrest'

theorem Expects.deliver (room : Nat)
    (h : Expects k aead records tail (r, inner) rest) (hsome : r.peerAead = some aead')
    (hmore : r.decryptedPos < r.decrypted.length) :
    ∃ rest', rest = (r.deliver room).1 ++ rest' ∧ (0 < room → (r.deliver room).1 ≠ []) ∧
      Expects k aead records tail ((r.deliver room).2, inner) rest' := by
  cases h with
  | @underway _ _ done todo plain hf hc hr ha hs hp =>
    have hne (hroom : 0 < room) : (r.deliver room).1 ≠ [] := by
      refine ne_nil_of_length_pos ?_
      rw [deliver, length_take, length_drop]
      omega
    refine ⟨(r.deliver room).2.decrypted.drop (r.deliver room).2.decryptedPos ++ plain, ?_, hne, ?_⟩
    · rw [← append_assoc, append_cancel_right_eq]
      unfold deliver
      dsimp only
      split
      · next hall =>
        rw [length_take, length_drop] at hall
        rw [drop_nil, append_nil, take_of_length_le]
        rw [length_drop]
        omega
      · next hpa =>
        rw [length_take, length_drop] at hpa
        rw [← drop_drop, length_take, min_eq_left, take_append_drop]
        rw [length_drop]
        omega
    · have hsa : (r.deliver room).2.peerAead = r.peerAead ∧
          (r.deliver room).2.rawBuf = r.rawBuf ∧ (r.deliver room).2.rawPos = r.rawPos := by
        unfold deliver
        dsimp only
        split <;> exact ⟨rfl, rfl, rfl⟩
      obtain ⟨hpe, hb, hpo⟩ := hsa
      refine .underway hf ?_ hr (hpe.trans ha) ?_ hp
      · rw [hb, hpo]
        exact hc
      · rw [window, hb, hpo]
        exact hs
  | early _ _ hn | short _ _ hn =>
    rw [hsome] at hn
    cases hn

theorem Returns.after
    (h : Returns k aead records tail (r', inner') rest step) (hl : inner'.length ≤ inner.length)
    (evs : List ReadEvent) : Returns k aead records tail (r, inner) rest (step.after evs) := by
  obtain ⟨rest', hrest, he, hless⟩ := h
  refine ⟨rest', hrest, he, hless.trans ?_⟩
  dsimp only [ahead]
  omega

theorem Expects.ended (h : Expects k aead records tail (r, []) rest) (hn : r.Needs) :
    rest = [] := by
  rcases hn with ⟨hno, hsh⟩ | ⟨aead', hsome, hd, hf⟩
  · cases h with
    | underway _ _ _ ha =>
      rw [hno] at ha
      cases ha
    | early _ _ _ _ hr _ hs =>
      have hl := congrArg List.length hs
      simp only [contents_nil, length_append, length_nil] at hl
      omega
    | short => rfl
  · obtain ⟨done, todo, rfl, rfl, hc, hs, hp⟩ := h.records_of_drained hsome hd
    cases todo with
    | nil => exact (Option.some.inj hp).symm
    | cons re todo =>
      rw [contents_nil, append_nil, wireOf_cons, append_assoc] at hs
      rw [hs, frontOf_bytes] at hf
      cases hf

theorem Expects.returns_ended
    (h : Expects k aead records tail (r, inner) rest) (hn : 0 < n) (hnee : r.Needs)
    (he : inner = [] ∧ source = [] ∨ inner ≠ [] ∧ readUpTo n inner = (.piece [], source))
    (hr : returned result = []) (evs : List ReadEvent) :
    Returns k aead records tail (r, inner) rest ⟨result, r, source, evs⟩ := by
  rcases he with ⟨rfl, rfl⟩ | ⟨hne, hre⟩
  · obtain rfl := h.ended hnee
    exact ⟨[], by rw [hr]; rfl, h, le_of_eq rfl⟩
  · exact absurd hre (h.flowing.not_ended hn hne)

theorem pollRead_returns (ht : Unfinished tail) (hroom : 0 < room)
    (h : Expects k aead records tail (r, inner) rest) :
    Returns k aead records tail (r, inner) rest (pollRead k room r inner) := by
  -- along the turns of the loop
  have hp := polls_pollRead k room r inner
  generalize pollRead k room r inner = step at hp
  induction hp with
  | waits hn hnee hr =>
    obtain ⟨he, hle⟩ := h.pending hr
    refine ⟨rest, rfl, he, ?_⟩
    dsimp only [ahead]
    omega
  | fails hn hnee hr => exact absurd hr h.flowing.not_failed
  | ends hn hnee hen | closes hn hnee _ _ hen => exact h.returns_ended hn hnee hen rfl _
  | receives hn hnee _ hr _ ih =>
    obtain ⟨he, hle⟩ := h.piece hr
    exact (ih he).after hle _
  | establishes hno hl _ ih => exact (ih (h.establish hno hl)).after le_rfl []
  | delivers hsome hmore =>
    obtain ⟨rest', rfl, hne, he⟩ := h.deliver room hsome hmore
    refine ⟨rest', rfl, he, ?_⟩
    have hpo := length_pos_iff.mpr (hne hroom)
    simp [ahead]
    omega
  | rejects hsome hd hf =>
    obtain ⟨_, _, _, _, _, hs, _⟩ := h.records_of_drained hsome hd
    rcases frontOf_stream hs ht with hnt | ⟨_, _, _, _, _, hre⟩
    · rw [hf] at hnt
      cases hnt
    · rw [hf] at hre
      cases hre
  | refuses hsome hd hf hop =>
    obtain ⟨p, next, ho, -⟩ := h.record ht hsome hd hf
    rw [hop] at ho
    cases ho
  | opens hsome hd hf hop _ ih =>
    obtain ⟨p, next, ho, he⟩ := h.record ht hsome hd hf
    rw [hop] at ho
    cases ho
    exact (ih he).after le_rfl _

theorem readCalls_eq (ht : Unfinished tail)
    (hr : ∀ room ∈ rooms, 0 < room) (h : Expects k aead records tail (r, inn) rest) :
    ∃ s bytes rest', readCalls k r inn rooms = some (s, bytes) ∧ rest = bytes ++ rest' ∧
      Expects k aead records tail s rest' ∧ ahead s rest' ≤ ahead (r, inn) rest - rooms.length := by
  refine logged_rest (fun s room rest hroom he => ?_) hr h
  obtain ⟨rest', hrest, he', hless⟩ := pollRead_returns ht hroom he
  exact ⟨_, _, rest', rfl, hrest, he', hless⟩

end

end XrayCore.Vless.Encryption
