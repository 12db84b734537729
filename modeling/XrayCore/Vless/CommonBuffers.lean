import XrayCore.Vless.CommonWriting

/-!
# The buffers of the encrypted connection

The ciphertext of a record is put where the plaintext will be, and stays there when it does not
open. The bytes that were read go to the end of `raw_buf`, which is cleared only when all of them
are used up.
-/

namespace XrayCore.Vless.Encryption

open Lib ReadHalf List

def readLog (k : Keys) : ReadHalf → List Arrival → List Nat → List (Nat × List ReadEvent)
  | _, _, [] => []
  | r, inner, room :: rooms =>
    let step := pollRead k room r inner
    (room, step.events) :: readLog k step.half step.inner rooms

def eventsOf (log : List (Nat × List ReadEvent)) : List ReadEvent := log.flatMap Prod.snd

variable {k : Keys} {r : ReadHalf} {inner : List Arrival} {room : Nat}

section Turns

variable {aead : Aead} (hsome : r.peerAead = some aead)
include hsome

theorem pollRead_delivers (hmore : r.decryptedPos < r.decrypted.length) :
    pollRead k room r inner = ⟨.ready (r.deliver room).1, (r.deliver room).2, inner,
      [.delivered (r.deliver room).1]⟩ := by
  rw [pollRead.eq_def, hsome]
  exact if_pos hmore

section

variable (hd : r.decrypted.length ≤ r.decryptedPos)

include hd

theorem pollRead_receives {piece : Bytes} (hf : frontOf r.window = .incomplete) (hne : piece ≠ [])
    (hle : piece.length ≤ 16384) :
    pollRead k room r (.piece piece :: inner) = (pollRead k room (r.extend piece) inner).after
      [.received piece (r.extend piece).rawBuf.length] := by
  obtain ⟨b, rest, rfl⟩ := exists_cons_of_ne_nil hne
  have hr : readUpTo 16384 (.piece (b :: rest) :: inner) = (.piece (b :: rest), inner) := if_pos hle
  rw [pollRead.eq_def, hsome]
  dsimp only
  rw [if_neg (not_lt.mpr hd)]
  split <;> simp_all
  split <;> simp_all

theorem pollRead_waits (hf : frontOf r.window = .incomplete) :
    pollRead k room r (.pending :: inner) = ⟨.pending, r, inner, [.waits]⟩ := by
  rw [pollRead.eq_def, hsome]
  dsimp only
  rw [if_neg (not_lt.mpr hd)]
  split <;> simp_all [readUpTo]

theorem pollRead_record (hf : frontOf r.window = .record hdr body) : pollRead k room r inner =
      match openRecord k aead hdr body with
      | (none, next) => ⟨.failed .openFailed, { r with decrypted := body, peerAead := some next },
          inner, [.refused body]⟩
      | (some pt, next) => (pollRead k room ({ r with
          decrypted := pt, decryptedPos := 0, peerAead := some next }.consume
            (TLS_RECORD_HEADER_LEN + body.length)) inner).after [.opened pt] := by
  rw [pollRead.eq_def, hsome]
  dsimp only
  rw [if_neg (not_lt.mpr hd)]
  split
  · simp_all
  · next hr =>
    rw [hf] at hr
    cases hr
    rcases openRecord k aead hdr body with ⟨_ | pt, next⟩ <;> rfl
  · simp_all

end

end Turns

def ReadEvent.left (before : Bytes) : ReadEvent → Bytes
  | .opened plaintext => plaintext
  | .delivered bytes => before.drop bytes.length
  | _ => before

def ReadEvent.Genuine (before : Bytes) : ReadEvent → Prop
  | .delivered bytes => bytes <+: before
  | _ => True

def AuthenticFrom (before : Bytes) : List ReadEvent → Prop
  | [] => True
  | e :: events => e.Genuine before ∧ AuthenticFrom (e.left before) events

/-- All that is delivered is plaintext of a record that was opened. -/
def Authentic (log : List (Nat × List ReadEvent)) : Prop := AuthenticFrom [] (eventsOf log)

def Refuses (events : List ReadEvent) : Prop := ∃ body, .refused body ∈ events

/-- After a call that could not open a record, the caller offers no more room. -/
def Cautious : List (Nat × List ReadEvent) → Prop
  | [] => True
  | (_, events) :: log => (Refuses events → ∀ call ∈ log, call.1 = 0) ∧ Cautious log

theorem authenticFrom_append : AuthenticFrom before (a ++ b) ↔
      AuthenticFrom before a ∧ AuthenticFrom (a.foldl ReadEvent.left before) b := by
  induction a generalizing before with
  | nil => simp [AuthenticFrom]
  | cons e a ih => simp [AuthenticFrom, ih, and_assoc]

structure ReadHalf.Tidy (r : ReadHalf) : Prop where
  drained : r.decrypted.length ≤ r.decryptedPos → r.decrypted = [] ∧ r.decryptedPos = 0

def ReadHalf.rest (r : ReadHalf) : Bytes := r.decrypted.drop r.decryptedPos

structure ReadHalf.Tainted (r : ReadHalf) : Prop where
  established : ∃ aead, r.peerAead = some aead
  decrypted : r.decrypted ≠ []
  decryptedPos : r.decryptedPos = 0

/-- What a call comes to: only plaintext is delivered, and either nothing was refused and the rest
of the plaintext is left, or the ciphertext is. -/
inductive Ends (before : Bytes) (step : ReadStep) : Prop
  | tidy : AuthenticFrom before step.events → ¬Refuses step.events → step.half.Tidy →
    step.half.rest = step.events.foldl ReadEvent.left before → Ends before step
  | tainted : AuthenticFrom before step.events → Refuses step.events → step.half.Tainted →
    step.events.foldl ReadEvent.left before = [] → Ends before step

theorem deliver_rest (r : ReadHalf) (room : Nat) :
    (r.deliver room).1 = r.rest.take room ∧ (r.deliver room).2.Tidy ∧
      (r.deliver room).2.rest = r.rest.drop (r.deliver room).1.length := by
  unfold deliver rest
  dsimp only
  split
  · next hall =>
    refine ⟨rfl, ⟨fun _ => ⟨rfl, rfl⟩⟩, ?_⟩
    rw [drop_nil, drop_drop, drop_eq_nil_of_le hall]
  · next hp =>
    refine ⟨rfl, ⟨fun hle => absurd hle hp⟩, ?_⟩
    rw [drop_drop]

theorem Ends.after (h : Ends (e.left before) step)
    (hg : e.Genuine before) (he : ∀ body, e ≠ .refused body) : Ends before (step.after [e]) := by
  have hr : Refuses (step.after [e]).events ↔ Refuses step.events := by
    refine exists_congr fun body => ?_
    simp [ReadStep.after, (he body).symm]
  cases h with
  | tidy ha hn ht hrest =>
    exact .tidy ⟨hg, ha⟩ (mt hr.mp hn) ht hrest
  | tainted ha hre hta hni =>
    exact .tainted ⟨hg, ha⟩ (hr.mpr hre) hta hni

theorem rest_consume (r : ReadHalf) (n : Nat) : (r.consume n).rest = r.rest := by
  simp [rest]

theorem ReadHalf.Tidy.of_decrypted {r' : ReadHalf} (h : r.Tidy) (hs : r'.decrypted = r.decrypted)
    (hp : r'.decryptedPos = r.decryptedPos) : r'.Tidy := by
  constructor
  rw [hs, hp]
  exact h.drained

theorem ReadHalf.Tidy.rest_eq_nil (h : r.Tidy) (hd : r.decrypted.length ≤ r.decryptedPos) :
    r.rest = [] := by
  rw [rest, (h.drained hd).1, drop_nil]

theorem ReadHalf.Tidy.ends_quiet (h : r.Tidy)
    (he : events = [] ∨ events = [.waits] ∨ events = [.delivered []]) :
    Ends r.rest ⟨result, r, inner, events⟩ := by
  rcases he with rfl | rfl | rfl <;>
    exact .tidy (by simp [AuthenticFrom, ReadEvent.Genuine]) (by simp [Refuses]) h rfl

theorem pollRead_ends (h : r.Tidy) : Ends r.rest (pollRead k room r inner) := by
  have hp := polls_pollRead k room r inner
  generalize pollRead k room r inner = step at hp
  induction hp with
  | waits => exact h.ends_quiet (.inr (.inl rfl))
  | fails | ends => exact h.ends_quiet (.inl rfl)
  | closes => exact h.ends_quiet (.inr (.inr rfl))
  | receives _ _ _ _ _ ih =>
    exact Ends.after (ih (h.of_decrypted rfl rfl)) trivial (by rintro body ⟨⟩)
  | @establishes r _ _ _ _ _ ih =>
    have hrest : (r.establish k).rest = r.rest := rest_consume _ 16
    rw [hrest] at ih
    exact ih (h.of_decrypted decrypted_consume decryptedPos_consume)
  | @delivers r _ _ _ hmore =>
    obtain ⟨hby, ht, hrest⟩ := deliver_rest r room
    refine .tidy ⟨?_, trivial⟩ (by simp [Refuses]) ht hrest
    exact take_prefix _ _
  | @rejects r _ _ header _ hd hf =>
    have hs : (r.reject k header).1.decrypted = r.decrypted ∧
        (r.reject k header).1.decryptedPos = r.decryptedPos := by
      unfold reject
      split
      · split <;> exact ⟨rfl, rfl⟩
      · exact ⟨rfl, rfl⟩
    have ht := h.of_decrypted hs.1 hs.2
    have hrest : (r.reject k header).1.rest = r.rest := by rw [rest, hs.1, hs.2, rest]
    rw [← hrest]
    exact ht.ends_quiet (.inl rfl)
  | @refuses r _ _ header body _ _ hd hf _ =>
    have hb : body ≠ [] := by
      obtain ⟨-, hl, -⟩ := frontOf_record hf
      rintro rfl
      exact absurd (decode_some hl) (by decide)
    refine .tainted ⟨trivial, trivial⟩ ⟨body, mem_singleton_self _⟩
      ⟨⟨_, rfl⟩, hb, (h.drained hd).2⟩ ?_
    exact h.rest_eq_nil hd
  | @opens r _ _ _ _ plaintext _ _ _ _ _ _ _ ih =>
    refine Ends.after ?_ trivial (by rintro body ⟨⟩)
    rw [rest_consume] at ih
    refine ih ⟨?_⟩
    rw [decrypted_consume, decryptedPos_consume]
    intro hle
    exact ⟨length_eq_zero_iff.mp (Nat.le_zero.mp hle), rfl⟩

theorem eventsOf_cons (call : Nat × List ReadEvent) (log : List (Nat × List ReadEvent)) :
    eventsOf (call :: log) = call.2 ++ eventsOf log := rfl

theorem authentic_tainted_iff (h : r.Tainted) (rooms : List Nat) :
    AuthenticFrom [] (eventsOf (readLog k r inner rooms)) ↔
      ∀ call ∈ readLog k r inner rooms, call.1 = 0 := by
  induction rooms generalizing r inner with
  | nil => simp [readLog, eventsOf, AuthenticFrom]
  | cons room rooms ih =>
    obtain ⟨aead, hsome⟩ := h.established
    have hmore : r.decryptedPos < r.decrypted.length := by
      rw [h.decryptedPos]
      exact length_pos_iff.mpr h.decrypted
    rw [readLog, pollRead_delivers hsome hmore, eventsOf_cons, forall_mem_cons, authenticFrom_append]
    dsimp only [AuthenticFrom, ReadEvent.Genuine]
    rw [and_true, prefix_nil]
    have hb : (r.deliver room).1 = r.decrypted.take room := by
      rw [deliver, h.decryptedPos, drop_zero]
    have he : (r.deliver room).1 = [] ↔ room = 0 := by
      rw [hb, take_eq_nil_iff, or_iff_left h.decrypted]
    rw [he]
    refine and_congr_right fun hz => ?_
    subst hz
    have hs : (r.deliver 0).2.Tainted := by
      unfold deliver
      dsimp only
      rw [if_neg (by simpa using hmore)]
      exact h
    exact ih hs

theorem cautious_of_zero (h : ∀ call ∈ log, call.1 = 0) : Cautious log := by
  induction log with
  | nil => trivial
  | cons call log ih =>
    have hl := (forall_mem_cons.mp h).2
    exact ⟨fun _ => hl, ih hl⟩

/-- All that calls deliver is authentic exactly if the caller offers no more room after a record
that did not open. -/
theorem authentic_iff {peer : Option Aead} {cache : Option ZeroRttCache} (rooms : List Nat) :
    Authentic (readLog k (.new peer cache) inner rooms) ↔
      Cautious (readLog k (.new peer cache) inner rooms) := by
  have hstep : ∀ (r : ReadHalf) (inner : List Arrival), r.Tidy →
      (AuthenticFrom r.rest (eventsOf (readLog k r inner rooms)) ↔
        Cautious (readLog k r inner rooms)) := by
    induction rooms with
    | nil => simp [readLog, eventsOf, AuthenticFrom, Cautious]
    | cons room rooms ih =>
      intro r inner htidy
      rw [readLog, eventsOf_cons, authenticFrom_append, Cautious]
      have hends : Ends r.rest (pollRead k room r inner) := pollRead_ends htidy
      cases hends with
      | tidy hauthentic hnot htidy' hrest =>
        rw [← hrest, ih _ _ htidy']
        simp [hauthentic, hnot]
      | tainted hauthentic hrefused htainted hnil =>
        rw [hnil, authentic_tainted_iff htainted]
        refine ⟨fun ⟨_, hzero⟩ => ⟨fun _ => hzero, cautious_of_zero hzero⟩, ?_⟩
        exact fun ⟨hzero, _⟩ => ⟨hauthentic, hzero hrefused⟩
  exact hstep (.new peer cache) inner ⟨fun _ => ⟨rfl, rfl⟩⟩

def badRecord : Bytes := [23, 3, 3, 0, 17] ++ replicate 17 1

def clearReader : ReadHalf := .new (some (clearKeys.aead [])) none

/-- The call after the one that fails returns the ciphertext. -/
theorem ciphertext_delivered : readLog clearKeys clearReader [.piece badRecord] [100, 100] =
        [(100, [.received badRecord 22, .refused (replicate 17 1)]),
          (100, [.delivered (replicate 17 1)])] ∧
      ¬Authentic (readLog clearKeys clearReader [.piece badRecord] [100, 100]) := by
  have hfirst : pollRead clearKeys 100 clearReader [.piece badRecord] =
      ⟨.failed .openFailed, ⟨some (clearKeys.aead []).increaseNonce, badRecord, 0,
        replicate 17 1, 0, none⟩, [],
        [.received badRecord 22, .refused (replicate 17 1)]⟩ := by
    have hsome : (clearReader.extend badRecord).peerAead = some (clearKeys.aead []) := rfl
    have hfront : frontOf (clearReader.extend badRecord).window =
        .record [23, 3, 3, 0, 17] (replicate 17 1) := by
      decide +kernel
    rw [pollRead_receives rfl (by decide) rfl (by decide) (by decide),
      pollRead_record hsome (by decide) hfront]
    rfl
  have hlog : readLog clearKeys clearReader [.piece badRecord] [100, 100] =
      [(100, [.received badRecord 22, .refused (replicate 17 1)]),
        (100, [.delivered (replicate 17 1)])] := by
    rw [readLog, hfirst, readLog, pollRead_delivers rfl (by decide)]
    rfl
  refine ⟨hlog, ?_⟩
  rw [hlog]
  rintro ⟨-, -, hprefix, -⟩
  cases prefix_nil.mp hprefix

def receipts (events : List ReadEvent) : List (Bytes × Nat) :=
  events.filterMap fun
    | .received piece held => some (piece, held)
    | _ => none

def bounds (lead : Nat) : List Record → List Nat
  | [] => [lead]
  | record :: records => lead :: bounds (lead + record.bytes.length) records

def gauge (ends : List Nat) (s : Nat × Nat) (piece : Bytes) : Nat × Nat :=
  (s.1 + piece.length, (if s.1 ∈ ends then 0 else s.2) + piece.length)

def spans (ends : List Nat) : Nat × Nat → List Bytes → List Nat
  | _, [] => []
  | s, piece :: pieces => (gauge ends s piece).2 :: spans ends (gauge ends s piece) pieces

theorem spans_append (ends : List Nat) (s : Nat × Nat) (a b : List Bytes) :
    spans ends s (a ++ b) = spans ends s a ++ spans ends (a.foldl (gauge ends) s) b := by
  induction a generalizing s with
  | nil => rfl
  | cons p a ih => simp [spans, ih]

theorem mem_bounds : n ∈ bounds lead recs ↔ ∃ done todo, done ++ todo = recs ∧
      n = lead + (wireOf done).length := by
  induction recs generalizing lead with
  | nil => simp [bounds]
  | cons r recs ih =>
    rw [bounds, mem_cons, ih]
    constructor
    · rintro (rfl | ⟨done, todo, rfl, rfl⟩)
      · exact ⟨[], _, rfl, rfl⟩
      · refine ⟨r :: done, todo, rfl, ?_⟩
        rw [wireOf_cons, length_append, add_assoc]
    · rintro ⟨done, todo, heq, rfl⟩
      cases done with
      | nil => exact .inl rfl
      | cons first done =>
        cases heq
        refine .inr ⟨done, todo, rfl, ?_⟩
        rw [wireOf_cons, length_append, add_assoc]

/-- A reader on a stream of valid records, which has received so many bytes, and so many since a
piece ended where a record does. -/
structure Gauged (k : Keys) (aead : Aead) (records : List Record) (tail : Bytes) (lead : Nat)
    (r : ReadHalf) (inner : List Arrival) (s : Nat × Nat) : Prop where
  expects : ∃ rest, Expects k aead records tail (r, inner) rest
  total : s.1 + (contents inner).length = lead + (wireOf records).length + tail.length
  fresh : r.peerAead = none → s.1 = r.window.length ∧ lead = 16
  cleared : r.window = [] → r.rawBuf = []
  held : r.rawBuf = [] ∧ s.1 ∈ bounds lead records ∨ r.rawBuf.length = s.2

namespace Gauged

variable {aead : Aead} {records : List Record} {tail : Bytes} {lead : Nat} {s : Nat × Nat}

theorem total_eq (h : Gauged k aead records tail lead r inner s) (hsome : r.peerAead = some aead') :
    ∃ done todo, done ++ todo = records ∧ s.1 = lead + (wireOf done).length + r.window.length ∧
      r.window ++ contents inner = wireOf todo ++ tail := by
  obtain ⟨rest, he⟩ := h.expects
  cases he with
  | @underway _ _ done todo _ _ _ hr _ hs _ =>
    subst hr
    have ht := h.total
    have hl := congrArg List.length hs
    simp only [wireOf_append, length_append] at ht hl
    exact ⟨done, todo, rfl, by omega, hs⟩
  | early _ _ hn | short _ _ hn =>
    rw [hsome] at hn
    cases hn

theorem held_of_needs (h : Gauged k aead records tail lead r inner s) (hn : r.Needs) :
    r.rawBuf.length = if s.1 ∈ bounds lead records then 0 else s.2 := by
  have he (hm : s.1 ∈ bounds lead records) : r.window = [] := by
    obtain ⟨done', todo', hr', ht'⟩ := mem_bounds.mp hm
    rcases hn with ⟨hno, hsh⟩ | ⟨aead', hsome, _, hf⟩
    · obtain ⟨ht, hl⟩ := h.fresh hno
      omega
    obtain ⟨done, todo, hr, ht, hs⟩ := h.total_eq hsome
    by_contra hne
    have hp := length_pos_iff.mpr hne
    -- the record behind `done` would be in the window
    have hless : done.length < done'.length := by
      by_contra hge
      obtain ⟨more, rfl⟩ : done' <+: done :=
        prefix_of_prefix_length_le ⟨todo', hr'⟩ ⟨todo, hr⟩ (not_lt.mp hge)
      rw [wireOf_append, length_append] at ht
      omega
    obtain ⟨more, rfl⟩ : done <+: done' :=
      prefix_of_prefix_length_le ⟨todo, hr⟩ ⟨todo', hr'⟩ hless.le
    cases more with
    | nil => simp at hless
    | cons record more =>
      rw [← hr', append_assoc, append_cancel_left_eq] at hr
      rw [hr, cons_append, wireOf_cons, append_assoc] at hs
      simp only [wireOf_append, wireOf_cons, length_append] at ht'
      obtain ⟨w', hw⟩ : record.bytes <+: r.window :=
        prefix_of_prefix_length_le ⟨_, hs.symm⟩ ⟨_, rfl⟩ (by omega)
      rw [← hw, frontOf_bytes] at hf
      cases hf
  split
  · next hm => rw [h.cleared (he hm), length_nil]
  · next hnt => exact h.held.resolve_left fun hh => hnt hh.2

theorem consume {n : Nat} (h : Gauged k aead records tail lead r inner s) (hn : 0 < n)
    (hle : n ≤ r.window.length) {r' : ReadHalf} {aead' : Aead} (hra : r'.rawBuf = r.rawBuf)
    (hp : r'.rawPos = r.rawPos) (hsome : r'.peerAead = some aead')
    (he : ∃ rest, Expects k aead records tail (r'.consume n, inner) rest) :
    Gauged k aead records tail lead (r'.consume n) inner s := by
  have hno (hno : (r'.consume n).peerAead = none) : s.1 = (r'.consume n).window.length ∧
      lead = 16 := by
    rw [peerAead_consume, hsome] at hno
    cases hno
  have hc : (r'.consume n).rawBuf = [] ∧ (r'.consume n).window = [] ∨
      (r'.consume n).rawBuf = r.rawBuf ∧ (r'.consume n).window ≠ [] := by
    unfold ReadHalf.consume
    split
    · exact .inl ⟨rfl, rfl⟩
    · next hnt =>
      refine .inr ⟨hra, ?_⟩
      rw [hra, hp] at hnt
      rw [window, length_drop] at hle
      rw [window, Ne, drop_eq_nil_iff]
      dsimp only
      rw [hra, hp]
      omega
  have hm : Gauged k aead records tail lead (r'.consume n) inner s ∨
      (r'.consume n).rawBuf = [] ∧ (r'.consume n).window = [] := by
    rcases hc with hc | ⟨hb, hne⟩
    · exact .inr hc
    refine .inl ⟨he, h.total, hno, fun hni => absurd hni hne, .inr ?_⟩
    rw [hb]
    refine h.held.resolve_left fun hh => ?_
    rw [window, hh.1, drop_nil] at hle
    simp at hle
    omega
  rcases hm with hm | ⟨hb, hni⟩
  · exact hm
  have hg : Gauged k aead records tail lead (r'.consume n) inner (s.1, 0) :=
    ⟨he, h.total, hno, fun _ => hb, .inr (by rw [hb]; rfl)⟩
  obtain ⟨done, todo, hr, ht, -⟩ := hg.total_eq (by rw [peerAead_consume, hsome])
  refine ⟨he, h.total, hno, fun _ => hb, .inl ⟨hb, mem_bounds.mpr ?_⟩⟩
  exact ⟨done, todo, hr, by simpa [hni] using ht⟩

theorem window_ne_nil (hc : r.rawPos ≤ r.rawBuf.length) (hp : pc ≠ []) :
    (r.extend pc).window ≠ [] := by
  rw [window_extend hc]
  exact append_ne_nil_of_right_ne_nil _ hp

def Meters (k : Keys) (aead : Aead) (records : List Record) (tail : Bytes) (lead : Nat)
    (s : Nat × Nat) (step : ReadStep) : Prop :=
  (receipts step.events).map Prod.snd =
      spans (bounds lead records) s ((receipts step.events).map Prod.fst) ∧
    Gauged k aead records tail lead step.half step.inner
      (((receipts step.events).map Prod.fst).foldl (gauge (bounds lead records)) s)

theorem ended (h : Gauged k aead records tail lead r inner s) (hn : 0 < n)
    (hen : inner = [] ∧ source = [] ∨ inner ≠ [] ∧ readUpTo n inner = (.piece [], source))
    (he : receipts events = []) :
    Meters k aead records tail lead s ⟨result, r, source, events⟩ := by
  unfold Meters
  rw [he]
  rcases hen with ⟨rfl, rfl⟩ | ⟨hne, hr⟩
  · exact ⟨rfl, h⟩
  · obtain ⟨rest, hex⟩ := h.expects
    exact absurd hr (hex.flowing.not_ended hn hne)

section

variable (ht : Unfinished tail) (h : Gauged k aead records tail lead r inner s)

include ht h

theorem pollRead_meters : Meters k aead records tail lead s (pollRead k room r inner) := by
  have hp := polls_pollRead k room r inner
  generalize pollRead k room r inner = step at hp
  induction hp generalizing s with
  | waits _ _ hr =>
    obtain ⟨rest, he⟩ := h.expects
    obtain ⟨he', -⟩ := he.pending hr
    refine ⟨rfl, ⟨rest, he'⟩, ?_, h.fresh, h.cleared, h.held⟩
    rw [(he.flowing.of_pending hr).2.1]
    exact h.total
  | fails _ _ hr =>
    obtain ⟨rest, he⟩ := h.expects
    exact absurd hr he.flowing.not_failed
  | ends hn _ hen | closes hn _ _ _ hen => exact h.ended hn hen rfl
  | @receives r inner source _ piece step _ hne hpi hr _ ih =>
    obtain ⟨rest, he⟩ := h.expects
    obtain ⟨he', -⟩ := he.piece hr
    have hc : r.rawPos ≤ r.rawBuf.length := by cases he <;> assumption
    have hw := window_extend hc piece
    have hh : (r.extend piece).rawBuf.length = (gauge (bounds lead records) s piece).2 := by
      rw [extend, length_append, h.held_of_needs hne, gauge]
    have hnx : Gauged k aead records tail lead (r.extend piece) source
        (gauge (bounds lead records) s piece) := by
      refine ⟨⟨rest, he'⟩, ?_, fun hno => ?_, fun hni => absurd hni (window_ne_nil hc hpi), .inr hh⟩
      · have hto := h.total
        rw [(he.flowing.of_piece hr).2.1, length_append] at hto
        simp [gauge]
        omega
      · obtain ⟨hfr, hle⟩ := h.fresh hno
        rw [hw, length_append, gauge, hfr]
        exact ⟨rfl, hle⟩
    obtain ⟨hs, hg⟩ := ih hnx
    refine ⟨?_, hg⟩
    change (r.extend piece).rawBuf.length :: _ = (gauge _ s piece).2 :: _
    rw [hh]
    exact congrArg _ hs
  | @establishes r _ _ hno hl _ ih =>
    obtain ⟨rest, he⟩ := h.expects
    exact ih (h.consume (by decide) hl rfl rfl rfl ⟨rest, he.establish hno hl⟩)
  | @delivers r _ _ hsome hmore =>
    obtain ⟨rest, he⟩ := h.expects
    obtain ⟨rest', -, -, he'⟩ := he.deliver room hsome hmore
    have hsa : (r.deliver room).2.peerAead = r.peerAead ∧
        (r.deliver room).2.window = r.window ∧ (r.deliver room).2.rawBuf = r.rawBuf := by
      unfold deliver
      dsimp only
      split <;> exact ⟨rfl, rfl, rfl⟩
    obtain ⟨hpe, hw, hb⟩ := hsa
    refine ⟨rfl, ⟨rest', he'⟩, h.total, ?_, ?_, ?_⟩
    · rw [hpe, hw]
      exact h.fresh
    · rw [hw, hb]
      exact h.cleared
    · rw [hb]
      exact h.held
  | rejects hsome hd hf =>
    obtain ⟨rest, he⟩ := h.expects
    obtain ⟨_, _, _, _, _, hst, _⟩ := he.records_of_drained hsome hd
    rcases frontOf_stream hst ht with hnt | ⟨_, _, _, _, _, hre⟩
    · rw [hf] at hnt
      cases hnt
    · rw [hf] at hre
      cases hre
  | refuses hsome hd hf hop =>
    obtain ⟨rest, he⟩ := h.expects
    obtain ⟨p, next, ho, -⟩ := he.record ht hsome hd hf
    rw [hop] at ho
    cases ho
  | opens hsome hd hf hop _ ih =>
    obtain ⟨rest, he⟩ := h.expects
    obtain ⟨p, next, ho, he'⟩ := he.record ht hsome hd hf
    rw [hop] at ho
    cases ho
    exact ih (h.consume (Nat.add_pos_left (by decide) _) (length_record_le hf) rfl rfl rfl
      ⟨rest, he'⟩)

theorem readLog_meters
    (rooms : List Nat) : (receipts (eventsOf (readLog k r inner rooms))).map Prod.snd =
      spans (bounds lead records) s
        ((receipts (eventsOf (readLog k r inner rooms))).map Prod.fst) := by
  induction rooms generalizing r inner s with
  | nil => rfl
  | cons room rooms ih =>
    have hm : Meters k aead records tail lead s (pollRead k room r inner) := pollRead_meters ht h
    obtain ⟨hs, hg⟩ := hm
    have ha (a b : List ReadEvent) : receipts (a ++ b) = receipts a ++ receipts b :=
      filterMap_append
    rw [readLog, eventsOf_cons, ha, map_append, map_append, spans_append, hs, ih hg]

end

end Gauged

/-- A reader and a stream of valid records, behind the random number in 0-RTT, with so many bytes
before the first record. -/
inductive Streams (k : Keys) (aead : Aead) (records : List Record) (tail : Bytes) :
    ReadHalf → Bytes → Nat → Prop
  | matched (cache : Option ZeroRttCache) :
    Streams k aead records tail (.new (some aead) cache) (wireOf records ++ tail) 0
  | zeroRtt {random : Bytes} (cache : Option ZeroRttCache) : random.length = 16 →
    k.aead random = aead →
    Streams k aead records tail (.new none cache) (random ++ (wireOf records ++ tail)) 16

/-- On a stream of valid records `raw_buf` stays within a bound exactly if the pieces between two
that end where a record does are never more than that together. -/
theorem held_le_iff {aead : Aead} {records : List Record} {tail plain : Bytes} {lead : Nat}
    (hplain : openAll k aead records = some plain) (htail : Unfinished tail) (hflow : Flowing inner)
    (hstream : Streams k aead records tail r (contents inner) lead) (rooms : List Nat)
    (bound : Nat) : (∀ receipt ∈ receipts (eventsOf (readLog k r inner rooms)), receipt.2 ≤ bound) ↔
      ∀ span ∈ spans (bounds lead records) (0, 0)
        ((receipts (eventsOf (readLog k r inner rooms))).map Prod.fst), span ≤ bound := by
  have hgauged : Gauged k aead records tail lead r inner (0, 0) := by
    generalize hcontents : contents inner = stream at hstream
    cases hstream with
    | matched cache =>
      refine ⟨⟨plain, ?_⟩, ?_, nofun, fun _ => rfl, .inr rfl⟩
      · exact .underway (r := .new _ cache) hflow le_rfl (nil_append records) rfl hcontents hplain
      · simp [hcontents]
    | zeroRtt cache hrandom haead =>
      refine ⟨⟨plain, ?_⟩, ?_, fun _ => ⟨rfl, rfl⟩, fun _ => rfl, .inr rfl⟩
      · exact .early hflow le_rfl rfl rfl hrandom haead hcontents hplain
      · simp [hcontents, hrandom, add_assoc]
  rw [← hgauged.readLog_meters htail rooms, forall_mem_map]

def byteRecord : Record := ⟨[23, 3, 3, 0, 17], replicate 17 0, rfl, rfl⟩

def shifted : Bytes := [3, 3, 0, 17] ++ replicate 17 0 ++ [23]

theorem openRecord_byteRecord (h : aead.cipher = Crypto.Backend.clear.cipher 12 []) :
    openRecord clearKeys aead byteRecord.header byteRecord.body =
        (some [0], nextAead clearKeys aead byteRecord) ∧
      (nextAead clearKeys aead byteRecord).cipher = Crypto.Backend.clear.cipher 12 [] := by
  refine ⟨Prod.ext ?_ rfl, ?_⟩
  · change aead.cipher.decrypt _ _ _ = _
    rw [h]
    rfl
  simp only [nextAead, openRecord, Aead.openInPlace]
  split
  · rfl
  · exact h

theorem openAll_byteRecords (h : aead.cipher = Crypto.Backend.clear.cipher 12 []) (n : Nat) :
    openAll clearKeys aead (replicate n byteRecord) = some (replicate n 0) := by
  induction n generalizing aead with
  | zero => rfl
  | succ n ih =>
    obtain ⟨ho, hn⟩ := openRecord_byteRecord h
    exact openAll_cons.mpr ⟨[0], _, ho, ih hn, rfl⟩

theorem contents_shifted (n : Nat) : [23] ++ contents (replicate n (.piece shifted)) =
      wireOf (replicate n byteRecord) ++ [23] := by
  induction n with
  | zero => rfl
  | succ n ih =>
    have hf : [23] ++ shifted = byteRecord.bytes ++ [23] := by decide
    rw [replicate_succ, contents_piece, ← append_assoc, hf, append_assoc, ih,
      replicate_succ, wireOf_cons, append_assoc]

structure Behind (r : ReadHalf) : Prop where
  aead : ∃ aead, r.peerAead = some aead ∧ aead.cipher = Crypto.Backend.clear.cipher 12 []
  decrypted : r.decrypted = []
  decryptedPos : r.decryptedPos = 0
  cursor : r.rawPos ≤ r.rawBuf.length
  window : r.window = [23]

theorem Behind.next (h : Behind r) (inner : List Arrival) :
    ∃ r', Behind r' ∧ r'.rawBuf.length = r.rawBuf.length + 22 ∧
      pollRead clearKeys 1 r (.piece shifted :: inner) = ⟨.ready [0], r', inner,
        [.received shifted (r.rawBuf.length + 22), .opened [0], .delivered [0]]⟩ := by
  obtain ⟨aead, hsome, hc⟩ := h.aead
  obtain ⟨ho, hn⟩ := openRecord_byteRecord hc
  have hd : r.decrypted.length ≤ r.decryptedPos := by rw [h.decrypted]; exact Nat.zero_le _
  have hsome' : (r.extend shifted).peerAead = some aead := hsome
  have hd' : (r.extend shifted).decrypted.length ≤ (r.extend shifted).decryptedPos := hd
  have hw : (r.extend shifted).window = byteRecord.bytes ++ [23] := by
    rw [window_extend h.cursor, h.window]
    rfl
  have hl : (r.extend shifted).rawBuf.length = r.rawBuf.length + 22 := length_append
  have hcu : (r.extend shifted).rawPos + 23 = (r.extend shifted).rawBuf.length := by
    have := congrArg List.length h.window
    rw [ReadHalf.window, length_drop] at this
    have hp : (r.extend shifted).rawPos = r.rawPos := rfl
    simp only [length_singleton] at this
    omega
  have hf : frontOf (r.extend shifted).window = .record byteRecord.header byteRecord.body := by
    rw [hw, frontOf_bytes]
  have hco : ({ r.extend shifted with
      decrypted := [0], decryptedPos := 0,
      peerAead := some (nextAead clearKeys aead byteRecord) } : ReadHalf).consume 22 =
      { r.extend shifted with
        rawPos := (r.extend shifted).rawPos + 22, decrypted := [0], decryptedPos := 0,
        peerAead := some (nextAead clearKeys aead byteRecord) } :=
    if_neg (by dsimp only; omega)
  refine ⟨{ r.extend shifted with
      rawPos := (r.extend shifted).rawPos + 22, decrypted := [], decryptedPos := 0,
      peerAead := some (nextAead clearKeys aead byteRecord) },
    ⟨⟨_, rfl, hn⟩, rfl, rfl, ?_, ?_⟩, hl, ?_⟩
  · dsimp only
    omega
  · have hdr : (r.extend shifted).rawBuf.drop ((r.extend shifted).rawPos + 22) =
        (r.extend shifted).window.drop 22 := by
      rw [ReadHalf.window, drop_drop]
    change (r.extend shifted).rawBuf.drop _ = _
    rw [hdr, hw]
    rfl
  · rw [pollRead_receives hsome hd (by rw [h.window]; rfl) (by decide) (by decide), hl,
      pollRead_record hsome' hd' hf, ho]
    dsimp only
    rw [show TLS_RECORD_HEADER_LEN + byteRecord.body.length = 22 from rfl, hco,
      pollRead_delivers rfl one_pos]
    rfl

theorem Behind.grows (h : Behind r) (n : Nat) : ∃ receipt ∈ receipts (eventsOf (readLog clearKeys r
      (replicate (n + 1) (.piece shifted)) (replicate (n + 1) 1))), n < receipt.2 := by
  have hl : ∀ m, ∀ r, Behind r → ∃ receipt ∈ receipts (eventsOf (readLog clearKeys r
      (replicate (m + 1) (.piece shifted)) (replicate (m + 1) 1))),
      receipt.2 = r.rawBuf.length + 22 * (m + 1) := by
    intro m
    induction m with
    | zero =>
      intro r h
      obtain ⟨r', -, -, hp⟩ := h.next []
      refine ⟨(shifted, r.rawBuf.length + 22), ?_, rfl⟩
      rw [replicate_succ, replicate_succ, readLog]
      simp only [replicate_zero, hp]
      simp [receipts, eventsOf, readLog]
    | succ m ih =>
      intro r h
      obtain ⟨r', hb, hle, hp⟩ := h.next (replicate (m + 1) (.piece shifted))
      obtain ⟨receipt, hm, heq⟩ := ih r' hb
      refine ⟨receipt, ?_, by rw [heq, hle]; omega⟩
      rw [replicate_succ, replicate_succ (n := m + 1) (a := 1), readLog, hp]
      simp only [receipts, eventsOf, flatMap_cons, filterMap_append]
      exact mem_append_right _ hm
  obtain ⟨receipt, hm, heq⟩ := hl n r h
  exact ⟨receipt, hm, by omega⟩

/-- However large the bound, there is a stream of valid records, cut one byte behind each of them,
with which `raw_buf` exceeds it. -/
theorem rawBuf_unbounded : ¬ ∃ bound, ∀ records inner rooms plain,
    openAll clearKeys (clearKeys.aead []) records = some plain → Flowing inner →
      contents inner = wireOf records ++ [23] →
      ∀ receipt ∈ receipts (eventsOf (readLog clearKeys clearReader inner rooms)),
        receipt.2 ≤ bound := by
  rintro ⟨bound, hbound⟩
  have hfirst : pollRead clearKeys 1 clearReader
      (.piece [23] :: .pending :: replicate (bound + 1) (.piece shifted)) =
      ⟨.pending, clearReader.extend [23], replicate (bound + 1) (.piece shifted),
        [.received [23] 1, .waits]⟩ := by
    have hsome : (clearReader.extend [23]).peerAead = some (clearKeys.aead []) := rfl
    rw [pollRead_receives rfl (by decide) rfl (by decide) (by decide),
      pollRead_waits hsome (by decide) rfl]
    rfl
  have hbehind : Behind (clearReader.extend [23]) := ⟨⟨_, rfl, rfl⟩, rfl, rfl, by decide, rfl⟩
  obtain ⟨receipt, hmem, hlt⟩ := hbehind.grows bound
  refine absurd (hbound (replicate (bound + 1) byteRecord)
    (.piece [23] :: .pending :: replicate (bound + 1) (.piece shifted))
    (1 :: replicate (bound + 1) 1) _ (openAll_byteRecords rfl _) ⟨?_, ?_⟩
    (contents_shifted (bound + 1)) receipt ?_) (not_le.mpr hlt)
  · simp
  · simp [shifted]
  · rw [readLog, hfirst]
    simp only [receipts, eventsOf, flatMap_cons, filterMap_append]
    exact mem_append_right _ hmem

theorem held_le_iff_byteRecord : (∀ receipt ∈ receipts (eventsOf (readLog clearKeys clearReader
        [.piece byteRecord.bytes] [1, 1])), receipt.2 ≤ 22) ↔
      ∀ span ∈ spans (bounds 0 [byteRecord]) (0, 0) ((receipts (eventsOf (readLog clearKeys
        clearReader [.piece byteRecord.bytes] [1, 1]))).map Prod.fst), span ≤ 22 :=
  held_le_iff (openAll_byteRecords rfl 1) unfinished_nil ⟨by decide, by decide⟩ (.matched none)
    [1, 1] 22

end XrayCore.Vless.Encryption
