import XrayCore.Vless.CommonReading

/-!
# Writing the encrypted stream

A writer seals a segment and sends its record before it looks at more bytes, however often the inner
connection makes it wait. So the records on the wire carry the accepted bytes, with a part of one
more record at the end, and a reader on the other side returns them.
-/

namespace XrayCore.Vless.Encryption

open Lib WriteHalf List

structure Aead.Lawful (aead : Aead) : Prop where
  cipher : aead.cipher.Lawful
  tag : aead.cipher.tagSize = TAG_LEN

def Keys.Lawful (k : Keys) : Prop := ∀ context, (k.aead context).Lawful

variable {k : Keys} {aead : Aead}

variable {data : Bytes}

structure Sending where
  half : WriteHalf
  accepted : Bytes
  wire : Bytes

def writeCalls (k : Keys) : WriteHalf → List (Bytes × List Answer) → Sending
  | w, [] => ⟨w, [], []⟩
  | w, (buf, answers) :: calls =>
    let step := w.pollWrite k buf answers
    let next := writeCalls k step.half calls
    match step.result with
    | .failed _ => ⟨step.half, [], step.wire⟩
    | .pending => ⟨next.half, next.accepted, step.wire ++ next.wire⟩
    | .ready n => ⟨next.half, buf.take n ++ next.accepted, step.wire ++ next.wire⟩

def Resumes (k : Keys) : WriteHalf → Bytes → List (Bytes × List Answer) → Prop
  | _, _, [] => True
  | w, owed, (buf, answers) :: calls =>
    let step := w.pollWrite k buf answers
    owed <+: buf ∧ Resumes k step.half (if step.result = .pending then buf else []) calls

structure WriteHalf.Idle (w : WriteHalf) : Prop where
  pending : w.writePending = none
  closed : w.closed = false

structure WriteHalf.Busy (w : WriteHalf) (sent : Nat) : Prop where
  sent : sent < w.writeBuf.length
  preWrite : w.preWrite = none
  closed : w.closed = false

/-- The records on the wire behind `lead`, and what there is of the next one. -/
inductive OnWire (lead : Bytes) (records : List Record) (wire : Bytes) : Prop
  | leading : records = [] → wire <+: lead → wire.length < lead.length → OnWire lead records wire
  | records (tail : Bytes) : Unfinished tail → wire = lead ++ (wireOf records ++ tail) →
    OnWire lead records wire

def Sends (k : Keys) (lead : Bytes) (aead : Aead) (out : Sending) : Prop :=
  ∃ records : List Record, ∃ started : Option Record, openAll k aead records = some out.accepted ∧
      out.half.aead = aeadAfter k aead (records ++ started.toList) ∧ OnWire lead records out.wire

inductive Finishes (k : Keys) (aead : Aead) (left data : Bytes) (out : Sending) : Prop
  | stuck : out.accepted = [] → out.half.aead = aead → out.wire <+: left →
    out.wire.length < left.length → Finishes k aead left data out
  | passes (next : Sending) : Sends k [] aead next →
    out = ⟨next.half, data ++ next.accepted, left ++ next.wire⟩ → Finishes k aead left data out

theorem sendPending_cases (w : WriteHalf) (hse : sent < w.writeBuf.length)
    (n : Nat) (ans : List Answer) : let step := w.sendPending sent n ans
    let left := w.writeBuf.drop sent
    (step.result = .ready n ∧ step.half = { w with writePending := none } ∧ step.wire = left) ∨
    (∃ sent' < w.writeBuf.length, step.result = .pending ∧
      step.half = { w with writePending := some (sent', n) } ∧
      left = step.wire ++ w.writeBuf.drop sent') ∨
    ∃ e, step.result = .failed e ∧ step.half.aead = w.aead ∧ step.wire <+: left ∧
      step.wire.length < left.length := by
  have hs := push_suffix (w.writeBuf.drop sent) ans
  have hne : w.writeBuf.drop sent ≠ [] := by
    rw [Ne, drop_eq_nil_iff]
    omega
  unfold sendPending
  dsimp only
  rcases hp : push (w.writeBuf.drop sent) ans with ⟨left, p, u⟩
  rw [hp] at hs
  dsimp only at hs
  have hw := written_append hs
  have hsh (hl : left ≠ []) :
      (written (w.writeBuf.drop sent) left).length < (w.writeBuf.drop sent).length := by
    have hle := congrArg length hw
    have hpo := length_pos_iff.mpr hl
    rw [length_append] at hle
    omega
  cases p with
  | done =>
    obtain rfl := push_done hp
    exact .inl ⟨rfl, rfl, by simpa using hw⟩
  | pending =>
    have hl := push_left hp hne (nofun)
    have hpo := length_pos_iff.mpr hl
    have hb : w.writeBuf.drop (w.writeBuf.length - left.length) = left := by
      obtain ⟨f, hf⟩ := hs.trans (drop_suffix sent w.writeBuf)
      rw [← hf]
      simp
    refine .inr (.inl ⟨w.writeBuf.length - left.length, by omega, rfl, rfl, ?_⟩)
    rw [hb]
    exact hw.symm
  | zero =>
    exact .inr (.inr ⟨.writeZero, rfl, rfl, ⟨left, hw⟩, hsh (push_left hp hne (nofun))⟩)
  | failed =>
    exact .inr (.inr ⟨.inner, rfl, rfl, ⟨left, hw⟩, hsh (push_left hp hne (nofun))⟩)

variable {w : WriteHalf}

theorem writeCalls_cons (hs : w.pollWrite k buf answers = step) :
    writeCalls k w ((buf, answers) :: calls) = match step.result with
      | .failed _ => ⟨step.half, [], step.wire⟩
      | .pending => ⟨(writeCalls k step.half calls).half, (writeCalls k step.half calls).accepted,
          step.wire ++ (writeCalls k step.half calls).wire⟩
      | .ready n => ⟨(writeCalls k step.half calls).half,
          buf.take n ++ (writeCalls k step.half calls).accepted,
          step.wire ++ (writeCalls k step.half calls).wire⟩ := by
  rw [← hs]
  rfl

/-- What is known of a writer's calls: from a writer that is idle, and from one that has a part of
its buffer to send. -/
structure CallsSend (k : Keys) (calls : List (Bytes × List Answer)) : Prop where
  idle : ∀ w : WriteHalf, w.Idle → w.aead.Lawful → ∀ owed, Resumes k w owed calls →
    Sends k (w.preWrite.getD []) w.aead (writeCalls k w calls)
  busy : ∀ (w : WriteHalf) sent data, w.Busy sent → w.writePending = some (sent, data.length) →
    w.aead.Lawful → ∀ owed, data <+: owed → Resumes k w owed calls →
    Finishes k w.aead (w.writeBuf.drop sent) data (writeCalls k w calls)

theorem CallsSend.send {calls : List (Bytes × List Answer)} (h : CallsSend k calls)
    {w' : WriteHalf} {sent : Nat} {buf : Bytes} {ans : List Answer}
    (hw : w'.Busy sent) (ha : w'.aead.Lawful) (hdata : data <+: buf)
    (hpo : w.pollWrite k buf ans = w'.sendPending sent data.length ans)
    {owed : Bytes} (hc : Resumes k w owed ((buf, ans) :: calls)) :
    Finishes k w'.aead (w'.writeBuf.drop sent) data (writeCalls k w ((buf, ans) :: calls)) := by
  have hre := hc.2
  rw [hpo] at hre
  rw [writeCalls_cons hpo]
  rcases sendPending_cases w' hw.sent data.length ans with
    ⟨hr, hh, hwi⟩ | ⟨sent', hs', hr, hh, hl⟩ |
    ⟨e, hr, hh, hp, hs⟩
  · rw [hr, hh] at hre
    rw [hr, hh, hwi]
    have hi := h.idle { w' with writePending := none } ⟨rfl, hw.closed⟩ ha _ hre
    rw [hw.preWrite] at hi
    refine .passes _ hi ?_
    obtain ⟨more, rfl⟩ := hdata
    simp [hw.preWrite]
  · rw [hr, hh, if_pos rfl] at hre
    rw [hr, hh, hl]
    cases h.busy { w' with writePending := some (sent', data.length) } sent' data
      ⟨hs', hw.preWrite, hw.closed⟩ rfl ha buf hdata hre with
    | stuck hac ho hp hs =>
      refine .stuck hac ho ((prefix_append_right_inj _).mpr hp) ?_
      simpa using hs
    | passes next hn ho =>
      refine .passes next hn ?_
      simp [ho]
  · rw [hr]
    exact .stuck rfl hh hp hs

theorem Finishes.sends
    (ho : openRecord k aead record.header record.body = (some data, nextAead k aead record))
    (h : Finishes k (nextAead k aead record) (lead ++ record.bytes) data out) :
    Sends k lead aead out := by
  cases h with
  | stuck ha hou hp hs =>
    refine ⟨[], some record, by rw [ha]; rfl, hou, ?_⟩
    rcases lt_or_ge out.wire.length lead.length with hlt | hle
    · refine .leading rfl ?_ hlt
      exact prefix_of_prefix_length_le hp (prefix_append _ _) hlt.le
    obtain ⟨tail, ht⟩ : lead <+: out.wire := prefix_of_prefix_length_le (prefix_append _ _) hp hle
    rw [← ht] at hp hs
    rw [length_append, length_append, add_lt_add_iff_left] at hs
    refine .records tail ?_ ht.symm
    exact unfinished_of_length_lt ((prefix_append_right_inj _).mp hp) hs
  | passes next hn hou =>
    obtain ⟨records, s, hpl, hae, hw⟩ := hn
    subst hou
    refine ⟨record :: records, s, ?_, hae, ?_⟩
    · exact openAll_cons.mpr ⟨data, next.accepted, ho, hpl, rfl⟩
    cases hw with
    | leading _ _ hlt => cases hlt
    | records tail ht heq =>
      refine .records tail ht ?_
      rw [heq]
      simp

/-- A writer and the reader at the other end: both have the AEAD, or the writer begins with the
random number from which the reader derives it. -/
inductive Link (k : Keys) : WriteHalf → ReadHalf → Prop
  | matched {aead : Aead} (cache : Option ZeroRttCache) : aead.Lawful →
    Link k (.new aead none) (.new (some aead) cache)
  | zeroRtt {random : Bytes} (cache : Option ZeroRttCache) : random.length = 16 →
    Link k (.new (k.aead random) (some random)) (.new none cache)

variable {records : List Record}

theorem openAll_of_part (hp : openAll k aead records = some accepted) (ht : Unfinished tl)
    (hpa : part <+: wireOf records ++ tl) :
    ∃ front tl' rest, front <+: records ∧ part = wireOf front ++ tl' ∧ Unfinished tl' ∧
      openAll k aead front = some rest ∧ rest <+: accepted ∧
      (part = wireOf records ++ tl → rest = accepted) := by
  by_cases hall : part = wireOf records ++ tl
  · exact ⟨records, tl, accepted, prefix_rfl, hall, ht, hp, prefix_rfl, fun _ => rfl⟩
  obtain ⟨n, tl', hp', ht'⟩ := records_of_part hpa ht
  rw [← take_append_drop n records] at hp
  obtain ⟨rest, more, hrest, -, rfl⟩ := openAll_append.mp hp
  exact ⟨records.take n, tl', rest, take_prefix _ _, hp', ht', hrest,
    prefix_append _ _, fun h => absurd h hall⟩

theorem Link.expects (hl : Link k w r) (hw : OnWire (w.preWrite.getD []) records wire)
    (hpl : openAll k w.aead records = some accepted)
    (hf : Flowing inn) (hp : contents inn <+: wire) :
    ∃ front tail rest, front <+: records ∧ Unfinished tail ∧
      openAll k w.aead front = some rest ∧ Expects k w.aead front tail (r, inn) rest ∧
      rest <+: accepted ∧ (contents inn = wire → rest = accepted) := by
  cases hl with
  | matched c ha =>
    cases hw with
    | leading _ _ hlt => cases hlt
    | records tail ht heq =>
      subst heq
      obtain ⟨front, tail', rest, hfr, hc, ht', hrest, hle, hall⟩ := openAll_of_part hpl ht hp
      refine ⟨front, tail', rest, hfr, ht', hrest, ?_, hle, hall⟩
      exact .underway (r := .new _ c) hf le_rfl (nil_append front) rfl hc hrest
  | @zeroRtt ra c hr =>
    have hs (hlt : (contents inn).length < 16) :
        Expects k (k.aead ra) [] [] (.new none c, inn) [] :=
      .short hf le_rfl rfl rfl hlt rfl
    cases hw with
    | leading hn hla hlt =>
      subst hn
      obtain rfl : [] = accepted := Option.some.inj hpl
      have hlt' := lt_of_le_of_lt hp.length_le (hlt.trans_eq hr)
      exact ⟨[], [], [], nil_prefix, unfinished_nil, rfl, hs hlt', nil_prefix, fun _ => rfl⟩
    | records tail ht heq =>
      subst heq
      change contents inn <+: ra ++ (wireOf records ++ tail) at hp
      rcases lt_or_ge (contents inn).length 16 with hlt | hle
      · refine ⟨[], [], [], nil_prefix, unfinished_nil, rfl, hs hlt, nil_prefix, fun hall => ?_⟩
        have hln : (contents inn).length = ra.length + (wireOf records ++ tail).length := by
          rw [hall]
          exact length_append
        omega
      · obtain ⟨part, hc⟩ : ra <+: contents inn :=
          prefix_of_prefix_length_le (prefix_append _ _) hp (hr.trans_le hle)
        rw [← hc, prefix_append_right_inj] at hp
        obtain ⟨front, tail', rest, hfr, rfl, ht', hrest, hle', hall⟩ := openAll_of_part hpl ht hp
        refine ⟨front, tail', rest, hfr, ht', hrest, ?_, hle', fun heq => hall ?_⟩
        · exact .early hf le_rfl rfl rfl hr rfl hc.symm hrest
        · rw [← hc] at heq
          exact append_cancel_left heq

theorem Expects.opened (h : Expects k aead records tl (r, inn) rest')
    (hp : openAll k aead records = some rest) (hrest : rest = bytes ++ rest') :
    r.peerAead = none ∧ bytes = [] ∨ ∃ front, front <+: records ∧
      r.peerAead = some (aeadAfter k aead front) ∧
      openAll k aead front = some (bytes ++ r.decrypted.drop r.decryptedPos) := by
  cases h with
  | @underway _ _ front todo plain _ _ hr ha _ ht =>
    subst hr
    refine .inr ⟨front, prefix_append _ _, ha, ?_⟩
    obtain ⟨opened, more, ho, hmore, heq⟩ := openAll_append.mp hp
    rw [ht, Option.some.injEq] at hmore
    subst hmore
    rw [hrest, ← append_assoc, append_cancel_right_eq] at heq
    rw [heq, ho]
  | early _ _ hn _ _ _ _ hall =>
    refine .inl ⟨hn, ?_⟩
    rw [hp, Option.some.injEq, hrest] at hall
    exact append_left_eq_self.mp hall
  | short _ _ hn _ _ hni =>
    subst hni
    obtain rfl : [] = rest := Option.some.inj hp
    exact .inl ⟨hn, (append_eq_nil_iff.mp hrest.symm).1⟩

def clearKeys : Keys := ⟨fun _ _ _ => Crypto.Backend.clear.cipher 12 [], [], false⟩

/-- A server's first segment after 0-RTT, which goes out in two calls. -/
def zeroRttWriter : WriteHalf :=
  .new (clearKeys.aead (replicate 16 7)) (some (replicate 16 7))

def inTwoCalls : List (Bytes × List Answer) :=
  [([97, 98, 99], [.ready 5, .pending]), ([97, 98, 99], [.ready 100])]

end XrayCore.Vless.Encryption
