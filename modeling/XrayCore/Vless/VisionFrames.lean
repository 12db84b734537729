import XrayCore.Vless.VisionConn

/-!
# The frames of a Vision connection

A batch of slices is cut into blocks before any of them is accepted. The blocks wait in a queue;
each call of the writer works on the first one. Only the last block of a batch can end padding mode,
and it does so when it is written out and the inner connection is flushed.
-/

namespace XrayCore.Vless.Vision

open Lib VisionConn List

theorem totalLen_eq (bufs : List Bytes) : totalLen bufs = bufs.flatten.length := by
  rw [totalLen, length_flatten]

theorem span_skip {slice rest : Bytes} {lo hi : Nat} (hlo : slice.length ≤ lo)
    (hhi : slice.length ≤ hi) : ((slice ++ rest).take hi).drop lo =
      (rest.take (hi - slice.length)).drop (lo - slice.length) := by
  rw [take_append, take_of_length_le hhi, drop_append, drop_of_length_le hlo, nil_append]

variable {stop : Nat} {bufs : List Bytes}

theorem locateFrom_some {off pos : Nat} {span : Bytes}
    (h : locateFrom off stop pos bufs = some span) :
    pos ≤ off ∧ span = (bufs.flatten.take (stop - pos)).drop (off - pos) := by
  induction bufs generalizing pos with
  | nil => cases h
  | cons s bufs ih =>
    rw [locateFrom] at h
    rw [flatten_cons]
    by_cases hstop : stop ≤ pos + s.length
    · rw [if_pos hstop] at h
      obtain ⟨hp, hs⟩ := Option.ite_none_right_eq_some.mp h
      rw [take_append_of_le_length (by omega)]
      exact ⟨hp, (Option.some.inj hs).symm⟩
    · rw [if_neg hstop] at h
      obtain ⟨hp, rfl⟩ := ih h
      refine ⟨by omega, ?_⟩
      rw [span_skip (by omega) (by omega), Nat.sub_sub, Nat.sub_sub]

theorem copyFrom_eq {start : Nat} (h : start ≤ stop) (pos : Nat) (bufs : List Bytes) :
    copyFrom start stop pos bufs = (bufs.flatten.take (stop - pos)).drop (start - pos) := by
  induction bufs generalizing pos with
  | nil => simp [copyFrom]
  | cons s bufs ih =>
    rw [copyFrom, flatten_cons, ih]
    dsimp only
    by_cases hbe : pos + s.length ≤ start
    · rw [if_pos hbe, span_skip (by omega) (by omega), Nat.sub_sub, Nat.sub_sub]
    rw [if_neg hbe, take_append, drop_append]
    by_cases hb : stop ≤ pos
    · rw [if_pos hb, Nat.sub_eq_zero_of_le hb]
      simp
    have hlo : max start pos - pos = start - pos := by omega
    have ht : s.take (min stop (pos + s.length) - pos) = s.take (stop - pos) := by
      rw [take_eq_take_iff]
      omega
    have hrest : start - pos - (s.take (stop - pos)).length = 0 := by
      rw [length_take]
      omega
    have hn : start - (pos + s.length) = 0 := by omega
    rw [if_neg hb, hlo, ht, hrest, hn, Nat.sub_sub]

theorem span_eq (h : off ≤ stop) (bufs : List Bytes) :
    (locateIoSliceSpan bufs off stop).getD (copyIoSliceSpan bufs off stop) =
      (bufs.flatten.take stop).drop off := by
  cases hl : locateIoSliceSpan bufs off stop with
  | none => exact copyFrom_eq h 0 bufs
  | some span => exact (locateFrom_some hl).2

structure Sent where
  lead : Bytes
  command : UInt8
  content : Bytes
  padding : Nat
  known : command = COMMAND_PADDING_CONTINUE ∨ command = COMMAND_PADDING_END ∨
    command = COMMAND_PADDING_DIRECT
  content_le : content.length ≤ 65535
  padding_le : padding ≤ 65535

namespace Sent

def bytes (b : Sent) : Bytes := b.lead ++ block b.command b.content b.padding

def wire (blocks : List Sent) : Bytes := blocks.flatMap bytes

def contents (blocks : List Sent) : Bytes := blocks.flatMap content

def OneSwitch (blocks : List Sent) : Prop :=
  blocks.Pairwise fun b _ => b.command = COMMAND_PADDING_CONTINUE

inductive Led : Option Bytes → List Sent → Option Bytes → Prop
  | nil (uuid : Option Bytes) : Led uuid [] uuid
  | cons {uuid uuid' : Option Bytes} {b : Sent} {blocks : List Sent} :
    b.lead = uuid.getD [] → Led none blocks uuid' → Led uuid (b :: blocks) uuid'

theorem Led.append (h : Led uuid blocks uuid') (h' : Led uuid' blocks' uuid'') :
    Led uuid (blocks ++ blocks') uuid'' := by
  induction h with
  | nil => exact h'
  | cons hl _ ih => exact .cons hl (ih h')

end Sent

structure UpFrame.Carries (frame : UpFrame) (b : Sent) : Prop where
  padded : frame.padded = b.bytes
  origLen : frame.origLen = b.content.length
  gate : frame.gate = gateOf b.command

theorem gateOf_eq_none {b : Sent} :
    gateOf b.command = .none ↔ b.command = COMMAND_PADDING_CONTINUE := by
  rcases b.known with h | h | h <;> rw [h] <;> decide

theorem gateOf_eq_directArm : gateOf command = .directArm ↔ command = COMMAND_PADDING_DIRECT := by
  unfold gateOf
  split <;> simp_all
  split <;> simp

section FrameLoop

variable {seed : Fin 4 → UInt32} {bufs : List Bytes} {batch : Batch} {draw : Nat → Nat}
  {uuid uuid' : Option Bytes} {k off : Nat} {frames : List UpFrame}

section

variable
  (hk : batch.command = COMMAND_PADDING_CONTINUE ∨ batch.command = COMMAND_PADDING_END ∨ batch.command = COMMAND_PADDING_DIRECT)

include hk

theorem frameLoop_round (ho : off < totalLen bufs)
    (h : frameLoop seed bufs batch draw uuid k off = some (frames, uuid')) :
    ∃ frame rest b stop, frames = frame :: rest ∧ frame.Carries b ∧ frame.sent = 0 ∧
      b.lead = uuid.getD [] ∧ off < stop ∧ stop ≤ totalLen bufs ∧
      b.content = (bufs.flatten.take stop).drop off ∧
      b.command = (if stop = totalLen bufs then batch.command else COMMAND_PADDING_CONTINUE) ∧
      frameLoop seed bufs batch draw none (k + 1) stop = some (rest, uuid') := by
  rw [frameLoop, if_pos ho] at h
  have hstop : off < min (off + MAX_PADDING_CONTENT) (totalLen bufs) := by
    unfold MAX_PADDING_CONTENT
    omega
  obtain ⟨⟨pa, a⟩, hp, h⟩ := Option.bind_eq_some_iff.mp h
  obtain ⟨⟨rest, last⟩, hrest, h⟩ := Option.bind_eq_some_iff.mp h
  cases h
  rw [span_eq hstop.le] at hp
  generalize hs : min (off + MAX_PADDING_CONTENT) (totalLen bufs) = stop at *
  have hl : ((bufs.flatten.take stop).drop off).length = stop - off := by
    rw [length_drop, length_take, ← totalLen_eq]
    omega
  have hle : ((bufs.flatten.take stop).drop off).length ≤ 65535 := by
    unfold MAX_PADDING_CONTENT at hs
    omega
  obtain ⟨p, hpa, heq⟩ := xtlsPadding_eq (by exact hle) hp
  cases heq
  refine ⟨_, rest, ⟨uuid.getD [], _, _, p, ?_, hle, hpa⟩, stop, rfl,
    ⟨rfl, hl.symm, rfl⟩, rfl, rfl, hstop, by omega, rfl, rfl, hrest⟩
  split
  · exact hk
  · exact .inl rfl

theorem frameLoop_blocks (ho : off ≤ totalLen bufs)
    (h : frameLoop seed bufs batch draw uuid k off = some (frames, uuid')) :
    ∃ bls, List.Forall₂ UpFrame.Carries frames bls ∧ (∀ frame ∈ frames, frame.sent = 0) ∧
      Sent.Led uuid bls uuid' ∧ Sent.contents bls = bufs.flatten.drop off ∧ Sent.OneSwitch bls ∧
      ∀ b ∈ bls, b.command = COMMAND_PADDING_CONTINUE ∨ b.command = batch.command := by
  induction hlf : totalLen bufs - off using Nat.strong_induction_on
    generalizing uuid k off frames with
  | _ left ih =>
  by_cases hless : off < totalLen bufs
  · obtain ⟨frame, rest, b, stop, rfl, hca, hs, hl, hlt, hle, hco, hc,
      hrest⟩ := frameLoop_round hk hless h
    obtain ⟨bls, hb, hall, hld, hcn, hsw, hcm⟩ := ih _ (by omega) hle hrest rfl
    refine ⟨b :: bls, .cons hca hb, forall_mem_cons.mpr ⟨hs, hall⟩,
      .cons hl hld, ?_, pairwise_cons.mpr ⟨?_, hsw⟩,
      forall_mem_cons.mpr ⟨?_, hcm⟩⟩
    · rw [Sent.contents, flatMap_cons, hco, ← Sent.contents, hcn,
        ← drop_append_of_le_length, take_append_drop]
      rw [length_take, ← totalLen_eq]
      omega
    · intro b' hb'
      -- A block behind this one means that the batch does not end here.
      have hn : stop ≠ totalLen bufs := by
        rintro rfl
        rw [frameLoop, if_neg (lt_irrefl _)] at hrest
        cases hrest
        cases hb
        cases hb'
      rw [hc, if_neg hn]
    · rw [hc]
      split
      · exact .inr rfl
      · exact .inl rfl
  · rw [frameLoop, if_neg hless] at h
    cases h
    refine ⟨[], .nil, by simp, .nil _, ?_, .nil, by simp⟩
    rw [drop_of_length_le (by rw [← totalLen_eq]; omega)]
    rfl

end

end FrameLoop

theorem judge_conn (conn : VisionConn) (bufs : List Bytes) :
    ∃ traffic, (conn.judge bufs).1 = { conn with uplinkTraffic := traffic } := by
  unfold judge
  split
  · exact ⟨_, rfl⟩
  · exact ⟨conn.uplinkTraffic, rfl⟩

theorem command_known (direct done : Prop) [Decidable direct] [Decidable done] :
    let command := if direct then COMMAND_PADDING_DIRECT
      else if done then COMMAND_PADDING_END else COMMAND_PADDING_CONTINUE
    command = COMMAND_PADDING_CONTINUE ∨ command = COMMAND_PADDING_END ∨
      command = COMMAND_PADDING_DIRECT := by
  by_cases hd : direct <;> by_cases hdo : done <;> simp [hd, hdo]

theorem judge_command (conn : VisionConn) (bufs : List Bytes) :
    (conn.judge bufs).2.command = COMMAND_PADDING_CONTINUE ∨
      (conn.judge bufs).2.command = COMMAND_PADDING_END ∨
      (conn.judge bufs).2.command = COMMAND_PADDING_DIRECT :=
  command_known _ _

variable {conn conn' : VisionConn}

theorem frameBatch_some (h : conn.frameBatch bufs draw = some conn') :
    ∃ traffic uuid fs armed commit bls, conn' = { conn with
        uplinkTraffic := traffic, uplinkUuidPending := uuid
        uplinkPending := conn.uplinkPending ++ fs
        spliceArmed := conn.spliceArmed || armed, endCommit := commit } ∧
      List.Forall₂ UpFrame.Carries fs bls ∧ (∀ frame ∈ fs, frame.sent = 0) ∧
      Sent.Led conn.uplinkUuidPending bls uuid ∧ Sent.contents bls = bufs.flatten ∧
      Sent.OneSwitch bls ∧ ∀ b ∈ bls, b.command = COMMAND_PADDING_DIRECT → armed = true := by
  obtain ⟨traffic, hc⟩ := judge_conn conn bufs
  have hk := judge_command conn bufs
  unfold frameBatch at h
  generalize conn.judge bufs = judged at h hc hk
  obtain ⟨jc, ba⟩ := judged
  subst hc
  obtain ⟨⟨fs, uuid⟩, hl, h⟩ := Option.bind_eq_some_iff.mp h
  obtain ⟨bls, hca, hs, hle, hco, hsw, hcm⟩ := frameLoop_blocks hk (Nat.zero_le _) hl
  refine ⟨traffic, uuid, fs, ba.command = COMMAND_PADDING_DIRECT,
    conn.endCommit || ba.command = COMMAND_PADDING_END, bls, (Option.some.inj h).symm,
    hca, hs, hle, hco, hsw, fun b hb hd => ?_⟩
  rcases hcm b hb with hcn | hba
  · rw [hcn] at hd
    cases hd
  · rw [← hba, hd]
    decide

def leave (conn : VisionConn) (command : UInt8) : VisionConn :=
  if command = COMMAND_PADDING_DIRECT then
    armRaw { conn with spliceArmed := false, uplinkPadding := false, rawWriteGate := true }
  else { conn with uplinkPadding := false, endCommit := false }

def Framing (events : List Event) (bytes : Bytes) : Prop :=
  events = [.framed bytes] ∨ events = [] ∧ bytes = []

/-- What a call can do with the first frame: it is not done yet, or only its gate is not; it is
done, and the mode stays; it is done, and ends the mode. -/
inductive Front (conn : VisionConn) (frame : UpFrame) (frames : List UpFrame) : WriteStep → Prop
  | waits {bytes : Bytes} {sent : Nat} {result : Poll Nat} {pushes gate : List Event} :
    frame.padded.take frame.sent ++ bytes = frame.padded.take sent → Framing pushes bytes →
    gate = [] ∨ gate = [.gate false] → (∀ n, result ≠ .ready n) →
    Front conn frame frames ⟨result,
      { conn with uplinkPending := { frame with sent := sent } :: frames }, pushes ++ gate⟩
  | passes {bytes : Bytes} {pushes : List Event} :
    frame.padded.take frame.sent ++ bytes = frame.padded → Framing pushes bytes →
    frame.gate = .none →
    Front conn frame frames ⟨.ready frame.origLen, { conn with uplinkPending := frames }, pushes⟩
  | leaves {bytes : Bytes} {pushes : List Event} {command : UInt8} :
    frame.padded.take frame.sent ++ bytes = frame.padded → Framing pushes bytes →
    command = COMMAND_PADDING_END ∨ command = COMMAND_PADDING_DIRECT →
    frame.gate = gateOf command →
    Front conn frame frames ⟨.ready frame.origLen,
      { leave conn command with uplinkPending := frames },
      pushes ++ [.gate true, .writeLeft command]⟩

@[simp] theorem leave_uplinkPadding (conn : VisionConn) (cmd : UInt8) :
    (leave conn cmd).uplinkPadding = false := by
  unfold leave armRaw
  split
  · split <;> rfl
  · rfl

@[simp] theorem leave_uplinkUuidPending (conn : VisionConn) (cmd : UInt8) :
    (leave conn cmd).uplinkUuidPending = conn.uplinkUuidPending := by
  unfold leave armRaw
  split
  · split <;> rfl
  · rfl

theorem leave_queue (conn : VisionConn) (queue : List UpFrame) (cmd : UInt8) :
    leave { conn with uplinkPending := queue } cmd =
      { leave conn cmd with uplinkPending := queue } := by
  unfold leave armRaw
  split
  · split <;> rfl
  · rfl

variable {frame : UpFrame} {frames : List UpFrame}

theorem passGate_front (hb : frame.padded.take frame.sent ++ bytes = frame.padded)
    (hs : frame.padded.length ≤ sent) (hp : Framing pushes bytes)
    (hc : cmd = COMMAND_PADDING_END ∨ cmd = COMMAND_PADDING_DIRECT)
    (hg : frame.gate = gateOf cmd) (ans : List Answer)
    (hco : commit { conn with uplinkPending := { frame with sent := sent } :: frames } =
      ({ leave conn cmd with uplinkPending := { frame with sent := sent } :: frames },
        [.writeLeft cmd])) :
    Front conn frame frames
      (let step := passGate { conn with uplinkPending := { frame with sent := sent } :: frames }
        frame.origLen ans commit
      { step with events := pushes ++ step.events }) := by
  have ht : frame.padded.take frame.sent ++ bytes = frame.padded.take sent := by
    rw [hb, take_of_length_le hs]
  unfold passGate
  cases ans with
  | nil => exact .waits ht hp (.inr rfl) (by rintro n ⟨⟩)
  | cons a ans =>
    cases a with
    | pending | failed => exact .waits ht hp (.inr rfl) (by rintro n ⟨⟩)
    | ready n =>
      rw [hco]
      exact .leaves hb hp hc hg

theorem commitEnd_leave (conn : VisionConn) (queue : List UpFrame) :
    commitEnd { conn with uplinkPending := queue } =
      ({ leave conn COMMAND_PADDING_END with uplinkPending := queue },
        [.writeLeft COMMAND_PADDING_END]) := by
  rfl

theorem armSpliceRaw_leave (ha : conn.spliceArmed = true) (queue : List UpFrame) :
    armSpliceRaw { conn with uplinkPending := queue } =
      ({ leave conn COMMAND_PADDING_DIRECT with uplinkPending := queue },
        [.writeLeft COMMAND_PADDING_DIRECT]) := by
  rw [← leave_queue, armSpliceRaw, if_pos ha, leave, if_pos rfl]

theorem finishFrame_front (fs : List UpFrame)
    (hb : frame.padded.take frame.sent ++ bytes = frame.padded)
    (hs : frame.padded.length ≤ sent) (hp : Framing pushes bytes)
    (ha : frame.gate = .directArm → conn.spliceArmed = true) (ans : List Answer) :
    Front conn frame fs
      (let step := finishFrame { conn with uplinkPending := { frame with sent := sent } :: fs }
        { frame with sent := sent } ans
      { step with events := pushes ++ step.events }) := by
  obtain ⟨padded, a, ol, gate⟩ := frame
  cases gate with
  | none =>
    rw [finishFrame]
    dsimp only
    rw [append_nil]
    exact .passes hb hp rfl
  | directArm =>
    rw [finishFrame]
    dsimp only
    rw [if_pos (ha rfl)]
    exact passGate_front hb hs hp (.inr rfl) rfl ans (armSpliceRaw_leave (ha rfl) _)
  | endCommit =>
    exact passGate_front hb hs hp (.inl rfl) rfl ans (commitEnd_leave conn _)

theorem writeFront_front (hq : conn.uplinkPending = frame :: frames)
    (ha : frame.gate = .directArm → conn.spliceArmed = true) (ans : List Answer) :
    Front conn frame frames (writeFront conn frame frames ans) := by
  unfold writeFront
  by_cases hs : frame.sent < frame.padded.length
  · rw [if_pos hs]
    have hsu := push_suffix (frame.padded.drop frame.sent) ans
    cases hp : push (frame.padded.drop frame.sent) ans with
    | mk left rest =>
    obtain ⟨p, a'⟩ := rest
    rw [hp] at hsu
    have hb : frame.padded.take frame.sent ++ written (frame.padded.drop frame.sent) left =
        frame.padded.take (frame.padded.length - left.length) := by
      have hle : left.length ≤ frame.padded.length - frame.sent := by
        rw [← length_drop]
        exact hsu.length_le
      rw [written, length_drop, ← take_add]
      congr 1
      omega
    dsimp only
    rw [hp]
    cases p with
    | done =>
      obtain rfl := push_done hp
      rw [length_nil, Nat.sub_zero, take_length] at hb
      exact finishFrame_front frames hb le_rfl (.inl rfl) ha a'
    | pending | zero | failed => exact .waits hb (.inl rfl) (.inl rfl) (by rintro n ⟨⟩)
  · rw [if_neg hs]
    have hsa :
        { conn with uplinkPending := { frame with sent := frame.sent } :: frames } = conn := by
      rw [← hq]
    have hb : frame.padded.take frame.sent ++ [] = frame.padded := by
      rw [append_nil, take_of_length_le (by omega)]
    have h := finishFrame_front frames hb (not_lt.mp hs) (.inr ⟨rfl, rfl⟩) ha ans
    rw [hsa] at h
    exact h

/-- What a call of the writer does: it works on the queue, passes bytes on outside padding mode, has
nothing to do, or cuts a batch and works on the queue. -/
inductive Writes (conn : VisionConn) (bufs : List Bytes) (answers : List Answer)
    (draw : Nat → Nat) : WriteStep → Prop
  | queue {frame : UpFrame} {frames : List UpFrame} : conn.uplinkPending = frame :: frames →
    Writes conn bufs answers draw (writeFront conn frame frames answers)
  | plain : conn.uplinkPending = [] → conn.uplinkPadding = false →
    Writes conn bufs answers draw (writePlain conn bufs answers)
  | nothing : conn.uplinkPending = [] → conn.uplinkPadding = true → bufs.flatten = [] →
    Writes conn bufs answers draw ⟨.ready 0, conn, []⟩
  | batch {conn' : VisionConn} {frame : UpFrame} {frames : List UpFrame} :
    conn.uplinkPending = [] → conn.uplinkPadding = true → conn.frameBatch bufs draw = some conn' →
    conn'.uplinkPending = frame :: frames →
    Writes conn bufs answers draw (writeFront conn' frame frames answers)

theorem pollWriteVectored_writes (h : conn.pollWriteVectored bufs answers draw = some step) :
    Writes conn bufs answers draw step := by
  unfold pollWriteVectored at h
  cases hq : conn.uplinkPending with
  | cons fr f =>
    rw [hq] at h
    cases h
    exact .queue hq
  | nil =>
    rw [hq] at h
    by_cases hp : conn.uplinkPadding = false
    · rw [if_pos hp] at h
      cases h
      exact .plain hq hp
    rw [if_neg hp] at h
    rw [Bool.not_eq_false] at hp
    by_cases ht : totalLen bufs = 0
    · rw [if_pos ht] at h
      cases h
      rw [totalLen_eq, length_eq_zero_iff] at ht
      exact .nothing hq hp ht
    · rw [if_neg ht] at h
      obtain ⟨conn', hb, h⟩ := Option.bind_eq_some_iff.mp h
      cases hq' : conn'.uplinkPending with
      | nil =>
        rw [hq'] at h
        cases h
      | cons fr f =>
        rw [hq'] at h
        cases h
        exact .batch hq hp hb hq'

theorem writeChannel_cases (conn : VisionConn) (ch : Channel) (bufs : List Bytes)
    (ans : List Answer) :
    (writeChannel conn ch bufs ans).conn = conn ∧ ((writeChannel conn ch bufs ans).events = [] ∧
          (writeChannel conn ch bufs ans).accepted = 0 ∨
        ∃ n, (writeChannel conn ch bufs ans).events = [.plain ch (bufs.flatten.take n)] ∧
          (writeChannel conn ch bufs ans).accepted = (bufs.flatten.take n).length) := by
  cases ans with
  | nil => exact ⟨rfl, .inl ⟨rfl, rfl⟩⟩
  | cons a ans =>
    cases a with
    | pending | failed => exact ⟨rfl, .inl ⟨rfl, rfl⟩⟩
    | ready n => exact ⟨rfl, .inr ⟨n, rfl, rfl⟩⟩

theorem writePlain_cases (conn : VisionConn) (bufs : List Bytes) (ans : List Answer) :
    (∃ gate, (writePlain conn bufs ans).conn = { conn with rawWriteGate := gate }) ∧
      ((writePlain conn bufs ans).events = [] ∧ (writePlain conn bufs ans).accepted = 0 ∨
        ∃ n, (writePlain conn bufs ans).events = [.plain conn.plainChannel (bufs.flatten.take n)] ∧
          (writePlain conn bufs ans).accepted = (bufs.flatten.take n).length) := by
  unfold writePlain
  cases hch : conn.plainChannel with
  | inner =>
    obtain ⟨hc, he⟩ := writeChannel_cases conn .inner bufs ans
    exact ⟨⟨conn.rawWriteGate, hc⟩, he⟩
  | raw =>
    by_cases hg : conn.rawWriteGate = true
    · rw [if_pos hg]
      cases ans with
      | nil => exact ⟨⟨conn.rawWriteGate, rfl⟩, .inl ⟨rfl, rfl⟩⟩
      | cons a ans =>
        cases a with
        | pending | failed => exact ⟨⟨conn.rawWriteGate, rfl⟩, .inl ⟨rfl, rfl⟩⟩
        | ready n =>
          obtain ⟨hc, he⟩ := writeChannel_cases { conn with rawWriteGate := false } .raw bufs ans
          exact ⟨⟨false, hc⟩, he⟩
    · rw [if_neg hg]
      obtain ⟨hc, he⟩ := writeChannel_cases conn .raw bufs ans
      exact ⟨⟨conn.rawWriteGate, hc⟩, he⟩

/-- Only the last frame has a gate; a splice is armed before it; what is queued is written before
the mode changes. -/
structure QueueOk (conn : VisionConn) : Prop where
  last : conn.uplinkPending.Pairwise fun frame _ => frame.gate = .none
  armed : ∀ frame ∈ conn.uplinkPending, frame.gate = .directArm → conn.spliceArmed = true
  padding : conn.uplinkPending ≠ [] → conn.uplinkPadding = true

theorem exists_carried (h : List.Forall₂ UpFrame.Carries frames blocks) (hf : frame ∈ frames) :
    ∃ b ∈ blocks, frame.Carries b := by
  induction h with
  | nil => cases hf
  | cons hc hrest ih =>
    rcases mem_cons.mp hf with rfl | hf
    · exact ⟨_, mem_cons_self, hc⟩
    · obtain ⟨b, hb, hca⟩ := ih hf
      exact ⟨b, mem_cons_of_mem _ hb, hca⟩

theorem gates_of_carries
    (h : List.Forall₂ UpFrame.Carries frames blocks) (hs : Sent.OneSwitch blocks) :
    frames.Pairwise fun frame _ => frame.gate = .none := by
  induction h with
  | nil => exact .nil
  | cons hc hrest ih =>
    obtain ⟨hf, hs⟩ := pairwise_cons.mp hs
    refine pairwise_cons.mpr ⟨fun f' hf' => ?_, ih hs⟩
    obtain ⟨b', hb', -⟩ := exists_carried hrest hf'
    rw [hc.gate, gateOf_eq_none]
    exact hf b' hb'

namespace QueueOk

variable {conn conn' : VisionConn} {frame : UpFrame} {frames : List UpFrame}

theorem front_armed (h : QueueOk conn) (hq : conn.uplinkPending = frame :: frames)
    (hg : frame.gate = .directArm) : conn.spliceArmed = true :=
  h.armed frame (by rw [hq]; exact mem_cons_self) hg

theorem front_last (h : QueueOk conn) (hq : conn.uplinkPending = frame :: frames)
    (hg : frame.gate ≠ .none) : frames = [] := by
  have hl := h.last
  rw [hq, pairwise_cons] at hl
  exact eq_nil_iff_forall_not_mem.mpr fun f' hf' => hg (hl.1 f' hf')

theorem of_nil (h : conn.uplinkPending = []) : QueueOk conn := by
  refine ⟨?_, ?_, ?_⟩ <;> simp [h]

theorem batch (hq : conn.uplinkPending = []) (hp : conn.uplinkPadding = true)
    (hba : conn.frameBatch bufs draw = some conn') : QueueOk conn' := by
  obtain ⟨t, uuid, f, a, c, bl, rfl, hc, -, -, -, hs, hd⟩ := frameBatch_some hba
  refine ⟨?_, ?_, fun _ => hp⟩
  · rw [hq, nil_append]
    exact gates_of_carries hc hs
  rw [hq, nil_append]
  intro fr hf hg
  obtain ⟨b, hb, hca⟩ := exists_carried hc hf
  rw [hca.gate, gateOf_eq_directArm] at hg
  rw [hd b hb hg, Bool.or_true]

theorem front (h : QueueOk conn) (hq : conn.uplinkPending = frame :: frames)
    (hf : Front conn frame frames step) : QueueOk step.conn := by
  have hl := h.last
  have ha := h.armed
  have hp := h.padding (by simp [hq])
  rw [hq, pairwise_cons] at hl
  rw [hq, forall_mem_cons] at ha
  cases hf with
  | waits =>
    exact ⟨pairwise_cons.mpr hl, forall_mem_cons.mpr ha, fun _ => hp⟩
  | passes => exact ⟨hl.2, ha.2, fun _ => hp⟩
  | leaves _ _ hc hg =>
    refine of_nil (h.front_last hq ?_)
    rw [hg]
    rcases hc with rfl | rfl <;> decide

end QueueOk

def Event.Foreign : Event → Prop
  | .read _ => True
  | .readLeft _ => True
  | .flush _ => True
  | .shutdown _ => True
  | _ => False

structure SameWriter (conn conn' : VisionConn) : Prop where
  pending : conn'.uplinkPending = conn.uplinkPending
  padding : conn'.uplinkPadding = conn.uplinkPadding
  uuid : conn'.uplinkUuidPending = conn.uplinkUuidPending
  armed : conn'.spliceArmed = conn.spliceArmed

theorem armRaw_writer (conn : VisionConn) : SameWriter conn conn.armRaw := by
  unfold armRaw
  split <;> exact ⟨rfl, rfl, rfl, rfl⟩

theorem pollRead_writer (h : conn.pollRead room inn raw = some step) :
    SameWriter conn step.conn ∧ ∀ e ∈ step.events, e.Foreign := by
  refine pollRead_rule (P := fun conn log conn' => SameWriter conn conn' ∧ ∀ e ∈ log, e.Foreign)
    (fun conn pending => ⟨⟨rfl, rfl, rfl, rfl⟩, by simp⟩)
    (fun conn => ⟨⟨rfl, rfl, rfl, rfl⟩, by simp [Event.Foreign]⟩) ?_ h
  rintro conn p conn' evs log conn'' - hp ⟨hrest, hl⟩
  obtain ⟨s, pending, t, hc⟩ := unpadPiece_some hp
  have hf : SameWriter conn conn' ∧ ∀ e ∈ evs, e.Foreign := by
    rcases hc with ⟨rfl, rfl⟩ | ⟨rfl, rfl⟩ | ⟨rfl, rfl⟩
    · exact ⟨⟨rfl, rfl, rfl, rfl⟩, by simp⟩
    · exact ⟨⟨rfl, rfl, rfl, rfl⟩, by simp [Event.Foreign]⟩
    · obtain ⟨hpe, hpa, hu, ha⟩ := armRaw_writer conn
      exact ⟨⟨hpe, hpa, hu, ha⟩, by simp [Event.Foreign]⟩
  refine ⟨⟨hrest.pending.trans hf.1.pending, hrest.padding.trans hf.1.padding,
    hrest.uuid.trans hf.1.uuid, hrest.armed.trans hf.1.armed⟩, ?_⟩
  simp only [cons_append, forall_mem_cons, forall_mem_append]
  exact ⟨trivial, hf.2, hl⟩

theorem QueueOk.same (h : QueueOk conn) (hs : SameWriter conn conn') : QueueOk conn' := by
  obtain ⟨hl, ha, hp⟩ := h
  refine ⟨?_, ?_, ?_⟩
  · rwa [hs.pending]
  · rwa [hs.pending, hs.armed]
  · rwa [hs.pending, hs.padding]

theorem QueueOk.apply (h : QueueOk conn)
    (hop : conn.apply op = some (conn', log)) : QueueOk conn' := by
  cases op with
  | read room i raw =>
    obtain ⟨step, hs, heq⟩ := Option.map_eq_some_iff.mp hop
    cases heq
    exact h.same (pollRead_writer hs).1
  | write bufs a draw =>
    obtain ⟨step, hs, heq⟩ := Option.map_eq_some_iff.mp hop
    cases heq
    cases pollWriteVectored_writes hs with
    | queue hq => exact h.front hq (writeFront_front hq (h.front_armed hq) a)
    | plain hq hp =>
      obtain ⟨⟨gate, hc⟩, -⟩ := writePlain_cases conn bufs a
      rw [hc]
      exact h.same ⟨rfl, rfl, rfl, rfl⟩
    | nothing => exact h
    | batch hq hp hb hq' =>
      have hok := QueueOk.batch hq hp hb
      exact hok.front hq' (writeFront_front hq' (hok.front_armed hq') a)
  | flush a | shutdown a =>
    cases hop
    exact h

structure Unwritten (conn : VisionConn) : Prop where
  pending : conn.uplinkPending = []
  padding : conn.uplinkPadding = true

theorem unwritten_new (uuid : Bytes) (innerRawTcp : Option TcpStream) :
    Unwritten (.new uuid innerRawTcp) :=
  ⟨rfl, rfl⟩

end XrayCore.Vless.Vision
