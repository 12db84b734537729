import XrayCore.Vless.VisionFrames

/-!
# Writing a Vision connection

A call accepts the content of the first block once that is out, so the caller has to present what
was not accepted again. If it does, the blocks that are out carry the accepted bytes in order, and
bytes that are not framed come behind the block that ended padding mode.
-/

namespace XrayCore.Vless.Vision

open Lib VisionConn List

namespace Event

def framedBytes : Event → Bytes
  | .framed bytes => bytes
  | _ => []

def plainBytes : Event → Bytes
  | .plain _ bytes => bytes
  | _ => []

def takenBytes : Event → Bytes
  | .took presented n => presented.take n
  | _ => []

def IsPlain : Event → Prop
  | .plain _ _ => True
  | _ => False

def owed (before : Bytes) : Event → Bytes
  | .took presented n => presented.drop n
  | _ => before

def Resumes (debt : Bytes) : Event → Prop
  | .took presented _ => debt <+: presented
  | _ => True

end Event

def framed (history : List Event) : Bytes := history.flatMap Event.framedBytes

def plain (history : List Event) : Bytes := history.flatMap Event.plainBytes

def taken (history : List Event) : Bytes := history.flatMap Event.takenBytes

def owed (history : List Event) : Bytes := history.foldl Event.owed []

def ResumesFrom (debt : Bytes) : List Event → Prop
  | [] => True
  | e :: history => e.Resumes debt ∧ ResumesFrom (e.owed debt) history

def Resumes (history : List Event) : Prop := ResumesFrom [] history

@[simp] theorem framed_append (a b : List Event) : framed (a ++ b) = framed a ++ framed b :=
  flatMap_append

@[simp] theorem plain_append (a b : List Event) : plain (a ++ b) = plain a ++ plain b :=
  flatMap_append

@[simp] theorem taken_append (a b : List Event) : taken (a ++ b) = taken a ++ taken b :=
  flatMap_append

@[simp] theorem owed_append (a b : List Event) : owed (a ++ b) = b.foldl Event.owed (owed a) :=
  foldl_append

theorem resumesFrom_append :
    ResumesFrom debt (a ++ b) ↔ ResumesFrom debt a ∧ ResumesFrom (a.foldl Event.owed debt) b := by
  induction a generalizing debt with
  | nil => simp [ResumesFrom]
  | cons e a ih => simp [ResumesFrom, ih, and_assoc]

theorem Resumes.of_append (h : Resumes (a ++ b)) : Resumes a := (resumesFrom_append.mp h).1

variable {bytes : Bytes}

theorem Framing.framed_eq (h : Framing pushes bytes) : framed pushes = bytes := by
  rcases h with rfl | ⟨rfl, rfl⟩ <;> simp [framed, Event.framedBytes]

theorem Framing.observe (h : Framing pushes bytes) (hg : gate = [] ∨ gate = [.gate false] ∨
      ∃ cmd, gate = [.gate true, .writeLeft cmd]) (pres : Bytes) (n : Nat) :
    framed (pushes ++ gate ++ [.took pres n]) = bytes ∧
      plain (pushes ++ gate ++ [.took pres n]) = [] ∧
      taken (pushes ++ gate ++ [.took pres n]) = pres.take n ∧
      ∀ e ∈ pushes ++ gate ++ [.took pres n], ¬e.IsPlain := by
  rcases h with rfl | ⟨rfl, rfl⟩ <;> rcases hg with rfl | rfl | ⟨cmd, rfl⟩ <;>
    simp [framed, plain, taken, Event.framedBytes, Event.plainBytes, Event.takenBytes,
      Event.IsPlain]

variable {events : List Event}

theorem observe_foreign (h : ∀ e ∈ evs, e.Foreign) :
    framed evs = [] ∧ plain evs = [] ∧ taken evs = [] ∧ (∀ e ∈ evs, ¬e.IsPlain) ∧
      ∀ before, evs.foldl Event.owed before = before := by
  induction evs with
  | nil => simp [framed, plain, taken]
  | cons e evs ih =>
    obtain ⟨he, hrest⟩ := forall_mem_cons.mp h
    cases e <;> cases he <;>
      simp_all [framed, plain, taken, Event.framedBytes, Event.plainBytes, Event.takenBytes,
        Event.IsPlain, Event.owed]

def begun : List UpFrame → Bytes
  | [] => []
  | frame :: _ => frame.padded.take frame.sent

/-- The last of the blocks ended padding mode, and only when all of them were written and the inner
connection was flushed. -/
def Committed (history : List Event) (done : List Sent) : Prop :=
  (∃ b ∈ done.getLast?, b.command ≠ COMMAND_PADDING_CONTINUE) ∧
    ∃ before after, history = before ++ .gate true :: after ∧ framed before = Sent.wire done ∧
      framed after = [] ∧ ∀ e ∈ before, ¬e.IsPlain

/-- The blocks that are out and the blocks of the queue, for a connection with a history. -/
structure Written (head : Option Bytes) (conn : VisionConn) (history : List Event)
    (done queued : List Sent) : Prop where
  queue : Forall₂ UpFrame.Carries conn.uplinkPending queued
  fresh : ∀ frame ∈ conn.uplinkPending.tail, frame.sent = 0
  framed : framed history = Sent.wire done ++ begun conn.uplinkPending
  led : Sent.Led head (done ++ queued) conn.uplinkUuidPending
  switch : Sent.OneSwitch (done ++ queued)
  taken : taken history = Sent.contents done ++ plain history
  padding : conn.uplinkPadding = true →
    (∀ e ∈ history, ¬e.IsPlain) ∧ ∀ b ∈ done, b.command = COMMAND_PADDING_CONTINUE
  left : conn.uplinkPadding = false → queued = [] ∧ Committed history done

variable {history : List Event}

theorem Committed.append (h : Committed history done) (hf : Vision.framed events = []) :
    Committed (history ++ events) done := by
  obtain ⟨hl, b, a, rfl, hb, ha, hn⟩ := h
  exact ⟨hl, b, a ++ events, by simp, hb, by simp [ha, hf], hn⟩

variable {frames : List UpFrame}

theorem begun_fresh (h : ∀ frame ∈ fs, frame.sent = 0) : begun fs = [] := by
  cases fs with
  | nil => rfl
  | cons frame fs => simp [begun, h frame mem_cons_self]

theorem begun_le
    (h : Forall₂ UpFrame.Carries frames blocks) : begun frames <+: Sent.wire blocks := by
  cases h with
  | nil => exact nil_prefix
  | cons hc =>
    rw [begun, hc.padded]
    exact ( take_prefix _ _).trans (prefix_append _ _)

theorem plain_eq_nil (h : ∀ e ∈ events, ¬e.IsPlain) : plain events = [] := by
  refine flatMap_eq_nil_iff.mpr fun e he => ?_
  cases e with
  | plain => exact absurd trivial (h _ he)
  | _ => rfl

namespace Written

variable {head : Option Bytes} {conn conn' : VisionConn} {history : List Event}
  {done queued : List Sent}

section

variable (h : Written head conn history done queued)

include h

theorem quiet (hs : SameWriter conn conn')
    (hf : Vision.framed events = []) (hpl : plain events = [])
    (ht : Vision.taken events = []) (hn : ∀ e ∈ events, ¬e.IsPlain) :
    Written head conn' (history ++ events) done queued := by
  refine ⟨?_, ?_, ?_, ?_, h.switch, ?_, fun hp => ?_, fun hp => ?_⟩
  · rw [hs.pending]
    exact h.queue
  · rw [hs.pending]
    exact h.fresh
  · rw [hs.pending, framed_append, hf, append_nil]
    exact h.framed
  · rw [hs.uuid]
    exact h.led
  · simp [ht, hpl, h.taken]
  · rw [hs.padding] at hp
    obtain ⟨hh, hd⟩ := h.padding hp
    exact ⟨forall_mem_append.mpr ⟨hh, hn⟩, hd⟩
  · rw [hs.padding] at hp
    obtain ⟨hq, hc⟩ := h.left hp
    exact ⟨hq, hc.append hf⟩

theorem nothing (hq : conn.uplinkPending = []) :
    queued = [] ∧ Written head conn (history ++ [.took [] 0]) done queued := by
  refine ⟨?_, h.quiet ⟨rfl, rfl, rfl, rfl⟩ rfl rfl rfl (by simp [Event.IsPlain])⟩
  have hc := h.queue
  rw [hq] at hc
  cases hc
  rfl

theorem plainly (hp : conn.uplinkPadding = false)
    (bufs : List Bytes) (ans : List Answer) : let step := writePlain conn bufs ans
    queued = [] ∧ Written head step.conn
      (history ++ (step.events ++ [.took bufs.flatten step.accepted])) done queued := by
  obtain ⟨hq, hc⟩ := h.left hp
  obtain ⟨⟨gate, hco⟩, he⟩ := writePlain_cases conn bufs ans
  have ho : Vision.framed ((writePlain conn bufs ans).events ++
        [.took bufs.flatten (writePlain conn bufs ans).accepted]) = [] ∧
      Vision.taken ((writePlain conn bufs ans).events ++
          [.took bufs.flatten (writePlain conn bufs ans).accepted]) =
        plain ((writePlain conn bufs ans).events ++
          [.took bufs.flatten (writePlain conn bufs ans).accepted]) := by
    rcases he with ⟨he, ha⟩ | ⟨n, he, ha⟩ <;>
      rw [he, ha] <;>
      simp [Vision.framed, Vision.taken, plain, Event.framedBytes, Event.takenBytes, Event.plainBytes]
  dsimp only
  obtain ⟨hf, ht⟩ := ho
  rw [hco]
  refine ⟨hq, h.queue, h.fresh, ?_, h.led, h.switch, ?_, fun hon => ?_, fun _ => ⟨hq, hc.append hf⟩⟩
  · rw [framed_append, hf, append_nil]
    exact h.framed
  · rw [taken_append, plain_append, ht, h.taken, append_assoc]
  · rw [show conn.uplinkPadding = true from hon] at hp
    cases hp

theorem batch (hq : conn.uplinkPending = [])
    (hp : conn.uplinkPadding = true) (hba : conn.frameBatch bufs draw = some conn') :
    ∃ bls, Written head conn' history done bls ∧ Sent.contents bls = bufs.flatten := by
  obtain ⟨t, uuid, fr, a, c, bls, rfl, hca, hs, hl, hc, hsw, -⟩ := frameBatch_some hba
  obtain ⟨hn, hd⟩ := h.padding hp
  obtain ⟨hqu, -⟩ := h.nothing hq
  have hl' := h.led
  rw [hqu, append_nil] at hl'
  refine ⟨bls, ⟨?_, ?_, ?_, hl'.append hl, ?_, h.taken, fun _ => ⟨hn, hd⟩, fun ho => ?_⟩, hc⟩
  · rwa [hq]
  · rw [hq, nil_append]
    exact fun f hf => hs f (mem_of_mem_tail hf)
  · have hfr := h.framed
    rw [hfr, hq, nil_append, begun_fresh hs]
    rfl
  · exact pairwise_append.mpr ⟨(pairwise_of_forall_mem_list fun b hb _ _ => hd b hb),
      hsw, fun b hb _ _ => hd b hb⟩
  · rw [show conn.uplinkPadding = false from ho] at hp
    cases hp

end

section Front

variable {frame : UpFrame} {frames : List UpFrame} {b : Sent} {rest : List Sent}
  {pushes gate : List Event} {bytes : Bytes}

theorem waits (h : Written head conn history done queued)
    (hq : conn.uplinkPending = frame :: frames) (hp : conn.uplinkPadding = true)
    (hby : frame.padded.take frame.sent ++ bytes = frame.padded.take sent)
    (hpu : Framing pushes bytes) (hg : gate = [] ∨ gate = [.gate false]) (pres : Bytes) :
    Written head { conn with uplinkPending := { frame with sent := sent } :: frames }
      (history ++ (pushes ++ gate ++ [.took pres 0])) done queued := by
  obtain ⟨hn, hd⟩ := h.padding hp
  obtain ⟨hfr, hs, ht, hqu⟩ := hpu.observe (hg.imp_right .inl) pres 0
  have hca := h.queue
  have hf := h.fresh
  have hb := h.framed
  rw [hq] at hca hf hb
  refine ⟨?_, hf, ?_, h.led, h.switch, ?_, fun _ => ⟨?_, hd⟩, fun ho => ?_⟩
  · cases hca with
    | cons hc hrest => exact .cons ⟨hc.padded, hc.origLen, hc.gate⟩ hrest
  · rw [framed_append, hfr, hb, append_assoc, begun, hby]
    rfl
  · rw [taken_append, plain_append, ht, hs, h.taken, take_zero, append_nil, append_nil]
  · exact forall_mem_append.mpr ⟨hn, hqu⟩
  · rw [show conn.uplinkPadding = false from ho] at hp
    cases hp

theorem framed_first (h : Written head conn history done (b :: rest))
    (hq : conn.uplinkPending = frame :: frames)
    (hby : frame.padded.take frame.sent ++ bytes = frame.padded) (hp : Framing pushes bytes) :
    Vision.framed (history ++ pushes) = Sent.wire (done ++ [b]) := by
  have hc := h.queue
  have hb := h.framed
  rw [hq] at hc hb
  cases hc with
  | cons hca =>
    rw [framed_append, hp.framed_eq, hb, begun, append_assoc, hby, hca.padded]
    simp [Sent.wire]

section

variable (h : Written head conn history done (b :: rest))
  (hq : conn.uplinkPending = frame :: frames) (hpa : conn.uplinkPadding = true)
  (hb : frame.padded.take frame.sent ++ bytes = frame.padded) (hp : Framing pushes bytes)

include h hq hpa hb hp

theorem finishes
    (hg : gate = [] ∨ gate = [.gate false] ∨ ∃ command, gate = [.gate true, .writeLeft command])
    (more : Bytes) (hpe : conn'.uplinkPending = frames)
    (hu : conn'.uplinkUuidPending = conn.uplinkUuidPending)
    (hst : conn'.uplinkPadding = true → b.command = COMMAND_PADDING_CONTINUE)
    (hl : conn'.uplinkPadding = false → rest = [] ∧
      Committed (history ++ (pushes ++ gate ++ [.took (b.content ++ more) b.content.length]))
        (done ++ [b])) : Written head conn'
      (history ++ (pushes ++ gate ++ [.took (b.content ++ more) b.content.length])) (done ++ [b])
      rest := by
  obtain ⟨hn, hd⟩ := h.padding hpa
  obtain ⟨hfa, hsi, ht, hqu⟩ := hp.observe hg (b.content ++ more) b.content.length
  have hfi := h.framed_first hq hb hp
  have hc := h.queue
  have hfr := h.fresh
  have hle := h.led
  have hs := h.switch
  rw [hq] at hc
  rw [hq, tail_cons] at hfr
  rw [append_cons] at hle hs
  refine ⟨?_, ?_, ?_, ?_, hs, ?_, fun hon => ⟨?_, ?_⟩, hl⟩
  · rw [hpe]
    cases hc with
    | cons _ hrest => exact hrest
  · rw [hpe]
    exact fun f hf => hfr f (mem_of_mem_tail hf)
  · rw [hpe, begun_fresh hfr, append_nil, framed_append, hfa, ← hfi, framed_append, hp.framed_eq]
  · rwa [hu]
  · rw [taken_append, plain_append, ht, hsi, h.taken, plain_eq_nil hn, take_left]
    simp [Sent.contents]
  · exact forall_mem_append.mpr ⟨hn, hqu⟩
  · exact forall_mem_append.mpr ⟨hd, forall_mem_singleton.mpr (hst hon)⟩

theorem commits (hs : b.command ≠ COMMAND_PADDING_CONTINUE) (cmd : UInt8) (pres : Bytes) (n : Nat) :
    Committed (history ++ (pushes ++ [.gate true, .writeLeft cmd] ++ [.took pres n]))
      (done ++ [b]) := by
  refine ⟨⟨b, by simp, hs⟩, history ++ pushes, [.writeLeft cmd, .took pres n],
    by simp, h.framed_first hq hb hp, rfl, ?_⟩
  refine forall_mem_append.mpr ⟨(h.padding hpa).1, fun e he => ?_⟩
  exact (hp.observe (.inl rfl) [] 0).2.2.2 e (by simp [he])

end

theorem front (h : Written head conn history done queued) (hok : QueueOk conn)
    (hq : conn.uplinkPending = frame :: fs) (hpr : Sent.contents queued <+: pres)
    (hf : Front conn frame fs step) : ∃ done' queued', Written head step.conn
        (history ++ (step.events ++ [.took pres step.accepted])) done' queued' ∧
      Sent.contents queued' <+: pres.drop step.accepted := by
  have hp := hok.padding (by simp [hq])
  have hca := h.queue
  rw [hq] at hca
  cases hca with
  | @cons _ b _ rest hc hrest =>
  obtain ⟨be, rfl⟩ := hpr
  have hco : Sent.contents (b :: rest) ++ be = b.content ++ (Sent.contents rest ++ be) := by
    simp [Sent.contents]
  rw [hco]
  cases hf with
  | @waits bytes sent result pushes gate hb hpu hg hr =>
    have ha : WriteStep.accepted ⟨result, { conn with
        uplinkPending := { frame with sent := sent } :: fs }, pushes ++ gate⟩ = 0 := by
      cases result with
      | ready n => exact absurd rfl (hr n)
      | _ => rfl
    rw [ha, drop_zero, ← hco]
    exact ⟨done, b :: rest, h.waits hq hp hb hpu hg _, prefix_append _ _⟩
  | @passes bytes pushes hb hpu hg =>
    rw [hc.gate, gateOf_eq_none] at hg
    have hw : Written head { conn with uplinkPending := fs } _ (done ++ [b]) rest :=
      h.finishes hq hp hb hpu (.inl rfl) (Sent.contents rest ++ be) rfl rfl
        (fun _ => hg) fun ho => by
          rw [show conn.uplinkPadding = false from ho] at hp
          cases hp
    rw [append_nil, ← hc.origLen] at hw
    refine ⟨done ++ [b], rest, hw, ?_⟩
    rw [WriteStep.accepted, drop_left' hc.origLen.symm]
    exact prefix_append _ _
  | @leaves bytes pushes command hb hpu hcm hg =>
    have hs : gateOf b.command ≠ .none := by
      rw [← hc.gate, hg]
      rcases hcm with rfl | rfl <;> decide
    obtain rfl : fs = [] := hok.front_last hq (by rwa [hc.gate])
    cases hrest
    have hw : Written head { leave conn command with uplinkPending := [] } _ (done ++ [b]) [] :=
      h.finishes hq hp hb hpu (.inr (.inr ⟨command, rfl⟩))
        (Sent.contents [] ++ be) rfl (leave_uplinkUuidPending conn command)
        (fun hon => by rw [leave_uplinkPadding] at hon; cases hon) fun _ => ⟨rfl,
          h.commits hq hp hb hpu (hs ∘ gateOf_eq_none.mpr) command _ _⟩
    rw [← hc.origLen] at hw
    exact ⟨done ++ [b], [], hw, nil_prefix⟩

end Front

end Written

def Accounted (head : Option Bytes) (conn : VisionConn) (history : List Event) : Prop :=
  QueueOk conn ∧ (Resumes history → ∃ done queued, Written head conn history done queued ∧
    Sent.contents queued <+: owed history)

variable {conn conn' : VisionConn}

theorem Accounted.foreign (h : Accounted hd conn history) (hs : SameWriter conn conn')
    (hl : ∀ e ∈ log, e.Foreign) : Accounted hd conn' (history ++ log) := by
  refine ⟨h.1.same hs, fun hr => ?_⟩
  obtain ⟨done, q, hw, ho⟩ := h.2 hr.of_append
  obtain ⟨hf, hp, ht, hn, hsame_owed⟩ := observe_foreign hl
  refine ⟨done, q, hw.quiet hs hf hp ht hn, ?_⟩
  rwa [owed_append, hsame_owed]

theorem owed_took (evs : List Event) (pres : Bytes) (n : Nat) :
    owed (evs ++ [.took pres n]) = pres.drop n := by
  rw [owed_append]
  rfl

theorem owed_untaken (h : ∀ pres n, .took pres n ∉ events)
    (before : Bytes) : events.foldl Event.owed before = before := by
  induction events with
  | nil => rfl
  | cons e events ih =>
    have hrest : ∀ pres n, .took pres n ∉ events := fun pres n hm =>
      h pres n (mem_cons_of_mem e hm)
    cases e with
    | took pres n => exact absurd mem_cons_self (h pres n)
    | _ => exact ih hrest

theorem Front.untaken (h : Front conn frame frames step) (pres : Bytes) (n : Nat) :
    .took pres n ∉ step.events := by
  cases h with
  | waits _ hp hg =>
    rcases hp with rfl | ⟨rfl, -⟩ <;> rcases hg with rfl | rfl <;> simp
  | passes _ hp | leaves _ hp => rcases hp with rfl | ⟨rfl, -⟩ <;> simp

theorem Resumes.presented {presented : Bytes} {n : Nat}
    (h : Resumes (history ++ (events ++ [.took presented n])))
    (he : ∀ presented n, .took presented n ∉ events) : owed history <+: presented := by
  obtain ⟨-, hc⟩ := resumesFrom_append.mp h
  obtain ⟨-, hl, -⟩ := resumesFrom_append.mp hc
  rwa [owed_untaken he] at hl

theorem Accounted.apply (h : Accounted hd conn history) (hop : conn.apply op = some (conn', log)) :
    Accounted hd conn' (history ++ log) := by
  cases op with
  | read room i raw =>
    obtain ⟨step, hs, heq⟩ := Option.map_eq_some_iff.mp hop
    cases heq
    obtain ⟨hsa, hl⟩ := pollRead_writer hs
    exact h.foreign hsa hl
  | flush a =>
    cases hop
    exact h.foreign ⟨rfl, rfl, rfl, rfl⟩ (by simp [pollFlush, Event.Foreign])
  | shutdown a =>
    cases hop
    exact h.foreign ⟨rfl, rfl, rfl, rfl⟩ (by simp [pollShutdown, Event.Foreign])
  | write bufs a draw =>
    refine ⟨h.1.apply hop, fun hr => ?_⟩
    obtain ⟨step, hs, heq⟩ := Option.map_eq_some_iff.mp hop
    cases heq
    obtain ⟨done, qu, hw, ho⟩ := h.2 hr.of_append
    have hok := h.1
    cases pollWriteVectored_writes hs with
    | queue hq =>
      have hf := writeFront_front hq (hok.front_armed hq) a
      have hpr := hr.presented hf.untaken
      obtain ⟨done', q', hw', hrest⟩ := hw.front hok hq (ho.trans hpr) hf
      rw [← append_assoc] at hw' ⊢
      refine ⟨done', q', hw', ?_⟩
      rwa [owed_took]
    | plain hq hp =>
      obtain ⟨rfl, hw'⟩ := hw.plainly hp bufs a
      exact ⟨done, [], hw', nil_prefix⟩
    | nothing hq hp hn =>
      obtain ⟨rfl, hw'⟩ := hw.nothing hq
      rw [hn]
      exact ⟨done, [], hw', nil_prefix⟩
    | batch hq hp hb hq' =>
      have hok' := QueueOk.batch hq hp hb
      have hf := writeFront_front hq' (hok'.front_armed hq') a
      obtain ⟨b, hbl, hc⟩ := hw.batch hq hp hb
      obtain ⟨done', q', hw', hrest⟩ := hbl.front hok' hq' ⟨[], by rw [hc, append_nil]⟩ hf
      rw [← append_assoc] at hw' ⊢
      refine ⟨done', q', hw', ?_⟩
      rwa [owed_took]

theorem Unwritten.accounted (h : Unwritten conn) : Accounted conn.uplinkUuidPending conn [] := by
  refine ⟨.of_nil h.pending, fun _ =>
    ⟨[], [], ⟨?_, ?_, ?_, .nil _, .nil, rfl, ?_, ?_⟩, nil_prefix⟩⟩
  · rw [h.pending]
    exact .nil
  · simp [h.pending]
  · rw [h.pending]
    rfl
  · exact fun _ => ⟨by simp, by simp⟩
  · intro ho
    rw [h.padding] at ho
    cases ho

theorem Sent.Led.leads (h : Led uuid bls uuid') :
    (∀ b ∈ bls.head?, b.lead = uuid.getD []) ∧ ∀ b ∈ bls.tail, b.lead = [] := by
  have hn : ∀ {bls uuid'}, Led none bls uuid' → ∀ b ∈ bls, b.lead = [] := by
    intro bls uuid' h
    generalize hs : (none : Option Bytes) = start at h
    induction h with
    | nil => simp
    | cons hl _ ih =>
      subst hs
      exact forall_mem_cons.mpr ⟨hl, ih rfl⟩
  cases h with
  | nil => simp
  | cons hl hrest => exact ⟨by simpa using hl, hn hrest⟩

/-- Whatever the slices, the inner connection and the generator do, and whatever is read in between:
the blocks that are out carry what was accepted, up to the bytes that go as they are, behind the
last block and a flush after it. -/
theorem writes_blocks {start conn : VisionConn} (hstart : Unwritten start) {ops : List Op}
    {history : List Event} (hrun : start.run ops = some (conn, history))
    (hresumes : Resumes history) : ∃ done queued : List Sent,
      Sent.wire done <+: framed history ∧ framed history <+: Sent.wire (done ++ queued) ∧
      (∀ b ∈ (done ++ queued).head?, b.lead = start.uplinkUuidPending.getD []) ∧
      (∀ b ∈ (done ++ queued).tail, b.lead = []) ∧ Sent.OneSwitch (done ++ queued) ∧
      taken history = Sent.contents done ++ plain history ∧ Sent.contents queued <+: owed history ∧
      ((∃ e ∈ history, e.IsPlain) → queued = [] ∧ Committed history done) := by
  have haccounted : Accounted start.uplinkUuidPending conn ([] ++ history) :=
    logged_invariant (fun _ _ _ _ _ h hop => h.apply hop) hstart.accounted hrun
  rw [nil_append] at haccounted
  obtain ⟨done, queued, hwritten, howed⟩ := haccounted.2 hresumes
  obtain ⟨hhead, htail⟩ := hwritten.led.leads
  refine ⟨done, queued, ?_, ?_, hhead, htail, hwritten.switch, hwritten.taken, howed, ?_⟩
  · rw [hwritten.framed]
    exact prefix_append _ _
  · rw [hwritten.framed, Sent.wire, Sent.wire, flatMap_append]
    exact (prefix_append_right_inj _).mpr (begun_le hwritten.queue)
  · rintro ⟨e, he, hplain⟩
    cases hpadding : conn.uplinkPadding with
    | true => exact absurd hplain ((hwritten.padding hpadding).1 e he)
    | false => exact hwritten.left hpadding

def stuckWrites : List Op :=
  [.write [[97, 98], [99]] [.ready 3, .pending] fun _ => 1,
    .write [[97], [98, 99, 100]] [.ready 1000] fun _ => 1]

theorem writes_blocks_stuck :
    ∃ history, ((VisionConn.new someUuid none).run stuckWrites).map Prod.snd = some history ∧
      taken history = [97, 98, 99] ∧ ∃ done : List Sent, Sent.wire done <+: framed history ∧
        taken history = Sent.contents done ++ plain history := by
  have hlog : ((VisionConn.new someUuid none).run stuckWrites).map Prod.snd =
      some [.framed [0, 1, 2], .took [97, 98, 99] 0,
        .framed [3, 4, 5, 6, 7, 8, 9, 10, 11, 12, 13, 14, 15, 0, 0, 3, 0, 1, 97, 98, 99, 0],
        .took [97, 98, 99, 100] 3] := by
    decide +kernel
  refine ⟨_, hlog, rfl, ?_⟩
  obtain ⟨⟨conn, history⟩, hrun, rfl⟩ := Option.map_eq_some_iff.mp hlog
  obtain ⟨done, queued, hwire, -, -, -, -, htaken, -⟩ :=
    writes_blocks (unwritten_new someUuid none) hrun
      ⟨trivial, nil_prefix, trivial, ⟨[100], rfl⟩, trivial⟩
  exact ⟨done, hwire, htaken⟩

end XrayCore.Vless.Vision
