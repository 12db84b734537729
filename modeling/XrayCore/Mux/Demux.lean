import XrayCore.Lib.Interleaving
import XrayCore.Mux.FrameLoop
import XrayCore.Mux.Links

/-!
# Sessions over one carrier

Several writers put their frames on one carrier, whole but in any order, and the server reads them
off it. Every session's link is given what was written on that session. `Lane` is where one session
stands, its writer and what it has still to send; `Holds` says that the worker has given each link
what the frames so far brought for it.
-/

namespace XrayCore.Mux

open Lib Net List MuxWriter FrameMetadata
open Buf (Buffer MultiBuffer DEFAULT_SIZE)
open XrayCore.Xudp (GlobalId)

namespace ServerWorker

variable {readSourceAndLocal : Bool} {allowedNetwork : Option Network}
  {gids : UInt16 → Option GlobalId} {handed : UInt16 → Option (List Bytes)} {w : ServerWorker}

structure Lane where
  writer : MuxWriter
  payloads : List (Option Bytes)

/-- The server takes the frames of a lane: they have the session's id, their data fits a buffer and,
as long as nothing was handed to the session, the New frame is one that it reads, with a target it
allows and the session's GlobalID. -/
structure Lane.Ready (readSourceAndLocal : Bool) (allowedNetwork : Option Network)
    (gid : Option GlobalId) (id : UInt16) (handed : Option (List Bytes)) (lane : Lane) :
    Prop where
  id_eq : lane.writer.id = id
  sizes : ∀ data, some data ∈ lane.payloads → data.length ≤ DEFAULT_SIZE
  followup : lane.writer.followup = handed.isSome
  allowed : ∃ target, lane.writer.dest = some target ∧
    ∀ network, allowedNetwork = some network → target.network = network
  readable : readSourceAndLocal = true → lane.writer.getNextFrameMeta.SourceReadable
  seen : handed = none → ∀ payload ∈ lane.payloads.head?,
    (lane.writer.nextMeta payload).seenGlobalId readSourceAndLocal = gid

theorem given_getD (pl : Option Bytes) : given (pl.getD []) = delivered [pl] := by
  cases pl with
  | none => rfl
  | some data =>
    by_cases hdata : data = []
    · rw [hdata]
      rfl
    · rw [delivered_some hdata, Option.getD_some, given, if_neg hdata]
      rfl

structure Lane.Next (allowedNetwork : Option Network) (gid : Option GlobalId) (id : UInt16)
    (handed : Option (List Bytes)) (payload : Option Bytes) (m : FrameMetadata) : Prop where
  id_eq : m.sessionId = id
  hasData : m.hasData = payload.isSome
  opens : handed = none → m.sessionStatus = .new ∧ m.globalId = gid ∧
    ∃ target, m.target = some target ∧
      ∀ network, allowedNetwork = some network → target.network = network
  continues : ∀ written, handed = some written → m.sessionStatus = .keep

variable {id : UInt16} {writer : MuxWriter} {payload : Option Bytes}
  {payloads : List (Option Bytes)}

theorem Lane.Ready.readMeta
    (h : Lane.Ready readSourceAndLocal allowedNetwork gid id old ⟨writer, payload :: payloads⟩)
    (hh : (writer.nextMeta payload).toBytes = .ok header) :
    ∃ m, readMeta readSourceAndLocal header = .ok m ∧
      Lane.Next allowedNetwork gid id old payload m := by
  obtain ⟨hid, -, hf, ⟨target, hd, ha⟩, hre, hse⟩ := h
  dsimp only at hid hf hd hre hse
  have hhd : ∀ m : FrameMetadata, m.option = (writer.nextMeta payload).option →
      m.hasData = payload.isSome := by
    intro m ho
    rw [← writer.hasData_nextMeta, hasData, hasData, ho]
  cases old with
  | none =>
    have hs : (writer.nextMeta payload).sessionStatus = .new := by
      rw [writer.sessionStatus_nextMeta, nextStatus, hf]
      rfl
    have hso : readSourceAndLocal = true → (writer.nextMeta payload).SourceReadable := by
      cases payload <;> exact hre
    obtain ⟨m, hr, hm⟩ := readMeta_new hs ((writer.target_nextMeta payload).trans hd) hh hso
    have hm_id : m.sessionId = id := (hm.sessionId.trans (writer.sessionId_nextMeta _)).trans hid
    refine ⟨m, hr, hm_id, hhd m hm.option,
      fun _ => ⟨hm.sessionStatus, ?_, target, hm.target, ha⟩, fun _ ho => by cases ho⟩
    exact hm.globalId.trans (hse rfl payload rfl)
  | some w =>
    have hs : (writer.nextMeta payload).sessionStatus = .keep := by
      rw [writer.sessionStatus_nextMeta, nextStatus, hf]
      rfl
    obtain ⟨m, hr, hm_id, hk, ho⟩ := readMeta_keep hs hh readSourceAndLocal
    exact ⟨m, hr, (hm_id.trans (writer.sessionId_nextMeta _)).trans hid, hhd m ho,
      (fun ho => by cases ho), fun _ _ => hk⟩

theorem Holds.handleNext (h : w.Holds readSourceAndLocal allowedNetwork gids handed)
    (hi : ∀ id id' gid, gids id = some gid → gids id' = some gid → id = id') (he : env.Obliging)
    (hm : Lane.Next allowedNetwork (gids id) id (handed id) payload m) :
    ∃ w', w.handleFrame env m (payload.getD []) = (w', .ok ()) ∧
      w'.Holds readSourceAndLocal allowedNetwork gids (Function.update handed id
        (some ((handed id).getD [] ++ delivered [payload]))) := by
  obtain ⟨rfl, -, ho, hc⟩ := hm
  rw [← given_getD]
  cases hh : handed m.sessionId with
  | none =>
    obtain ⟨hnew, hg, t, ht, ha⟩ := ho hh
    exact h.handleNew hi he hnew ht ha hg hh _
  | some wr => exact h.handleKeep he (hc wr hh) hh _

variable {reader : PieceReader}

theorem Holds.processFrame (h : w.Holds readSourceAndLocal allowedNetwork gids handed)
    (hi : ∀ id id' gid, gids id = some gid → gids id' = some gid → id = id') (he : env.Obliging)
    (hr : Lane.Ready readSourceAndLocal allowedNetwork (gids id) id (handed id)
      ⟨writer, payload :: payloads⟩) (hf : writer.nextFrame payload = .ok frame)
    (hw : reader.Whole) (hc : reader.contents = frame ++ rest) :
    ∃ w' rd', w.processFrame env reader = (w', .ok (some rd')) ∧ rd'.contents = rest ∧ rd'.Whole ∧
      w'.Holds readSourceAndLocal allowedNetwork gids (Function.update handed id
        (some ((handed id).getD [] ++ delivered [payload]))) := by
  obtain ⟨hdr, hh, rfl⟩ := nextFrame_ok.mp hf
  obtain ⟨m, hme, hm⟩ := hr.readMeta hh
  have hsize : ∀ data, payload = some data → data.length ≤ DEFAULT_SIZE := by
    rintro data rfl
    exact hr.sizes data (mem_cons_self ..)
  rw [← h.mode] at hme
  obtain ⟨rd', hre, hc', hw'⟩ := readFrame_front hh hm.hasData hme hsize hw hc
  obtain ⟨w', hha, hho⟩ := h.handleNext hi he hm
  exact ⟨w', rd', processFrame_some h.not_closed hre hha, hc', hw', hho⟩

theorem Lane.Ready.advance
    (h : Lane.Ready readSourceAndLocal allowedNetwork gid id old ⟨writer, payload :: payloads⟩)
    (written : List Bytes) :
    Lane.Ready readSourceAndLocal allowedNetwork gid id (some written)
      ⟨writer.advance, payloads⟩ where
  id_eq := h.id_eq
  sizes := fun data hdata => h.sizes data (mem_cons_of_mem _ hdata)
  followup := rfl
  allowed := h.allowed
  readable := nofun
  seen := nofun

theorem serve_end (ho : w.closed = false) (h : reader.contents = [])
    (env : Nat → Surroundings) : serve env w reader = (w, .ok ()) := by
  have hr : readFrame w.readSourceAndLocal reader = .ok none := by
    unfold readFrame
    split
    · rfl
    · next lb r' hs =>
      obtain ⟨hl, hc⟩ := readExactSlice_ok hs
      obtain ⟨rfl, -⟩ := append_eq_nil_iff.mp (hc.symm.trans h)
      cases hl
  exact serve_none (processFrame_none ho hr)

def Lane.total (handed : Option (List Bytes)) (lane : Lane) : Option (List Bytes) :=
  if lane.payloads = [] then handed
  else some (handed.getD [] ++ delivered lane.payloads)

open Lane

theorem Lane.total_advance (handed : Option (List Bytes)) (writer : MuxWriter)
    (pl : Option Bytes) (payloads : List (Option Bytes)) :
    total (some (handed.getD [] ++ delivered [pl])) ⟨writer.advance, payloads⟩ =
      total handed ⟨writer, pl :: payloads⟩ := by
  have hc : delivered (pl :: payloads) = delivered [pl] ++ delivered payloads :=
    filterMap_append (l := [pl])
  rw [total, total, if_neg (cons_ne_nil _ _), hc, ← append_assoc]
  split
  · next hn =>
    dsimp only at hn
    rw [hn]
    exact congrArg some (append_nil _).symm
  · rfl

theorem Lane.getD_total (lane : Lane) : (total none lane).getD [] = delivered lane.payloads := by
  unfold total
  split
  · next hn =>
    rw [hn]
    rfl
  · rfl

theorem Lane.total_of_sends_nil
    (h : MuxWriter.Sends lane.writer lane.payloads []) (handed : Option (List Bytes)) :
    total handed lane = handed := by
  obtain ⟨writer, pls⟩ := lane
  cases h with
  | nil => exact if_pos rfl

theorem Holds.serve (hi : ∀ id id' gid, gids id = some gid → gids id' = some gid → id = id')
    {carrier : List (UInt16 × Bytes)} {streams : UInt16 → List Bytes} {lanes : UInt16 → Lane}
    {env : Nat → Surroundings}
    (h : w.Holds readSourceAndLocal allowedNetwork gids handed) (he : ∀ n, (env n).Obliging)
    (hc : Interleaves streams carrier)
    (hs : ∀ id, MuxWriter.Sends (lanes id).writer (lanes id).payloads (streams id))
    (hr : ∀ id, (lanes id).payloads ≠ [] →
      Lane.Ready readSourceAndLocal allowedNetwork (gids id) id (handed id) (lanes id))
    (hw : reader.Whole) (hco : reader.contents = carrier.flatMap (·.2)) :
    ∃ w', ServerWorker.serve env w reader = (w', .ok ()) ∧
      w'.Holds readSourceAndLocal allowedNetwork gids fun id => total (handed id) (lanes id) := by
  induction carrier generalizing streams lanes handed w env reader with
  | nil =>
    refine ⟨w, serve_end h.not_closed hco env, ?_⟩
    have ht : (fun id => total (handed id) (lanes id)) = handed := by
      funext id
      have hl := hs id
      rw [interleaves_nil.mp hc id] at hl
      exact total_of_sends_nil hl (handed id)
    rwa [ht]
  | cons item carrier ih =>
    obtain ⟨id, frame⟩ := item
    obtain ⟨rest, hst, hrest⟩ := interleaves_cons.mp hc
    have hl := hs id
    rw [hst] at hl
    cases hid : lanes id with
    | mk writer pls =>
      rw [hid] at hl
      cases hl with
      | @cons _ payload pls _ _ hfr hs' =>
        have hf := hr id (by rw [hid]; exact cons_ne_nil _ _)
        rw [hid] at hf
        obtain ⟨w1, r1, hp, hc1, hw1, hh⟩ := h.processFrame hi (he 0) hf hfr hw hco
        -- the session of the frame moves on, the others stay as they are
        let lanes1 := Function.update lanes id ⟨writer.advance, pls⟩
        let handed1 := Function.update handed id (some ((handed id).getD [] ++ delivered [payload]))
        have hs1 : ∀ id', MuxWriter.Sends (lanes1 id').writer (lanes1 id').payloads
            (Function.update streams id rest id') :=
          forall_update₂ (R := fun _ (lane : Lane) s =>
            MuxWriter.Sends lane.writer lane.payloads s) hs hs'
        have hr1 : ∀ id', (lanes1 id').payloads ≠ [] → Lane.Ready readSourceAndLocal
            allowedNetwork (gids id') id' (handed1 id') (lanes1 id') :=
          forall_update₂ (R := fun id' (lane : Lane) old => lane.payloads ≠ [] →
            Lane.Ready readSourceAndLocal allowedNetwork (gids id') id' old lane) hr
            fun _ => hf.advance _
        have ht : ∀ id', total (handed1 id') (lanes1 id') = total (handed id') (lanes id') :=
          forall_update₂ (R := fun id' old lane =>
            total old lane = total (handed id') (lanes id')) (fun _ => rfl)
            (by rw [total_advance, hid])
        obtain ⟨w', hse, hfi⟩ := ih hh (fun n => he (n + 1)) hrest hs1 hr1 hw1 hc1
        rw [funext ht] at hfi
        exact ⟨w', (serve_some hp).trans hse, hfi⟩

def handedTo (w : ServerWorker) (id : UInt16) : List Bytes :=
  match ((w.sessionManager.get id).bind (w.sessionManager.arena[·]?)).bind (·.output) with
  | some output => output.written
  | none => []

theorem Holds.handedTo_eq (h : w.Holds readSourceAndLocal allowedNetwork gids handed)
    (id : UInt16) : w.handedTo id = (handed id).getD [] := by
  have hg : w.sessionManager.get id = w.sessionManager.sessions.lookup id := by
    rw [SessionManager.get, h.sessions.not_closed]
    rfl
  unfold handedTo
  rw [hg]
  cases hh : handed id with
  | none => rw [h.sessions.absent id hh]; rfl
  | some wr =>
    obtain ⟨r, s, o, hr, hs, -, ho, rfl⟩ := h.sessions.present id _ hh
    simp [hr, hs, ho]

end ServerWorker

structure Sender where
  dest : Destination
  transferType : TransferType
  globalId : Option GlobalId
  inbound : Option (Destination × Destination)
  writes : List MultiBuffer

namespace Sender

def writer (s : Sender) (id : UInt16) : MuxWriter :=
  let w := new id s.dest s.transferType s.globalId
  match s.inbound with
  | none => w
  | some (source, localDest) => w.withInbound source localDest

def frames (s : Sender) (id : UInt16) : List Bytes := (s.writer id).writeAll s.writes

def newMeta (s : Sender) (id : UInt16) : FrameMetadata :=
  let data := s.writes.head?.bind fun mb => if mb.isEmpty then none else some mb.toVec
  (s.writer id).nextMeta data

/-- The link was given what was written: the bytes of a stream in order, or the packets
one by one, but for empty ones. -/
def Receives (s : Sender) (handed : List Bytes) : Prop :=
  match s.transferType with
  | .stream => handed.flatten = s.writes.flatMap MultiBuffer.toVec
  | .packet => handed = (s.writes.flatMap (·.buffers.map Buffer.bytes)).filter (· ≠ [])

/-- The server takes the frames: the header can be written, and read in the server's
mode, the network is allowed, and no packet is longer than a buffer. -/
structure Accepted (readSourceAndLocal : Bool) (allowedNetwork : Option Network) (id : UInt16)
    (s : Sender) : Prop where
  encodable : (s.writer id).Encodable
  readable : readSourceAndLocal = true → (s.writer id).getNextFrameMeta.SourceReadable
  allowed : ∀ network, allowedNetwork = some network → s.dest.network = network
  sizes : s.transferType = .packet → ∀ mb ∈ s.writes, ∀ buf ∈ mb.buffers, buf.len ≤ DEFAULT_SIZE

theorem transferType_writer (s : Sender) (id : UInt16) :
    (s.writer id).transferType = s.transferType := by
  unfold writer
  cases s.inbound <;> rfl

theorem writer_fields (s : Sender) (id : UInt16) : (s.writer id).id = id ∧
    (s.writer id).followup = false ∧ (s.writer id).dest = some s.dest := by
  unfold writer
  cases s.inbound <;> exact ⟨rfl, rfl, rfl⟩

theorem nextMeta_eq_newMeta (s : Sender) (id : UInt16)
    (hh : some payload.isSome = s.writes.head?.map (!·.isEmpty)) :
    (s.writer id).nextMeta payload = s.newMeta id := by
  obtain ⟨mb, hmb, hsome⟩ := Option.map_eq_some_iff.mp hh.symm
  rw [newMeta, hmb]
  cases payload with
  | none =>
    have he : mb.isEmpty = true := by simpa using hsome
    simp [he]
  | some data =>
    have he : mb.isEmpty = false := by simpa using hsome
    simp [he, nextMeta]

variable {id : UInt16}

theorem Accepted.sends {rsl : Bool} {net : Option Network}
    {s : Sender} (h : s.Accepted rsl net id) :
    ∃ pls, MuxWriter.Sends (s.writer id) pls (s.frames id) ∧ s.Receives (delivered pls) ∧
      (pls ≠ [] → ServerWorker.Lane.Ready rsl net
        ((s.newMeta id).seenGlobalId rsl) id none ⟨s.writer id, pls⟩) := by
  obtain ⟨pls, hs, hc, hh⟩ := h.encodable.writeAll s.writes
  rw [transferType_writer] at hc
  have hr : s.Receives (delivered pls) ∧ ∀ data, some data ∈ pls → data.length ≤ DEFAULT_SIZE := by
    unfold Receives
    cases htype : s.transferType with
    | stream =>
      rw [htype] at hc
      exact hc
    | packet =>
      rw [htype] at hc
      refine ⟨hc.1, fun data hdata => ?_⟩
      obtain ⟨mb, hmb, buf, hb, rfl⟩ := hc.2 data hdata
      rw [Buffer.length_bytes]
      exact h.sizes htype mb hmb buf hb
  refine ⟨pls, hs, hr.1, fun _ => ?_⟩
  obtain ⟨hid, hf, hd⟩ := s.writer_fields id
  refine ⟨hid, hr.2, hf, ⟨s.dest, hd, h.allowed⟩, h.readable, ?_⟩
  rintro - p hp
  rw [Option.mem_def.mp hp, Option.map_some] at hh
  exact congrArg (·.seenGlobalId rsl) (s.nextMeta_eq_newMeta id hh)

theorem frames_of_packet (s : Sender) (h : (s.writer id).Encodable)
    (htype : s.transferType = .packet) (hw : s.writes = [⟨[buf]⟩]) (hp : 0 < buf.len) :
    ∃ hdr, ((s.writer id).nextMeta (some buf.bytes)).toBytes = .ok hdr ∧
      ∃ frames, s.frames id = (hdr ++ behind (some buf.bytes)) :: frames := by
  obtain ⟨p, hs, hc, hh⟩ := h.writeAll s.writes
  rw [s.transferType_writer, htype, hw] at hc
  have hmb : (⟨[buf]⟩ : MultiBuffer).isEmpty = false := by
    simp only [MultiBuffer.isEmpty, MultiBuffer.len, isEmpty_cons, map_cons, map_nil,
      sum_cons, sum_nil, add_zero, Bool.false_or, beq_eq_false_iff_ne]
    exact ne_of_gt hp
  rw [hw, List.head?_cons, Option.map_some, hmb] at hh
  rcases p with - | ⟨- | data, p⟩
  · cases hh
  · cases hh
  · obtain ⟨mb, hm, buf', hb', rfl⟩ := hc.2 data (mem_cons_self ..)
    cases mem_singleton.mp hm
    cases mem_singleton.mp hb'
    unfold frames
    generalize (s.writer id).writeAll s.writes = frames at hs
    cases hs with
    | @cons _ _ _ _ frames hf _ =>
      obtain ⟨hdr, hhe, rfl⟩ := nextFrame_ok.mp hf
      exact ⟨hdr, hhe, frames, rfl⟩

theorem exists_lane {rsl : Bool} {net : Option Network} (sender : Option Sender)
    (h : ∀ s, sender = some s → s.Accepted rsl net id) : ∃ lane : ServerWorker.Lane,
      MuxWriter.Sends lane.writer lane.payloads ((sender.map (·.frames id)).getD []) ∧
      (lane.payloads ≠ [] → lane.Ready rsl net
        (sender.bind fun s => (s.newMeta id).seenGlobalId rsl) id none) ∧
      (∀ s, sender = some s → s.Receives (delivered lane.payloads)) ∧
      (sender = none → lane.payloads = []) := by
  cases sender with
  | none =>
    refine ⟨⟨⟨none, id, false, .stream, none, none⟩, []⟩, .nil _, fun h => absurd rfl h, ?_,
      fun _ => rfl⟩
    rintro s ⟨⟩
  | some s =>
    obtain ⟨pls, hs, hr, hre⟩ := (h s rfl).sends
    refine ⟨⟨s.writer id, pls⟩, hs, hre, ?_, nofun⟩
    rintro _ ⟨⟩
    exact hr

end Sender

namespace ServerWorker

/-- Writers with distinct ids on one carrier: however their frames are interleaved and the carrier's
bytes arrive, the server reads every frame and hands each session what was written on it, and no
other session anything. -/
theorem serve_hands_over (readSourceAndLocal : Bool) (allowedNetwork : Option Network)
    (senders : UInt16 → Option Sender)
    (haccepted : ∀ id s, senders id = some s → s.Accepted readSourceAndLocal allowedNetwork id)
    (hgids : ∀ id id' s s' gid, senders id = some s → senders id' = some s' →
      (s.newMeta id).seenGlobalId readSourceAndLocal = some gid →
      (s'.newMeta id').seenGlobalId readSourceAndLocal = some gid → id = id')
    (carrier : List (UInt16 × Bytes))
    (hcarrier : Interleaves (fun id => ((senders id).map (·.frames id)).getD []) carrier)
    (reader : PieceReader) (hwhole : reader.Whole)
    (hcontents : reader.contents = carrier.flatMap (·.2)) (env : Nat → Surroundings)
    (henv : ∀ n, (env n).Obliging) :
    ∃ w, serve env (new readSourceAndLocal allowedNetwork) reader = (w, .ok ()) ∧
      (∀ id s, senders id = some s → s.Receives (w.handedTo id)) ∧
      ∀ id, senders id = none → w.handedTo id = [] := by
  let gids : UInt16 → Option GlobalId := fun id =>
    (senders id).bind fun s => (s.newMeta id).seenGlobalId readSourceAndLocal
  have hinj : ∀ id id' gid, gids id = some gid → gids id' = some gid → id = id' := by
    intro id id' gid hid hid'
    obtain ⟨s, hs, hseen⟩ := Option.bind_eq_some_iff.mp hid
    obtain ⟨s', hs', hseen'⟩ := Option.bind_eq_some_iff.mp hid'
    exact hgids id id' s s' gid hs hs' hseen hseen'
  have hlane := fun id => Sender.exists_lane (senders id) (haccepted id)
  choose lanes hsends hready hreceives hnone using hlane
  obtain ⟨w, hserve, hholds⟩ := (holds_new readSourceAndLocal allowedNetwork gids).serve hinj henv
    hcarrier hsends hready hwhole hcontents
  have hhanded : ∀ id, w.handedTo id = delivered (lanes id).payloads := by
    intro id
    rw [hholds.handedTo_eq]
    exact Lane.getD_total (lanes id)
  refine ⟨w, hserve, fun id s hs => ?_, fun id hs => ?_⟩
  · rw [hhanded]
    exact hreceives id s hs
  · rw [hhanded, hnone id hs]
    rfl

/-- A packet that is longer than a buffer ends the whole carrier. -/
theorem serve_oversized (rsl : Bool) (net : Option Network) {s : Sender}
    {id : UInt16} {buf : Buffer} {rest : Bytes} {rd : PieceReader} (he : (s.writer id).Encodable)
    (hr : rsl = true → (s.writer id).getNextFrameMeta.SourceReadable)
    (htype : s.transferType = .packet) (hw : s.writes = [⟨[buf]⟩])
    (hl : DEFAULT_SIZE < buf.len) (hs : buf.len < UInt16.size) (hwh : rd.Whole)
    (hc : rd.contents = (s.frames id).flatten ++ rest) (env : Nat → Surroundings) :
    (serve env (new rsl net) rd).2 = .error (.invalidFrame .exceedsCapacity) := by
  obtain ⟨hdr, hh, fs, hf⟩ := s.frames_of_packet he htype hw (Nat.zero_lt_of_lt hl)
  rw [hf, flatten_cons, append_assoc] at hc
  obtain ⟨-, hfo, hd⟩ := s.writer_fields id
  have hst : ((s.writer id).nextMeta (some buf.bytes)).sessionStatus = .new := by
    rw [sessionStatus_nextMeta, nextStatus, hfo]
    rfl
  obtain ⟨m, hre, hm⟩ := readMeta_new hst hd hh hr
  have hdata : m.hasData = true := by
    rw [hasData, hm.option]
    exact (s.writer id).hasData_nextMeta (some buf.bytes)
  have hfa := readFrame_oversized hh hdata hre (buf.length_bytes ▸ hl)
    (buf.length_bytes ▸ hs) hwh hc
  have hp : (new rsl net).processFrame (env 0) rd =
      (new rsl net, .error (.invalidFrame .exceedsCapacity)) :=
    processFrame_error rfl hfa
  rw [serve_error hp]

def oversized : Buffer :=
  ⟨.frozen (replicate 8193 0), 0, 8193, none, Nat.zero_le _, length_replicate.ge, Nat.le_refl _⟩

theorem serve_oversized_zeros :
    let s : Sender := ⟨⟨.ipv4 (.new 1 1 1 1), 53, .udp⟩, .packet, none, none, [⟨[oversized]⟩]⟩
    (serve (fun _ => obliging) (new false none) ⟨(s.frames 1).flatten, []⟩).2 =
      .error (.invalidFrame .exceedsCapacity) :=
  serve_oversized false none ⟨_, rfl⟩ (by simp) rfl rfl (by decide) (by decide) (by nofun) rfl _

def bufferOf (b : Bytes) : Buffer := (Buffer.new.writeFrom b).1

def pair (first second : Sender) (id : UInt16) : Option Sender :=
  if id = 1 then some first else if id = 2 then some second else none

theorem of_pair {first second s : Sender} {id : UInt16} (h : pair first second id = some s) :
    id = 1 ∧ s = first ∨ id = 2 ∧ s = second := by
  unfold pair at h
  split at h
  · next hid => exact .inl ⟨hid, (Option.some.inj h).symm⟩
  · split at h
    · next hid => exact .inr ⟨hid, (Option.some.inj h).symm⟩
    · cases h

theorem interleaves_pair
    (hf : itemsOf 1 carrier = fst.frames 1) (hs : itemsOf 2 carrier = snd.frames 2)
    (ho : ∀ item ∈ carrier, item.1 = 1 ∨ item.1 = 2) :
    Interleaves (fun id => ((pair fst snd id).map (·.frames id)).getD []) carrier := by
  intro id
  unfold pair
  by_cases h1 : id = 1
  · subst h1
    exact hf
  by_cases h2 : id = 2
  · subst h2
    exact hs
  dsimp only
  rw [if_neg h1, if_neg h2]
  refine filterMap_eq_nil_iff.mpr fun item hi => if_neg ?_
  rintro rfl
  exact (ho item hi).elim h1 h2

def oneOneOneOne (network : Network) : Destination := ⟨.ipv4 (.new 1 1 1 1), 53, network⟩

def streamSender : Sender := ⟨oneOneOneOne .tcp, .stream, none, none, [⟨[bufferOf [1, 2]]⟩]⟩

def packetSender : Sender :=
  ⟨oneOneOneOne .udp, .packet, some nines, none, [⟨[bufferOf [3], bufferOf [4]]⟩]⟩

def mixedCarrier : List (UInt16 × Bytes) :=
  [(2, (packetSender.frames 2).getD 0 []), (1, (streamSender.frames 1).getD 0 []),
    (2, (packetSender.frames 2).getD 1 [])]

theorem serve_hands_over_mixed :
    ∃ w, serve (fun _ => obliging) (new false none) ⟨mixedCarrier.flatMap (·.2), []⟩ = (w, .ok ()) ∧
      (w.handedTo 1).flatten = [1, 2] ∧ w.handedTo 2 = [[3], [4]] := by
  have haccepted : ∀ id s, pair streamSender packetSender id = some s →
      s.Accepted false none id := by
    intro id s hs
    rcases of_pair hs with ⟨rfl, rfl⟩ | ⟨rfl, rfl⟩
    · refine ⟨⟨_, rfl⟩, ?_, ?_, ?_⟩
      · nofun
      · nofun
      · nofun
    · refine ⟨⟨_, rfl⟩, ?_, ?_, fun _ => by decide⟩
      · nofun
      · nofun
  have hgids : ∀ id id' s s' gid, pair streamSender packetSender id = some s →
      pair streamSender packetSender id' = some s' → (s.newMeta id).seenGlobalId false = some gid →
      (s'.newMeta id').seenGlobalId false = some gid → id = id' := by
    have htwo : ∀ id s gid, pair streamSender packetSender id = some s →
        (s.newMeta id).seenGlobalId false = some gid → id = 2 := by
      intro id s gid hs hseen
      rcases of_pair hs with ⟨rfl, rfl⟩ | ⟨rfl, rfl⟩
      · have hnone : (streamSender.newMeta 1).seenGlobalId false = none := by decide +kernel
        cases hnone.symm.trans hseen
      · rfl
    intro id id' s s' gid hs hs' hseen hseen'
    exact (htwo id s gid hs hseen).trans (htwo id' s' gid hs' hseen').symm
  obtain ⟨w, hserve, hreceives, -⟩ := serve_hands_over false none
    (pair streamSender packetSender) haccepted hgids mixedCarrier
    (interleaves_pair (by decide +kernel) (by decide +kernel) (by decide +kernel))
    ⟨mixedCarrier.flatMap (·.2), []⟩ (nofun) (append_nil _)
    (fun _ => obliging) fun _ => ⟨fun _ => rfl, fun _ _ _ => rfl, rfl, rfl⟩
  exact ⟨w, hserve, hreceives 1 streamSender rfl, hreceives 2 packetSender rfl⟩

def firstHolder : Sender :=
  ⟨oneOneOneOne .udp, .packet, some nines, none, [⟨[bufferOf [1]]⟩, ⟨[bufferOf [3]]⟩]⟩

def secondHolder : Sender :=
  ⟨oneOneOneOne .udp, .packet, some nines, none, [⟨[bufferOf [2]]⟩]⟩

def takeoverCarrier : List (UInt16 × Bytes) :=
  [(1, (firstHolder.frames 1).getD 0 []), (2, (secondHolder.frames 2).getD 0 []),
    (1, (firstHolder.frames 1).getD 1 [])]

/-- The second session takes over the link of the first, and the first one's later
packet is lost. -/
theorem taken_over_session_loses_packets :
    Interleaves (fun id => ((pair firstHolder secondHolder id).map (·.frames id)).getD [])
        takeoverCarrier ∧
      ¬∃ w, serve (fun _ => obliging) (new false none) ⟨takeoverCarrier.flatMap (·.2), []⟩ =
          (w, .ok ()) ∧ ∀ id s, pair firstHolder secondHolder id = some s →
          s.Receives (w.handedTo id) := by
  refine ⟨interleaves_pair (by decide +kernel) (by decide +kernel) (by decide +kernel), ?_⟩
  rintro ⟨w, hserve, hreceives⟩
  have hfirst := hreceives 1 firstHolder rfl
  have hlost : (serve (fun _ => obliging) (new false none)
      ⟨takeoverCarrier.flatMap (·.2), []⟩).1.handedTo 1 = [] := by
    decide +kernel
  rw [hserve] at hlost
  rw [hlost] at hfirst
  cases hfirst

end ServerWorker

end XrayCore.Mux
