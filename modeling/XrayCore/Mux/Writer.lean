import XrayCore.Buf.MultiBuffer
import XrayCore.Mux.FrameCodec
import XrayCore.Mux.Session

/-!
# The writing end of a session

`xray-mux`'s `MuxWriter` cuts what is written on one session into frames. Each frame
goes to the carrier in one write, so on a carrier that several writers share the frames
stand in some order, each of them whole. The carrier takes every frame; what a writer
puts on it is a list of frames.
-/

namespace XrayCore.Mux

open Lib Net List
open Buf (MultiBuffer)
open XrayCore.Xudp (GlobalId)

def STREAM_CHUNK_SIZE : Nat := 8 * 1024

/-- The error as `{:?}` prints it. The texts of `io` have nothing to escape. -/
def MuxError.debug : MuxError → String
  | .metadataTooLong len => s!"MetadataTooLong({len})"
  | .invalidSessionStatus byte => s!"InvalidSessionStatus({byte})"
  | .invalidTargetNetwork byte => s!"InvalidTargetNetwork({byte})"
  | .addressParseFailed => "AddressParseFailed"
  | .io reason => "Io(\"" ++ reason ++ "\")"
  | .insufficientData expected actual =>
    s!"InsufficientData \x7b expected: {expected}, actual: {actual} \x7d"

structure MuxWriter where
  dest : Option Destination
  id : UInt16
  followup : Bool
  transferType : TransferType
  globalId : Option GlobalId
  inbound : Option (Destination × Destination)
  deriving DecidableEq

namespace MuxWriter

def new (id : UInt16) (dest : Destination) (transferType : TransferType)
    (globalId : Option GlobalId) : MuxWriter :=
  ⟨some dest, id, false, transferType, globalId, none⟩

def withInbound (w : MuxWriter) (source localDest : Destination) : MuxWriter :=
  { w with inbound := some (source, localDest) }

def nextStatus (w : MuxWriter) : SessionStatus := if w.followup then .keep else .new

def getNextFrameMeta (w : MuxWriter) : FrameMetadata :=
  { FrameMetadata.new w.id w.nextStatus 0 with
    target := w.dest
    globalId := w.globalId
    source := if w.nextStatus = .new then w.inbound.map (·.1) else none
    localDest := if w.nextStatus = .new then w.inbound.map (·.2) else none }

def advance (w : MuxWriter) : MuxWriter := { w with followup := true }

def metaFrame (m : FrameMetadata) : Except MuxError Bytes :=
  m.toBytes.mapError fun error => .io ("meta: " ++ error.debug)

/-- The frame of `write_meta_with_frame`. The data's length is cut to 16 bits. -/
def dataFrame (m : FrameMetadata) (data : Bytes) : Except MuxError Bytes := do
  let header ← metaFrame m
  return header ++ be16 (UInt16.ofNat data.length) ++ data

def nextFrame (w : MuxWriter) : Option Bytes → Except MuxError Bytes
  | none => metaFrame w.getNextFrameMeta
  | some data => dataFrame (w.getNextFrameMeta.setOption OPTION_DATA) data

def nextChunk (transferType : TransferType) (mb : MultiBuffer) :
    Option (MultiBuffer × MultiBuffer) :=
  match transferType with
  | .stream => some (mb.splitSize STREAM_CHUNK_SIZE)
  | .packet => mb.splitFirst.map fun (buf, rest) => (MultiBuffer.new.push buf, rest)

def left : TransferType → MultiBuffer → Nat
  | .stream, mb => mb.toVec.length
  | .packet, mb => mb.buffers.length

variable {transferType : TransferType} {mb : MultiBuffer}

theorem left_nextChunk
    (hmb : mb.isEmpty ≠ true) (h : nextChunk transferType mb = some (chunk, rest)) :
    left transferType rest < left transferType mb := by
  cases transferType with
  | stream =>
    have hp : 0 < mb.toVec.length := length_pos_of_ne_nil fun hn => hmb (mb.isEmpty_iff.mpr hn)
    have hs : mb.splitSize STREAM_CHUNK_SIZE = (chunk, rest) := Option.some.inj h
    have hrest := (mb.splitSize_content STREAM_CHUNK_SIZE).2
    rw [hs] at hrest
    rw [left, left, hrest, length_drop]
    exact Nat.sub_lt hp (by decide)
  | packet =>
    obtain ⟨b⟩ := mb
    cases b with
    | nil => cases h
    | cons buf b =>
      cases h
      exact Nat.lt_succ_self _

def writeLoop (w : MuxWriter) (mb : MultiBuffer) : MuxWriter × List Bytes × Except MuxError Unit :=
  if mb.isEmpty then (w, [], .ok ())
  else
    match _ : nextChunk w.transferType mb with
    | none => (w, [], .ok ())
    | some (chunk, rest) =>
      match w.nextFrame (some chunk.toVec) with
      | .error error => (w.advance, [], .error error)
      | .ok frame =>
        let (w, frames, result) := writeLoop w.advance rest
        (w, frame :: frames, result)
termination_by left w.transferType mb
decreasing_by
  rename_i hmb h
  exact left_nextChunk hmb h

def write (w : MuxWriter) (mb : MultiBuffer) : MuxWriter × List Bytes × Except MuxError Unit :=
  if mb.isEmpty then
    match w.nextFrame none with
    | .error error => (w.advance, [], .error error)
    | .ok frame => (w.advance, [frame], .ok ())
  else w.writeLoop mb

def writeAll (w : MuxWriter) : List MultiBuffer → List Bytes
  | [] => []
  | mb :: mbs =>
    let (w, frames, _) := w.write mb
    frames ++ w.writeAll mbs

theorem exists_toBytes_iff {m : FrameMetadata} : (∃ b, m.toBytes = .ok b) ↔
    ∃ fields, m.fieldBytes = .ok fields ∧ fields.length + 4 ≤ MAX_METADATA_LEN := by
  have hl : ∀ fields : Bytes,
      (be16 m.sessionId ++ m.sessionStatus.toByte :: m.option :: fields).length =
        fields.length + 4 := by
    intro fields
    simp
    omega
  constructor
  · rintro ⟨b, hb⟩
    obtain ⟨fields, hf, hb⟩ := bind_ok.mp hb
    refine ⟨fields, hf, ?_⟩
    dsimp only at hb
    split at hb
    · cases hb
    · next hm => exact hl fields ▸ not_lt.mp hm
  · rintro ⟨fields, hf, hm⟩
    let content := be16 m.sessionId ++ m.sessionStatus.toByte :: m.option :: fields
    refine ⟨be16 (UInt16.ofNat content.length) ++ content, bind_ok.mpr ⟨fields, hf, ?_⟩⟩
    exact if_neg (not_lt.mpr (hl fields ▸ hm))

def nextMeta (w : MuxWriter) : Option Bytes → FrameMetadata
  | none => w.getNextFrameMeta
  | some _ => w.getNextFrameMeta.setOption OPTION_DATA

section Fields

variable (w : MuxWriter) (payload : Option Bytes)

theorem sessionId_nextMeta : (w.nextMeta payload).sessionId = w.id := by
  cases payload <;> rfl

theorem sessionStatus_nextMeta : (w.nextMeta payload).sessionStatus = w.nextStatus := by
  cases payload <;> rfl

theorem target_nextMeta : (w.nextMeta payload).target = w.dest := by
  cases payload <;> rfl

theorem hasData_nextMeta : (w.nextMeta payload).hasData = payload.isSome := by
  cases payload with
  | none =>
    show FrameMetadata.has 0 OPTION_DATA = false
    decide
  | some data =>
    show FrameMetadata.has (0 ||| OPTION_DATA) OPTION_DATA = true
    decide

end Fields

def behind : Option Bytes → Bytes
  | none => []
  | some data => be16 (UInt16.ofNat data.length) ++ data

theorem metaFrame_ok : metaFrame m = .ok header ↔ m.toBytes = .ok header := by
  unfold metaFrame
  cases m.toBytes <;> simp [Except.mapError]

variable {w : MuxWriter}

theorem nextFrame_ok : w.nextFrame payload = .ok frame ↔
      ∃ hdr, (w.nextMeta payload).toBytes = .ok hdr ∧ frame = hdr ++ behind payload := by
  cases payload with
  | none => simp [nextFrame, nextMeta, behind, metaFrame_ok]
  | some data =>
    rw [nextFrame, dataFrame, bind_ok]
    refine exists_congr fun hdr => and_congr metaFrame_ok ?_
    rw [behind, ← append_assoc]
    exact ⟨fun h => by cases h; rfl, fun h => by rw [h]; rfl⟩

def Encodable (w : MuxWriter) : Prop := ∃ header, w.getNextFrameMeta.toBytes = .ok header

theorem Encodable.nextFrame (h : w.Encodable) (pl : Option Bytes) :
    ∃ frame, w.nextFrame pl = .ok frame := by
  obtain ⟨f, hf, hma⟩ := exists_toBytes_iff.mp h
  have hm : ∃ header, (w.nextMeta pl).toBytes = .ok header := by
    cases pl with
    | none => exact h
    | some data => exact exists_toBytes_iff.mpr ⟨f, hf, hma⟩
  obtain ⟨header, hh⟩ := hm
  exact ⟨header ++ behind pl, nextFrame_ok.mpr ⟨header, hh, rfl⟩⟩

theorem Encodable.advance (h : w.Encodable) : w.advance.Encodable := by
  obtain ⟨dest, id, f, tt, gi, i⟩ := w
  cases f with
  | true => exact h
  | false =>
    obtain ⟨fi, hf, hm⟩ := exists_toBytes_iff.mp h
    obtain ⟨tb, e, -, rfl, hta⟩ := FrameMetadata.fieldBytes_new rfl hf
    refine exists_toBytes_iff.mpr ?_
    rcases hta with ⟨hn, -⟩ | ⟨t, ht, htb⟩
    · cases hn
      exact ⟨[], rfl, by decide⟩
    cases ht
    by_cases hu : t.network = .udp
    · refine ⟨tb, ?_, ?_⟩
      · show (if t.network = .udp then writeTargetToVec t else .ok []) = .ok tb
        rw [if_pos hu, htb]
      · rw [length_append] at hm
        omega
    · refine ⟨[], ?_, by decide⟩
      show (if t.network = .udp then writeTargetToVec t else .ok []) = .ok []
      rw [if_neg hu]

inductive Sends : MuxWriter → List (Option Bytes) → List Bytes → Prop
  | nil (w : MuxWriter) : Sends w [] []
  | cons {w : MuxWriter} {payload : Option Bytes} {payloads : List (Option Bytes)} {frame : Bytes}
      {frames : List Bytes} : w.nextFrame payload = .ok frame → Sends w.advance payloads frames →
      Sends w (payload :: payloads) (frame :: frames)

def delivered (payloads : List (Option Bytes)) : List Bytes :=
  payloads.filterMap fun payload => payload.filter (· ≠ [])

theorem delivered_empty (payloads : List (Option Bytes)) :
    delivered (some [] :: payloads) = delivered payloads := rfl

theorem delivered_some (h : data ≠ []) (payloads : List (Option Bytes)) :
    delivered (some data :: payloads) = data :: delivered payloads := by
  unfold delivered
  rw [filterMap_cons, Option.filter_some, if_pos (decide_eq_true h)]

/-- What the payloads of some writes hold: all bytes of a stream, in chunks, or every
packet that is not empty. -/
def Cuts : TransferType → List MultiBuffer → List (Option Bytes) → Prop
  | .stream, mbs, payloads =>
    (delivered payloads).flatten = mbs.flatMap MultiBuffer.toVec ∧
      ∀ data, some data ∈ payloads → data.length ≤ STREAM_CHUNK_SIZE
  | .packet, mbs, payloads =>
    delivered payloads = (mbs.flatMap (·.buffers.map Buf.Buffer.bytes)).filter (· ≠ []) ∧
      ∀ data, some data ∈ payloads → ∃ mb ∈ mbs, ∃ buf ∈ mb.buffers, buf.bytes = data

theorem cuts_nil_of_isEmpty (transferType : TransferType)
    (h : mb.isEmpty = true) : Cuts transferType [mb] [] := by
  have hn := mb.isEmpty_iff.mp h
  cases transferType with
  | stream => exact ⟨by simp [delivered, hn], nofun⟩
  | packet =>
    have hb : ∀ buf ∈ mb.buffers, buf.bytes = [] := flatMap_eq_nil_iff.mp hn
    refine ⟨?_, nofun⟩
    simpa [delivered] using hb

variable {payloads : List (Option Bytes)}

theorem Cuts.append (h : Cuts transferType mbs payloads) (h' : Cuts transferType mbs' payloads') :
    Cuts transferType (mbs ++ mbs') (payloads ++ payloads') := by
  cases transferType with
  | stream =>
    refine ⟨?_, fun data hdata => ?_⟩
    · rw [delivered, filterMap_append, flatten_append, flatMap_append]
      exact congrArg₂ _ h.1 h'.1
    · exact (mem_append.mp hdata).elim (h.2 data) (h'.2 data)
  | packet =>
    refine ⟨?_, fun data hdata => ?_⟩
    · rw [delivered, filterMap_append, flatMap_append, filter_append]
      exact congrArg₂ _ h.1 h'.1
    rcases mem_append.mp hdata with hdata | hdata
    · obtain ⟨mb, hmb, hb⟩ := h.2 data hdata
      exact ⟨mb, mem_append_left _ hmb, hb⟩
    · obtain ⟨mb, hmb, hb⟩ := h'.2 data hdata
      exact ⟨mb, mem_append_right _ hmb, hb⟩

theorem Cuts.chunk {chunk rest : MultiBuffer}
    (hmb : mb.isEmpty ≠ true) (hc : nextChunk transferType mb = some (chunk, rest))
    (h : Cuts transferType [rest] payloads) :
    Cuts transferType [mb] (some chunk.toVec :: payloads) := by
  cases transferType with
  | stream =>
    have hs : mb.splitSize STREAM_CHUNK_SIZE = (chunk, rest) := Option.some.inj hc
    obtain ⟨ht, hd⟩ := mb.splitSize_content STREAM_CHUNK_SIZE
    rw [hs] at ht hd
    have hne : chunk.toVec ≠ [] := by
      rw [ht]
      intro hn
      rcases take_eq_nil_iff.mp hn with hz | hn
      · cases hz
      · exact hmb (mb.isEmpty_iff.mpr hn)
    refine ⟨?_, fun data hdata => ?_⟩
    · have hrest : (delivered payloads).flatten = rest.toVec := by simpa using h.1
      rw [delivered_some hne, flatten_cons, hrest, ht, hd, take_append_drop]
      simp
    rcases mem_cons.mp hdata with hdata | hdata
    · cases hdata
      rw [ht]
      exact length_take_le ..
    · exact h.2 data hdata
  | packet =>
    obtain ⟨b⟩ := mb
    cases b with
    | nil => cases hc
    | cons buf b =>
      cases hc
      have hv : (MultiBuffer.new.push buf).toVec = buf.bytes := by simp
      refine ⟨?_, fun data hdata => ?_⟩
      · have hrest : delivered payloads = (b.map Buf.Buffer.bytes).filter (· ≠ []) := by
          simpa using h.1
        rw [hv]
        by_cases hn : buf.bytes = []
        · rw [hn, delivered_empty, hrest]
          simp [hn]
        · rw [delivered_some hn, hrest]
          simp [hn]
      · rcases mem_cons.mp hdata with hdata | hdata
        · cases hdata
          exact ⟨_, mem_singleton_self _, buf, mem_cons_self .., hv.symm⟩
        · obtain ⟨mb, hmb, o, ho, hb⟩ := h.2 data hdata
          cases mem_singleton.mp hmb
          exact ⟨_, mem_singleton_self _, o, mem_cons_of_mem _ ho, hb⟩

def after (w : MuxWriter) : List (Option Bytes) → MuxWriter
  | [] => w
  | _ :: _ => w.advance

theorem after_advance (w : MuxWriter) (pls : List (Option Bytes)) :
    w.advance.after pls = w.advance := by
  cases pls <;> rfl

theorem Sends.append (h : Sends w payloads frames)
    (h' : Sends (w.after payloads) payloads' frames') :
    Sends w (payloads ++ payloads') (frames ++ frames') := by
  induction h with
  | nil => exact h'
  | cons hf _ ih => exact .cons hf (ih (by rwa [after_advance]))

theorem Encodable.writeLoop (h : w.Encodable) (mb : MultiBuffer) :
    ∃ pls, Sends w pls (w.writeLoop mb).2.1 ∧ (w.writeLoop mb).2.2 = .ok () ∧
      (w.writeLoop mb).1 = w.after pls ∧ Cuts w.transferType [mb] pls ∧
      (mb.isEmpty ≠ true → pls.head?.map Option.isSome = some true) := by
  fun_induction MuxWriter.writeLoop w mb with
  | case1 w mb hmb =>
    exact ⟨[], .nil w, rfl, rfl, cuts_nil_of_isEmpty _ hmb, fun hne => absurd hmb hne⟩
  | case2 w mb hmb hn =>
    refine absurd ?_ hmb
    obtain ⟨b⟩ := mb
    cases htype : w.transferType with
    | stream =>
      rw [htype] at hn
      cases hn
    | packet =>
      rw [htype] at hn
      cases b with
      | nil => rfl
      | cons buf b => cases hn
  | case3 w mb hmb chunk rest hc e he =>
    obtain ⟨f, hf⟩ := h.nextFrame (some chunk.toVec)
    cases hf.symm.trans he
  | case4 w mb hmb chunk rest hc f hf w' fr r hl ih =>
    obtain ⟨pls, hs, hr, ha, hcu, -⟩ := ih h.advance
    rw [hl] at hs hr ha
    rw [after_advance] at ha
    exact ⟨some chunk.toVec :: pls, .cons hf hs, hr, ha, hcu.chunk hmb hc, fun _ => rfl⟩

theorem Encodable.write (h : w.Encodable) (mb : MultiBuffer) :
    ∃ pls, Sends w pls (w.write mb).2.1 ∧ (w.write mb).2.2 = .ok () ∧
      (w.write mb).1 = w.after pls ∧ Cuts w.transferType [mb] pls ∧
      pls.head?.map Option.isSome = some (!mb.isEmpty) := by
  unfold MuxWriter.write
  cases hmb : mb.isEmpty with
  | true =>
    obtain ⟨f, hf⟩ := h.nextFrame none
    rw [if_pos rfl, hf]
    have hc := cuts_nil_of_isEmpty w.transferType hmb
    refine ⟨[none], .cons hf (.nil _), rfl, rfl, ?_, rfl⟩
    cases htype : w.transferType with
    | stream | packet =>
      rw [htype] at hc
      exact ⟨hc.1, fun data hdata => by cases mem_singleton.mp hdata⟩
  | false =>
    obtain ⟨pls, hs, hr, ha, hc, hh⟩ := h.writeLoop mb
    exact ⟨pls, hs, hr, ha, hc, hh (Bool.eq_false_iff.mp hmb)⟩

theorem Encodable.after (h : w.Encodable) (pls : List (Option Bytes)) :
    (w.after pls).Encodable := by
  cases pls with
  | nil => exact h
  | cons p pls => exact h.advance

theorem transferType_after (w : MuxWriter) (pls : List (Option Bytes)) :
    (w.after pls).transferType = w.transferType := by
  cases pls <;> rfl

theorem Encodable.writeAll (h : w.Encodable) (mbs : List MultiBuffer) :
    ∃ pls, Sends w pls (w.writeAll mbs) ∧ Cuts w.transferType mbs pls ∧
      pls.head?.map Option.isSome = mbs.head?.map (!·.isEmpty) := by
  induction mbs generalizing w with
  | nil =>
    refine ⟨[], .nil w, ?_, rfl⟩
    cases w.transferType with
    | stream | packet => exact ⟨rfl, nofun⟩
  | cons mb mbs ih =>
    obtain ⟨pls, hs, -, ha, hc, hh⟩ := h.write mb
    obtain ⟨p', hs', hc', -⟩ := ih (h.after pls)
    rw [transferType_after] at hc'
    refine ⟨pls ++ p', ?_, hc.append hc', ?_⟩
    · have hall := hs.append hs'
      rw [← ha] at hall
      exact hall
    · cases pls with
      | nil => cases hh
      | cons pa pls => exact hh

end MuxWriter

end XrayCore.Mux
