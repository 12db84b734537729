import XrayCore.Vless.VisionFrames

/-!
# The channels of a Vision connection

A direction that left padding mode with `Direct` is to use the raw socket, and one that left it with
`End` the inner connection. `Modes` is what the connection goes by: the two modes, and one bit for
the raw socket that both directions share. A direction is on the other's channel exactly if one of
them ended with `End`, or has not ended, and the other with `Direct`.
-/

namespace XrayCore.Vless.Vision

open Lib VisionConn

structure Modes where
  up : Bool
  down : Bool
  raw : Bool

namespace Modes

def channel (m : Modes) : Channel := if m.raw then .raw else .inner

inductive Step : Modes → Event → Modes → Prop
  | read (m : Modes) : Step m (.read (if m.down then .inner else m.channel)) m
  | readEnd {m : Modes} : m.down = true →
    Step m (.readLeft COMMAND_PADDING_END) { m with down := false }
  | readDirect {m : Modes} : m.down = true →
    Step m (.readLeft COMMAND_PADDING_DIRECT) { m with down := false, raw := true }
  | framed (m : Modes) (bytes : Bytes) : Step m (.framed bytes) m
  | gate (m : Modes) (ready : Bool) : Step m (.gate ready) m
  | took (m : Modes) (presented : Bytes) (n : Nat) : Step m (.took presented n) m
  | plain {m : Modes} (bytes : Bytes) : m.up = false → Step m (.plain m.channel bytes) m
  | flush (m : Modes) : Step m (.flush m.channel) m
  | shutdown (m : Modes) : Step m (.shutdown m.channel) m
  | writeEnd {m : Modes} : m.up = true →
    Step m (.writeLeft COMMAND_PADDING_END) { m with up := false }
  | writeDirect {m : Modes} : m.up = true →
    Step m (.writeLeft COMMAND_PADDING_DIRECT) { m with up := false, raw := true }

structure Tracks (m : Modes) (history : List Event) : Prop where
  down : m.down = false ↔ .readLeft COMMAND_PADDING_END ∈ history ∨
    .readLeft COMMAND_PADDING_DIRECT ∈ history
  downOnce : ¬(.readLeft COMMAND_PADDING_END ∈ history ∧ .readLeft COMMAND_PADDING_DIRECT ∈ history)
  up : m.up = false ↔ .writeLeft COMMAND_PADDING_END ∈ history ∨
    .writeLeft COMMAND_PADDING_DIRECT ∈ history
  upOnce : ¬(.writeLeft COMMAND_PADDING_END ∈ history ∧ .writeLeft COMMAND_PADDING_DIRECT ∈ history)
  raw : m.raw = true ↔ .readLeft COMMAND_PADDING_DIRECT ∈ history ∨
    .writeLeft COMMAND_PADDING_DIRECT ∈ history

theorem Tracks.start : Tracks ⟨true, true, false⟩ [] := by
  constructor <;> simp

theorem end_ne_direct : COMMAND_PADDING_END ≠ COMMAND_PADDING_DIRECT := by decide

theorem Tracks.step (h : Tracks m history) (hs : Step m e m') : Tracks m' (history ++ [e]) := by
  obtain ⟨hd, hdo, hup, hu, hr⟩ := h
  have hne := end_ne_direct
  have hne' := end_ne_direct.symm
  cases hs with
  | readEnd hon | readDirect hon | writeEnd hon | writeDirect hon | _ => constructor <;> simp_all

end Modes

def Event.OnOwnChannel (before : List Event) : Event → Prop
  | .read channel => channel = .raw ↔ .readLeft COMMAND_PADDING_DIRECT ∈ before
  | .plain channel _ => channel = .raw ↔ .writeLeft COMMAND_PADDING_DIRECT ∈ before
  | .flush channel => channel = .raw ↔ .writeLeft COMMAND_PADDING_DIRECT ∈ before
  | .shutdown channel => channel = .raw ↔ .writeLeft COMMAND_PADDING_DIRECT ∈ before
  | _ => True

/-- The direction of the event ended with `End`, or writing has not ended with `Direct`, and the
other one ended with `Direct`. -/
def Event.Crossed (before : List Event) : Event → Prop
  | .read _ => .readLeft COMMAND_PADDING_END ∈ before ∧ .writeLeft COMMAND_PADDING_DIRECT ∈ before
  | .plain _ _ =>
    .writeLeft COMMAND_PADDING_END ∈ before ∧ .readLeft COMMAND_PADDING_DIRECT ∈ before
  | .flush _ =>
    .writeLeft COMMAND_PADDING_DIRECT ∉ before ∧ .readLeft COMMAND_PADDING_DIRECT ∈ before
  | .shutdown _ =>
    .writeLeft COMMAND_PADDING_DIRECT ∉ before ∧ .readLeft COMMAND_PADDING_DIRECT ∈ before
  | _ => False

namespace Modes

theorem channel_eq_raw (m : Modes) : m.channel = .raw ↔ m.raw = true := by
  unfold channel
  split <;> simp_all

theorem shared_iff (mine other : Prop) : (mine ∨ other ↔ mine) ↔ ¬(¬mine ∧ other) := by
  by_cases hm : mine <;> simp [hm]

theorem shared_iff_of_once (hl : ended ∨ mine)
    (ho : ¬(ended ∧ mine)) : (mine ∨ other ↔ mine) ↔ ¬(ended ∧ other) := by
  have he : ¬mine ↔ ended := ⟨hl.resolve_right, fun he hm => ho ⟨he, hm⟩⟩
  rw [shared_iff, he]

theorem Tracks.own_iff (h : Tracks m before)
    (hs : Step m e m') : e.OnOwnChannel before ↔ ¬e.Crossed before := by
  obtain ⟨hd, hdo, hup, hu, hr⟩ := h
  have hc := m.channel_eq_raw
  cases hs with
  | read =>
    cases hm : m.down with
    | true =>
      simp_all [Event.OnOwnChannel, Event.Crossed]
    | false =>
      simp only [Event.OnOwnChannel, Event.Crossed, Bool.false_eq_true, if_false, hc, hr]
      exact shared_iff_of_once (hd.mp hm) hdo
  | plain b ho =>
    simp only [Event.OnOwnChannel, Event.Crossed, hc, hr]
    rw [or_comm]
    exact shared_iff_of_once (hup.mp ho) hu
  | flush | shutdown =>
    simp only [Event.OnOwnChannel, Event.Crossed, hc, hr]
    rw [or_comm]
    exact shared_iff _ _
  | _ => simp [Event.OnOwnChannel, Event.Crossed]

end Modes

def modes (conn : VisionConn) : Modes :=
  ⟨conn.uplinkPadding, conn.downlinkPadding, conn.rawFallback.isSome⟩

def Spliceable (conn : VisionConn) : Prop :=
  ((conn.rawFallback.or conn.rawTcp).or conn.innerRawTcp).isSome = true

variable {conn : VisionConn}

theorem Spliceable.armed (h : Spliceable conn) : conn.armRaw.rawFallback.isSome = true := by
  unfold armRaw
  unfold Spliceable at h
  cases hr : conn.rawFallback with
  | none => simpa [hr] using h
  | some raw => simp [hr]

theorem Spliceable.of_armed (h : conn.rawFallback.isSome = true) : Spliceable conn := by
  unfold Spliceable
  cases hr : conn.rawFallback with
  | none => simp [hr] at h
  | some raw => simp

theorem modes_armRaw (h : Spliceable conn) :
    modes conn.armRaw = { modes conn with raw := true } := by
  have ha := h.armed
  unfold modes
  rw [ha]
  unfold armRaw
  split <;> rfl

theorem modes_leave_direct (h : Spliceable conn) :
    modes (leave conn COMMAND_PADDING_DIRECT) = { modes conn with up := false, raw := true } := by
  have hs : Spliceable { conn with
    spliceArmed := false, uplinkPadding := false, rawWriteGate := true } := h
  exact modes_armRaw hs

theorem pollRead_path (h : conn.pollRead room inn raw = some step) (hs : Spliceable conn) :
    Spliceable step.conn ∧ Path Modes.Step (modes conn) step.events (modes step.conn) := by
  refine pollRead_rule (P := fun conn log conn' => Spliceable conn →
    Spliceable conn' ∧ Path Modes.Step (modes conn) log (modes conn'))
    (fun conn p hs => ⟨hs, .nil _⟩)
    (fun conn hs => ⟨hs, .single (.read (modes conn))⟩) ?_ h hs
  intro conn pi conn' evs log conn'' hp hpi hrest hs
  obtain ⟨s, p, t, hc⟩ := unpadPiece_some hpi
  have hr : Modes.Step (modes conn) (.read .inner) (modes conn) := by
    have h := Modes.Step.read (modes conn)
    have hd : (modes conn).down = true := hp
    rwa [if_pos hd] at h
  have hf : Spliceable conn' ∧ Path Modes.Step (modes conn) evs (modes conn') := by
    rcases hc with ⟨rfl, rfl⟩ | ⟨rfl, rfl⟩ | ⟨rfl, rfl⟩
    · exact ⟨hs, .nil _⟩
    · exact ⟨hs, .single (.readEnd hp)⟩
    · refine ⟨.of_armed hs.armed, .single ?_⟩
      have hm : { modes conn.armRaw with down := false } =
          { modes conn with down := false, raw := true } := by
        rw [modes_armRaw hs]
      have hst : Modes.Step (modes conn) (.readLeft COMMAND_PADDING_DIRECT)
        { modes conn with down := false, raw := true } := .readDirect hp
      rw [← hm] at hst
      exact hst
  obtain ⟨hs', hl⟩ := hrest hf.1
  exact ⟨hs', .cons hr (hf.2.append hl)⟩

theorem Framing.path (h : Framing pushes bytes) (m : Modes) : Path Modes.Step m pushes m := by
  rcases h with rfl | ⟨rfl, -⟩
  · exact .single (.framed m bytes)
  · exact .nil m

theorem Front.path (h : Front conn frame frames step) (hpa : conn.uplinkPadding = true)
    (hs : Spliceable conn) :
    Spliceable step.conn ∧ Path Modes.Step (modes conn) step.events (modes step.conn) := by
  cases h with
  | waits _ hp hg =>
    refine ⟨hs, (hp.path _).append ?_⟩
    rcases hg with rfl | rfl
    · exact .nil _
    · exact .single (.gate _ _)
  | passes _ hp => exact ⟨hs, hp.path _⟩
  | leaves _ hp hc =>
    rcases hc with rfl | rfl
    · exact ⟨hs, (hp.path _).append (.cons (.gate _ _) (.single (.writeEnd hpa)))⟩
    have hm := modes_leave_direct hs
    refine ⟨?_, (hp.path _).append (.cons (.gate _ _) (.single ?_))⟩
    · exact .of_armed (congrArg Modes.raw hm)
    have hst : Modes.Step (modes conn) (.writeLeft COMMAND_PADDING_DIRECT)
      { modes conn with up := false, raw := true } := .writeDirect hpa
    rw [← hm] at hst
    exact hst

theorem apply_path (h : QueueOk conn ∧ Spliceable conn) (hop : conn.apply op = some (conn', log)) :
    (QueueOk conn' ∧ Spliceable conn') ∧ Path Modes.Step (modes conn) log (modes conn') := by
  obtain ⟨hok, hs⟩ := h
  have hok' := hok.apply hop
  suffices h : Spliceable conn' ∧ Path Modes.Step (modes conn) log (modes conn') from
    ⟨⟨hok', h.1⟩, h.2⟩
  cases op with
  | read room i raw =>
    obtain ⟨step, hst, heq⟩ := Option.map_eq_some_iff.mp hop
    cases heq
    exact pollRead_path hst hs
  | flush a =>
    cases hop
    exact ⟨hs, .single (.flush (modes conn))⟩
  | shutdown a =>
    cases hop
    exact ⟨hs, .single (.shutdown (modes conn))⟩
  | write bufs a draw =>
    obtain ⟨step, hst, heq⟩ := Option.map_eq_some_iff.mp hop
    cases heq
    suffices h : Spliceable step.conn ∧ Path Modes.Step (modes conn) step.events (modes step.conn)
      from ⟨h.1, h.2.append (.single (.took _ _ _))⟩
    cases pollWriteVectored_writes hst with
    | queue hq =>
      have hf := writeFront_front hq (hok.front_armed hq) a
      exact hf.path (hok.padding (by simp [hq])) hs
    | plain hq hp =>
      obtain ⟨⟨gate, hc⟩, he⟩ := writePlain_cases conn bufs a
      rw [hc]
      refine ⟨hs, ?_⟩
      rcases he with ⟨he, -⟩ | ⟨n, he, -⟩
      · rw [he]
        exact .nil _
      · rw [he]
        exact .single (.plain _ hp)
    | nothing => exact ⟨hs, .nil _⟩
    | batch hq hp hb hq' =>
      have hok' := QueueOk.batch hq hp hb
      have hf := writeFront_front hq' (hok'.front_armed hq') a
      obtain ⟨t, uuid, f, ar, c, b, rfl, -⟩ := frameBatch_some hb
      exact hf.path hp hs

structure Opened (conn : VisionConn) : Prop extends Unwritten conn where
  down : conn.downlinkPadding = true
  raw : conn.rawFallback = none
  clone : (conn.rawTcp.or conn.innerRawTcp).isSome = true

theorem opened_new (uuid : Bytes) (tcp : TcpStream) : Opened (.new uuid (some tcp)) :=
  ⟨⟨rfl, rfl⟩, rfl, rfl, rfl⟩

/-- In every run, an event is on the channel of its own direction exactly if the directions did not
end differently before. -/
theorem own_channel_iff {start conn : VisionConn} (hstart : Opened start) {ops : List Op}
    {history : List Event} (hrun : start.run ops = some (conn, history)) {before after : List Event}
    {e : Event} (hevent : history = before ++ e :: after) :
    e.OnOwnChannel before ↔ ¬e.Crossed before := by
  have hsplice : Spliceable start := by
    unfold Spliceable
    rw [hstart.raw, Option.none_or]
    exact hstart.clone
  have hpath : Path Modes.Step (modes start) history (modes conn) :=
    path_of_logged (fun _ _ _ _ h hop => apply_path h hop) ⟨.of_nil hstart.pending, hsplice⟩ hrun
  rw [hevent] at hpath
  obtain ⟨m, m', hbefore, hstep⟩ := hpath.at_label
  have hmodes : modes start = ⟨true, true, false⟩ := by
    rw [modes, hstart.padding, hstart.down, hstart.raw]
    rfl
  rw [hmodes] at hbefore
  have htracks : Modes.Tracks m ([] ++ before) :=
    Path.invariant (fun _ _ _ _ h hstep => h.step hstep) .start hbefore
  exact htracks.own_iff hstep

/-- A client that reads a block with `End` and reads on is on its own channel. -/
theorem own_channel_client : ∃ conn, (new someUuid (some 5)).run
        [.read 10 [.piece (someUuid ++ [1, 0, 0, 0, 0]), .piece [97]] []] =
          some (conn, [.read .inner, .readLeft COMMAND_PADDING_END, .read .inner]) ∧
      (Event.read .inner).OnOwnChannel [.read .inner, .readLeft COMMAND_PADDING_END] := by
  have hlog : ((new someUuid (some 5)).run
      [.read 10 [.piece (someUuid ++ [1, 0, 0, 0, 0]), .piece [97]] []]).map Prod.snd =
        some [.read .inner, .readLeft COMMAND_PADDING_END, .read .inner] := by
    decide +kernel
  obtain ⟨⟨conn, history⟩, hrun, rfl⟩ := Option.map_eq_some_iff.mp hlog
  have hevent : [Event.read .inner, .readLeft COMMAND_PADDING_END, .read .inner] =
    [.read .inner, .readLeft COMMAND_PADDING_END] ++ .read .inner :: [] := rfl
  exact ⟨conn, hrun, (own_channel_iff (opened_new someUuid 5) hrun hevent).mpr
    (by simp [Event.Crossed])⟩

def sevenWrites : List Op :=
  List.replicate 7 (.write [[97]] [.ready 1000, .ready 0] fun _ => 0) ++
    [.read 10 [.piece (someUuid ++ [2, 0, 0, 0, 0])] [.pending],
      .write [[98]] [.ready 1] fun _ => 0, .flush [], .shutdown []]

/-- What happens before the last write. The seventh byte ends the padding with `End`, since the
server has seen no TLS. -/
def sevenWritten : List Event :=
  [.framed (someUuid ++ [0, 0, 1, 0, 0, 97]), .took [97] 1] ++
    (List.replicate 5 [.framed [0, 0, 1, 0, 0, 97], .took [97] 1]).flatten ++
    [.framed [1, 0, 1, 0, 0, 97], .gate true, .writeLeft COMMAND_PADDING_END, .took [97] 1] ++
    [.read .inner, .readLeft COMMAND_PADDING_DIRECT, .read .raw]

/-- The server's next byte goes to the raw socket, and so do its flush and its shutdown. -/
theorem write_follows_peer : ((newServer someUuid 5 none).run sevenWrites).map Prod.snd =
        some (sevenWritten ++ [.plain .raw [98], .took [98] 1, .flush .raw, .shutdown .raw]) ∧
      .writeLeft COMMAND_PADDING_END ∈ sevenWritten ∧
      .writeLeft COMMAND_PADDING_DIRECT ∉ sevenWritten := by
  decide +kernel

end XrayCore.Vless.Vision
