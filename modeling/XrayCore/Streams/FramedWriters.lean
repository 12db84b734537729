import XrayCore.Lib.Polling
import XrayCore.Vmess.Chunk

/-!
# Packets over a stream

A packet is written as one frame. A writer that is stopped in the middle of a frame is called again
with the same packet: it finishes the frame, and then builds another one. The writer of a link keeps
the call in flight instead, but a flush can be the one that finishes it.
-/

namespace XrayCore.Streams

open Lib List

structure Framing (σ : Type) where
  cap : Nat
  frame : σ → Bytes → Option (Bytes × σ)

/-- `write_udp_packet`; the address and port are `none` for a domain that is too long. -/
def TrojanUdpFramedConn.framing (addressPort : Option Bytes) : Framing Unit where
  cap := 8192
  frame _ payload := addressPort.map fun bytes =>
    (bytes ++ (be16 (UInt16.ofNat payload.length) ++ ([0x0d, 0x0a] ++ payload)), ())

def VlessUdpFramedConn.framing : Framing Unit where
  cap := 65535
  frame _ payload := some (be16 (UInt16.ofNat payload.length) ++ payload, ())

def VmessUdpConn.framing (cipher : Crypto.AeadCipher) (reqPadding : Bool) (fill : Nat → UInt8)
    (upChunkCap : Nat) : Framing Vmess.ChunkState where
  cap := upChunkCap
  frame st payload := (Vmess.writeOneChunk cipher reqPadding fill st payload).toOption

/-- A connection, what the inner writer took, the packets framed and those reported. `stalled`: some
frame was not out when the call that built it returned. -/
structure Framed (σ : Type) where
  encoder : σ
  wpending : Bytes
  taken : Bytes
  framed : List Bytes
  reported : List Bytes
  stalled : Bool

/-- Calls of `poll_write`, each with the answers of the inner writer, and of `poll_flush`. -/
abbrev WriteCalls := List (Option (Bytes × List Answer))

namespace Framed

variable {σ : Type} {p : Framing σ} {r : Framed σ}

def new (encoder : σ) : Framed σ := ⟨encoder, [], [], [], [], false⟩

def drain (r : Framed σ) (answers : List Answer) : Pushed × Framed σ × List Answer :=
  if r.wpending = [] then (.done, r, answers)
  else
    let out := push r.wpending answers
    (out.2.1, { r with wpending := out.1, taken := r.taken ++ written r.wpending out.1 }, out.2.2)

def build (p : Framing σ) (r : Framed σ) (chunk : Bytes) (answers : List Answer) :
    PollResult Unit Nat × Framed σ :=
  match p.frame r.encoder chunk with
  | none => (.failed (), r)
  | some (frame, encoder) =>
    let r := { r with encoder := encoder, wpending := frame, framed := r.framed ++ [chunk] }
    match r.drain answers with
    | (.done, r, _) => (.ready chunk.length, { r with reported := r.reported ++ [chunk] })
    | (.pending, r, _) => (.pending, { r with stalled := true })
    | (_, r, _) => (.failed (), { r with stalled := true })

def pollWrite (p : Framing σ) (r : Framed σ) (buf : Bytes) (answers : List Answer) :
    PollResult Unit Nat × Framed σ :=
  match r.drain answers with
  | (.done, r, answers) => r.build p (buf.take p.cap) answers
  | (.pending, r, _) => (.pending, r)
  | (_, r, _) => (.failed (), r)

def run (p : Framing σ) (r : Framed σ) : WriteCalls → Framed σ
  | [] => r
  | none :: calls => run p r calls
  | some (buf, answers) :: calls =>
    match r.pollWrite p buf answers with
    | (.failed _, r) => r
    | (_, r) => run p r calls

inductive Encoded (p : Framing σ) (start : σ) : List Bytes → Bytes → σ → Prop
  | nil : Encoded p start [] [] start
  | snoc (h : Encoded p start packets out s) (hf : p.frame s packet = some (frame, s')) :
    Encoded p start (packets ++ [packet]) (out ++ frame) s'

structure Inv (p : Framing σ) (start : σ) (r : Framed σ) : Prop where
  encoded : Encoded p start r.framed (r.taken ++ r.wpending) r.encoder
  once : r.stalled = false → r.framed = r.reported ∧ r.wpending = []
  more : r.stalled = true → r.reported.length < r.framed.length

theorem drain_spec (r : Framed σ) (ans : List Answer) : ∃ how left taken rest,
    r.drain ans = (how, { r with wpending := left, taken := taken }, rest) ∧
      taken ++ left = r.taken ++ r.wpending ∧ (how = .done → left = []) ∧
      (r.wpending = [] → how = .done) := by
  unfold drain
  split
  next hn => exact ⟨.done, [], r.taken, ans, by rw [← hn], by simp [hn], by simp, by simp⟩
  next hn =>
    refine ⟨_, _, _, _, rfl, ?_, fun hd => push_done (Prod.ext rfl (Prod.ext hd rfl)), (absurd · hn)⟩
    rw [append_assoc, written_append (push_suffix ..)]

theorem Inv.build (h : Inv p start r) (hn : r.wpending = []) (chunk : Bytes)
    (ans : List Answer) : Inv p start (r.build p chunk ans).2 := by
  unfold Framed.build
  split
  · exact h
  next frame encoder hf =>
    have he := (append_nil r.taken ▸ hn ▸ h.encoded).snoc hf
    have hle : r.reported.length ≤ r.framed.length := by
      cases hs : r.stalled with
      | false => rw [(h.once hs).1]
      | true => exact (h.more hs).le
    obtain ⟨how, left, taken, rest, hd, hb, hl, -⟩ := drain_spec
      { r with encoder := encoder, wpending := frame, framed := r.framed ++ [chunk] } ans
    dsimp only at hb ⊢
    rw [hd]
    -- Only a frame that is out is reported; any other one puts the reports behind for good.
    cases how with
    | done =>
      refine ⟨hb ▸ he, fun hs => ⟨?_, hl rfl⟩, fun hs => by simpa using h.more hs⟩
      rw [(h.once hs).1]
    | _ => exact ⟨hb ▸ he, nofun, fun _ => by simpa [Nat.lt_succ_iff] using hle⟩

theorem Inv.pollWrite (h : Inv p start r) (buf : Bytes) (ans : List Answer) :
    Inv p start (r.pollWrite p buf ans).2 := by
  obtain ⟨how, left, taken, rest, hd, hb, hl, hn⟩ := drain_spec r ans
  have hi : Inv p start { r with wpending := left, taken := taken } := by
    refine ⟨hb ▸ h.encoded, fun hs => ?_, h.more⟩
    exact ⟨(h.once hs).1, hl (hn (h.once hs).2)⟩
  unfold Framed.pollWrite
  rw [hd]
  cases how with
  | done => exact hi.build (hl rfl) ..
  | _ => exact hi

theorem Inv.run (calls : WriteCalls) (r : Framed σ)
    (h : Inv p start r) : Inv p start (r.run p calls) := by
  fun_induction Framed.run p r calls with
  | case1 => exact h
  | case2 r calls ih => exact ih h
  | case3 r buf a calls e r' he => simpa [he] using h.pollWrite buf a
  | case4 r buf a calls out r' _ he ih => exact ih (by simpa [he] using h.pollWrite buf a)

/-- What the inner writer has and what it still gets are the frames of the packets that were
framed, and these are the reported ones exactly if no call was stopped behind its frame. -/
def SendsOnce (p : Framing σ) : Prop :=
  ∀ (encoder : σ) (calls : WriteCalls),
      let r := (new encoder).run p calls
    Encoded p encoder r.framed (r.taken ++ r.wpending) r.encoder ∧
      (r.framed = r.reported ↔ r.stalled = false)

theorem sendsOnce (p : Framing σ) : SendsOnce p := by
  intro e c
  have h : Inv p e ((new e).run p c) := Inv.run c (new e) ⟨.nil, fun _ => ⟨rfl, rfl⟩, nofun⟩
  refine ⟨h.encoded, fun he => ?_, fun hs => (h.once hs).1⟩
  cases hs : ((new e).run p c).stalled with
  | false => rfl
  | true => exact absurd (h.more hs) (by simp [he])

end Framed

namespace ContentNetworkConnection

/-- The write in flight, the buffers that were handed to the writer and those that were reported;
`flushed` says that a flush finished a write. -/
structure Writes where
  writeState : Option Bytes
  handed : List Bytes
  reported : List Bytes
  flushed : Bool

inductive Call
  | write (b : Bytes) (done : Bool)
  | flush (done : Bool)

def Writes.poll (r : Writes) : Call → PollResult Unit Nat × Writes
  | .write b done =>
    if b = [] then (.ready 0, r)
    else
      let (data, r) := match r.writeState with
        | some data => (data, r)
        | none => (b, { r with writeState := some b, handed := r.handed ++ [b] })
      if done then
        (.ready data.length, { r with writeState := none, reported := r.reported ++ [data] })
      else (.pending, r)
  | .flush done =>
    match r.writeState with
    | none => (.ready 0, r)
    | some _ =>
      if done then (.ready 0, { r with writeState := none, flushed := true }) else (.pending, r)

def Writes.run (calls : List Call) : Writes :=
  calls.foldl (fun r call => (r.poll call).2) ⟨none, [], [], false⟩

structure Writes.Inv (r : Writes) : Prop where
  once : r.flushed = false → r.handed = r.reported ++ r.writeState.toList
  more : r.flushed = true → r.reported.length + r.writeState.toList.length < r.handed.length

theorem Writes.Inv.poll (h : Writes.Inv r) (call : Call) : (r.poll call).2.Inv := by
  obtain ⟨ws, handed, re, f⟩ := r
  obtain ⟨ho, hm⟩ := h
  cases call with
  | write b done =>
    cases ws <;> cases f <;> cases done <;> by_cases hb : b = [] <;>
      constructor <;> simp_all [Writes.poll]
  | flush done =>
    cases ws <;> cases f <;> cases done <;> constructor <;>
      simp_all [Writes.poll, Nat.lt_of_succ_lt]

theorem Writes.inv_run (calls : List Call) : (Writes.run calls).Inv := by
  refine foldlRecOn calls _ ⟨fun _ => rfl, nofun⟩ fun r h call _ => ?_
  exact Writes.Inv.poll h call

end ContentNetworkConnection

theorem sent_once_iff (addressPort : Option Bytes) (cipher : Crypto.AeadCipher) (reqPadding : Bool)
    (fill : Nat → UInt8) (upChunkCap : Nat) (calls : List ContentNetworkConnection.Call) :
    Framed.SendsOnce (TrojanUdpFramedConn.framing addressPort) ∧
      Framed.SendsOnce VlessUdpFramedConn.framing ∧
      Framed.SendsOnce (VmessUdpConn.framing cipher reqPadding fill upChunkCap) ∧
      let r := ContentNetworkConnection.Writes.run calls
      r.handed = r.reported ++ r.writeState.toList ↔ r.flushed = false := by
  refine ⟨Framed.sendsOnce _, Framed.sendsOnce _, Framed.sendsOnce _, ?_⟩
  intro r
  have h : r.Inv := ContentNetworkConnection.Writes.inv_run calls
  refine ⟨fun he => ?_, h.once⟩
  cases hf : r.flushed with
  | false => rfl
  | true => exact absurd (h.more hf) (by simp [he])

theorem framed_twice : ((Framed.new ()).run VlessUdpFramedConn.framing
      [some ([7], [.ready 1, .pending]), some ([7], [.ready 2, .ready 3])]).taken =
        [0, 1, 7, 0, 1, 7] ∧ (ContentNetworkConnection.Writes.run
        [.write [7] false, .flush true, .write [7] true]).handed = [[7], [7]] := by
  decide

end XrayCore.Streams
