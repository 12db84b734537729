import Mathlib.Data.List.TakeDrop
import XrayCore.Lib.BigEndian

/-!
# The relays over user-space TCP

A relay carries a stream between its user and a socket of the smoltcp stack. Those of the WireGuard
inbound and outbound offer a chunk to the socket until it has taken all of it; the one of the TUN
inbound offers it once. The outbound one returns as soon as its user has ended.
-/

namespace XrayCore.Netstack

open Lib List

/-- A turn of sending: what the network drained before it, how many of the bytes that fit
`send_slice` takes, and whether the socket is active. -/
structure Look where
  drained : Nat
  takes : Nat
  active : Bool

structure SendQueue where
  capacity : Nat
  queued : Nat
  taken : Bytes

namespace SendQueue

def new (capacity : Nat) : SendQueue := ⟨capacity, 0, []⟩

def room (s : SendQueue) (look : Look) : Nat :=
  min look.takes (s.capacity - (s.queued - look.drained))

def sendSlice (s : SendQueue) (look : Look) (data : Bytes) : SendQueue × Nat :=
  let written := min (s.room look) data.length
  (⟨s.capacity, s.queued - look.drained + written, s.taken ++ data.take written⟩, written)

theorem taken_sendSlice (s : SendQueue) (look : Look) (data : Bytes) :
    (s.sendSlice look data).1.taken = s.taken ++ data.take (s.room look) := by
  simp [sendSlice, ← take_eq_take_min]

end SendQueue

def TunTcpRelay.sendToSmoltcp (s : SendQueue) (data : Bytes) : List Look → SendQueue × Bool
  | [] => (s, false)
  | look :: _ => ((s.sendSlice look data).1, true)

/-- `send_to_smoltcp` of `WgTcpRelay` and of `TcpRelay`: without a further look it still waits. -/
def WgTcpRelay.sendToSmoltcp : SendQueue → Bytes → List Look → SendQueue × Bool
  | s, data, [] => (s, data.isEmpty)
  | s, data, look :: looks =>
    if data.isEmpty then (s, true) else
      let sent := s.sendSlice look data
      if !(data.drop sent.2).isEmpty && !look.active then (sent.1, true)
      else sendToSmoltcp sent.1 (data.drop sent.2) looks

inductive Relay
  | tun
  | wg
  | outbound
  deriving DecidableEq

def Relay.sendToSmoltcp : Relay → SendQueue → Bytes → List Look → SendQueue × Bool
  | .tun => TunTcpRelay.sendToSmoltcp
  | .wg | .outbound => WgTcpRelay.sendToSmoltcp

/-- The chunks read from `from_client` so far, and whether the relay is back at reading, where it
can find the end and close the socket. -/
def Relay.sends (relay : Relay) : SendQueue → List (Bytes × List Look) → SendQueue × Bool
  | s, [] => (s, true)
  | s, (chunk, looks) :: reads =>
    let sent := relay.sendToSmoltcp s chunk looks
    if sent.2 then sends relay sent.1 reads else (sent.1, false)

def Relay.Keeps (relay : Relay) (s : SendQueue) (reads : List (Bytes × List Look)) : Prop :=
  (relay.sends s reads).1.taken <+: s.taken ++ reads.flatMap (·.1) ∧
    ((relay.sends s reads).2 = true →
      (relay.sends s reads).1.taken = s.taken ++ reads.flatMap (·.1))

def Fits : SendQueue → List (Bytes × List Look) → Prop
  | s, (chunk, look :: _) :: reads =>
    chunk.length ≤ s.room look ∧ Fits (s.sendSlice look chunk).1 reads
  | _, _ => True

theorem WgTcpRelay.taken_sendToSmoltcp (looks : List Look) :
    ∀ (s : SendQueue) (data : Bytes), (∀ look ∈ looks, look.active = true) →
      ∃ k, (sendToSmoltcp s data looks).1.taken = s.taken ++ data.take k ∧
        ((sendToSmoltcp s data looks).2 = true → data.length ≤ k) := by
  induction looks with
  | nil => exact fun s data _ => ⟨0, by simp [sendToSmoltcp]⟩
  | cons look looks ih =>
    intro s data ha
    rw [forall_mem_cons] at ha
    by_cases hdata : data = []
    · exact ⟨0, by simp [sendToSmoltcp, hdata]⟩
    obtain ⟨k, ht, hall⟩ := ih (s.sendSlice look data).1 (data.drop (s.sendSlice look data).2) ha.2
    have htu : sendToSmoltcp s data (look :: looks) = sendToSmoltcp (s.sendSlice look data).1
        (data.drop (s.sendSlice look data).2) looks := by
      simp [sendToSmoltcp, hdata, ha.1]
    rw [htu, ht]
    refine ⟨(s.sendSlice look data).2 + k, ?_, fun h => ?_⟩
    · simp [SendQueue.sendSlice, take_add]
    · have := hall h
      rw [length_drop] at this
      omega

theorem Relay.Keeps.cons {relay : Relay}
    (h : ∃ k, (relay.sendToSmoltcp s chunk looks).1.taken = s.taken ++ chunk.take k ∧
      ((relay.sendToSmoltcp s chunk looks).2 = true → chunk.length ≤ k))
    (ih : relay.Keeps (relay.sendToSmoltcp s chunk looks).1 rs) :
    relay.Keeps s ((chunk, looks) :: rs) := by
  obtain ⟨k, ht, hall⟩ := h
  unfold Keeps at ih ⊢
  simp only [sends, flatMap_cons, ← append_assoc]
  split
  · next hr =>
    rwa [ht, take_of_length_le (hall hr)] at ih
  · rw [ht, append_assoc]
    exact ⟨prefix_append_right_inj .. |>.mpr (( take_prefix ..).trans (prefix_append ..)), by simp⟩

theorem Relay.keeps_of_ne_tun {relay : Relay} (hne : relay ≠ .tun)
    (reads : List (Bytes × List Look)) :
    ∀ s, (∀ read ∈ reads, ∀ look ∈ read.2, look.active = true) → relay.Keeps s reads := by
  have hs : relay.sendToSmoltcp = WgTcpRelay.sendToSmoltcp := by cases relay <;> trivial
  induction reads with
  | nil => simp [Keeps, sends]
  | cons read reads ih =>
    intro s ha
    rw [forall_mem_cons] at ha
    exact .cons (hs ▸ WgTcpRelay.taken_sendToSmoltcp _ s _ ha.1) (ih _ ha.2)

open Relay

theorem keeps_tun_iff (reads : List (Bytes × List Look)) :
    ∀ s, (∀ moment, moment <+: reads → tun.Keeps s moment) ↔ Fits s reads := by
  induction reads with
  | nil => simp [Fits, Keeps, sends]
  | cons read reads ih =>
    intro s
    obtain ⟨chunk, _ | ⟨look, l⟩⟩ := read
    · refine ⟨fun _ => trivial, fun _ moment hm => ?_⟩
      rcases prefix_cons_iff.mp hm with rfl | ⟨moment, rfl, -⟩
      · simp [Keeps, sends]
      · simp [Keeps, sends, sendToSmoltcp, TunTcpRelay.sendToSmoltcp]
    · rw [Fits, ← ih]
      have ht := s.taken_sendSlice look chunk
      constructor
      · intro h
        -- the moment behind this chunk shows that it was taken whole
        have ho := (h [(chunk, look :: l)] (by simp)).2
        have hfits : chunk.length ≤ s.room look := by
          simpa [sends, sendToSmoltcp, TunTcpRelay.sendToSmoltcp, ht] using ho
        refine ⟨hfits, fun moment hm => ?_⟩
        have := h ((chunk, look :: l) :: moment) (by simpa using hm)
        simpa [Keeps, sends, sendToSmoltcp, TunTcpRelay.sendToSmoltcp, ht,
          take_of_length_le hfits] using this
      · rintro ⟨hfits, h⟩ moment hm
        rcases prefix_cons_iff.mp hm with rfl | ⟨moment, rfl, hrest⟩
        · simp [Keeps, sends]
        · exact .cons ⟨s.room look, ht, fun _ => hfits⟩ (h moment hrest)

/-- The WireGuard relays skip no byte and have handed over all at the end. The TUN relay does so as
long as every chunk finds room for all of it. -/
theorem keeps_iff (capacity : Nat) (reads : List (Bytes × List Look))
    (hactive : ∀ read ∈ reads, ∀ look ∈ read.2, look.active = true) :
    (∀ relay : Relay, relay ≠ .tun → relay.Keeps (.new capacity) reads) ∧
      ((∀ moment, moment <+: reads → tun.Keeps (.new capacity) moment) ↔
        Fits (.new capacity) reads) :=
  ⟨fun _ hne => keeps_of_ne_tun hne reads _ hactive, keeps_tun_iff reads _⟩

theorem keeps_waiting :
    wg.Keeps (.new 2) [([1, 2, 3], [⟨0, 8, true⟩, ⟨0, 8, true⟩, ⟨2, 8, true⟩])] :=
  (keeps_iff 2 [([1, 2, 3], [⟨0, 8, true⟩, ⟨0, 8, true⟩, ⟨2, 8, true⟩])] (by simp)).1 .wg (by decide)

/-- The queue has room for one more byte; the second byte of the chunk is lost. -/
theorem skips_byte : (tun.sends (.new 3)
      [([1, 2], [⟨0, 8, true⟩]), ([3, 4], [⟨0, 8, true⟩]), ([5], [⟨3, 8, true⟩])]).1.taken =
        [1, 2, 3, 5] ∧ ¬ tun.Keeps (.new 3)
        [([1, 2], [⟨0, 8, true⟩]), ([3, 4], [⟨0, 8, true⟩]), ([5], [⟨3, 8, true⟩])] := by
  refine ⟨by decide, fun h => ?_⟩
  exact absurd h.1 (by decide)

namespace TcpRelay

structure Socket where
  recvQueue : Bytes
  sendClosed : Bool
  recvClosed : Bool
  received : Bytes

def Socket.isActive (s : Socket) : Bool := !(s.sendClosed && s.recvClosed)

inductive User
  | silent
  | data
  | ended

/-- A turn of `run`: what `from_client` gave, and what the peer sent until then. -/
structure Turn where
  user : User
  arrives : Bytes
  fin : Bool

def Socket.ingest (s : Socket) (t : Turn) : Socket :=
  if s.recvClosed then s
  else ⟨s.recvQueue ++ t.arrives, s.sendClosed, t.fin, s.received ++ t.arrives⟩

structure State where
  socket : Socket
  toClient : Bytes
  /-- The relay has returned, which ends `to_client`. -/
  ended : Bool

def step (s : State) (t : Turn) : State :=
  let socket := s.socket.ingest t
  if s.ended then { s with socket } else
    match t.user with
    | .ended => ⟨{ socket with sendClosed := true }, s.toClient, true⟩
    | .silent | .data =>
      ⟨{ socket with recvQueue := socket.recvQueue.drop 8192 },
        s.toClient ++ socket.recvQueue.take 8192, !socket.isActive⟩

def start : State := ⟨⟨[], false, false, []⟩, [], false⟩

def run (turns : List Turn) : State := turns.foldl step start

/-- No byte leaves the receive queue but for `to_client`, and only `close` ends the sending side. -/
def State.Inv (s : State) : Prop :=
  s.socket.received = s.toClient ++ s.socket.recvQueue ∧
    (s.ended = false → s.socket.sendClosed = false)

def State.Follows (s s' : State) : Prop :=
  s.socket.received <+: s'.socket.received ∧ (s.ended = true → s'.toClient = s.toClient)

theorem step_spec (t : Turn) (h : s.Inv) : (step s t).Inv ∧ s.Follows (step s t) ∧
      ((step s t).ended = true ↔ s.ended = true ∨ t.user = .ended) ∧
      (t.user = .ended → (step s t).toClient = s.toClient) := by
  obtain ⟨⟨q, sc, rc, r⟩, toClient, ended⟩ := s
  simp only [State.Inv] at h
  obtain ⟨rfl, ho⟩ := h
  cases ended <;> cases rc <;> cases hu : t.user <;>
    simp_all [step, State.Inv, State.Follows, Socket.ingest, Socket.isActive]

theorem run_spec (turns : List Turn) : ∀ s : State, s.Inv →
    (turns.foldl step s).Inv ∧ s.Follows (turns.foldl step s) ∧
      ((turns.foldl step s).ended = true ↔ s.ended = true ∨ ∃ t ∈ turns, t.user = .ended) := by
  induction turns with
  | nil => exact fun s h => ⟨h, ⟨prefix_rfl, fun _ => rfl⟩, by simp⟩
  | cons t turns ih =>
    intro s h
    obtain ⟨hi, hf, hen, -⟩ := step_spec t h
    obtain ⟨hi', hf', he'⟩ := ih _ hi
    refine ⟨hi', ⟨hf.1.trans hf'.1, fun he => ?_⟩, ?_⟩
    · rw [foldl_cons, hf'.2 (hen.mpr (.inl he)), hf.2 he]
    · rw [foldl_cons, he', hen, exists_mem_cons_iff, or_assoc]

theorem inv_start : start.Inv := by simp [start, State.Inv]

theorem received_run (turns : List Turn) :
    (run turns).socket.received = (run turns).toClient ++ (run turns).socket.recvQueue :=
  (run_spec turns start inv_start).1.1

theorem run_split (front back : List Turn) (hl : last.user = .ended) :
    (run (front ++ last :: back)).toClient = (run front).toClient ∧
      (run front).socket.received <+: (run (front ++ last :: back)).socket.received := by
  obtain ⟨hf, -, -⟩ := run_spec front start inv_start
  obtain ⟨hi, hfo, he, hk⟩ := step_spec last hf
  obtain ⟨-, hb, -⟩ := run_spec back _ hi
  rw [run, foldl_append, foldl_cons]
  exact ⟨(hb.2 (he.mpr (.inr hl))).trans (hk hl), hfo.1.trans hb.1⟩

/-- What is received gets to `to_client` in order, and all of it just when the receive queue is
empty in the turn in which the user ends, and nothing is received from then on. -/
theorem response_kept_iff (turns : List Turn) :
    (run turns).toClient <+: (run turns).socket.received ∧
      (((run turns).ended = true → (run turns).toClient = (run turns).socket.received) ↔
        ∀ front last back, turns = front ++ last :: back → last.user = .ended →
          (run front).socket.recvQueue = [] ∧
            (run turns).socket.received = (run front).socket.received) := by
  have hends := (run_spec turns start inv_start).2.2
  refine ⟨received_run turns ▸ prefix_append .., fun h front last back hsplit hlast => ?_,
    fun h hended => ?_⟩
  · have hall := h (hends.mpr (.inr ⟨last, by simp [hsplit], hlast⟩))
    obtain ⟨hclient, hlater⟩ := run_split front back hlast
    rw [← hsplit] at hclient hlater
    have hle := hlater.length_le
    rw [← hall, hclient, received_run front, length_append] at hle
    have hnil : (run front).socket.recvQueue = [] := eq_nil_of_length_eq_zero (by omega)
    exact ⟨hnil, by rw [← hall, hclient, received_run front, hnil, append_nil]⟩
  · obtain ⟨last, hmem, hlast⟩ := (hends.mp hended).resolve_left (by simp [start])
    obtain ⟨front, back, hsplit⟩ := append_of_mem hmem
    obtain ⟨hnil, hreceived⟩ := h front last back hsplit hlast
    rw [hreceived, received_run front, hnil, append_nil, hsplit]
    exact (run_split front back hlast).1

/-- The user ends before the response has arrived. -/
theorem response_lost :
    let s := run [⟨.data, [], false⟩, ⟨.ended, [], false⟩, ⟨.silent, [1, 2], true⟩]
    s.ended = true ∧ s.toClient = [] ∧ s.socket.received = [1, 2] := by
  decide

end TcpRelay

end XrayCore.Netstack
