import XrayCore.Lib.Mealy
import XrayCore.Lib.Polling
import XrayCore.Vless.Aead

/-!
# Hiding record headers

`XorConn` changes only the five bytes of each record header, with a keystream that goes on from
header to header. Both directions parse the plaintext: `xor_write` has it before the change,
`xor_read` behind it. `hide` is the same byte by byte, so that it does not matter how the stream is
cut.
-/

namespace XrayCore.Vless.Encryption

open Lib List

/-- AES-256-CTR with a key derived from the given one, from an IV: the byte at a position. -/
abbrev Keystream := Bytes → Bytes → Nat → UInt8

structure CtrXor where
  key : Bytes
  iv : Bytes
  pos : Nat
  deriving DecidableEq

def CtrXor.new (key iv : Bytes) : CtrXor := ⟨key, iv, 0⟩

def CtrXor.apply (ks : Keystream) (c : CtrXor) (buf : Bytes) : CtrXor × Bytes :=
  ({ c with pos := c.pos + buf.length }, buf.mapIdx fun i b => b ^^^ ks c.key c.iv (c.pos + i))

inductive Source
  | ready (ctr : CtrXor)
  | deferred (key iv : Bytes)
  deriving DecidableEq

def Source.ctr : Source → CtrXor
  | .ready ctr => ctr
  | .deferred key iv => .new key (iv ++ List.replicate (16 - iv.length) 0)

def Source.cacheIv (passthrough : Bytes) : Source → Source
  | .ready ctr => .ready ctr
  | .deferred key iv => .deferred key (iv ++ passthrough.take (16 - iv.length))

def headerLenField (h : Bytes) : Nat :=
  if byteAt h 0 = 23 ∧ byteAt h 1 = 3 ∧ byteAt h 2 = 3 then (u16At h 3).toNat else 0

structure XorState where
  skip : Nat
  header : Bytes
  source : Source
  length_header : header.length < TLS_RECORD_HEADER_LEN

theorem header_room : ([] : Bytes).length < TLS_RECORD_HEADER_LEN := by decide

/-- What is kept of the bytes of a header: the plaintext is what `xor_write` gets and what
`xor_read` makes. -/
def kept (reads : Bool) (bytes out : Bytes) : Bytes := if reads then out else bytes

theorem length_kept (ks : Keystream) (reads : Bool) (c : CtrXor) (bytes : Bytes) :
    (kept reads bytes (c.apply ks bytes).2).length = bytes.length := by
  cases reads <;> simp [kept, CtrXor.apply]

theorem length_header_kept (ks : Keystream) (reads : Bool) (c : CtrXor)
    (h : rest.length < TLS_RECORD_HEADER_LEN - header.length) :
    (header ++ kept reads rest (c.apply ks rest).2).length < TLS_RECORD_HEADER_LEN := by
  rw [length_append, length_kept]
  omega

def xorLoop (ks : Keystream) (reads : Bool) (s : XorState) (data : Bytes) : XorState × Bytes :=
  if data.length ≤ s.skip then
    ({ s with skip := s.skip - data.length, source := s.source.cacheIv data }, data)
  else
    let body := data.take s.skip
    let rest := data.drop s.skip
    let ctr := (s.source.cacheIv body).ctr
    let need := TLS_RECORD_HEADER_LEN - s.header.length
    if h : rest.length < need then
      let r := ctr.apply ks rest
      (⟨0, s.header ++ kept reads rest r.2, .ready r.1, length_header_kept ks reads ctr h⟩,
        body ++ r.2)
    else
      let r := ctr.apply ks (rest.take need)
      let header := s.header ++ kept reads (rest.take need) r.2
      let q := xorLoop ks reads ⟨headerLenField header, [], .ready r.1, header_room⟩
        (rest.drop need)
      (q.1, body ++ r.2 ++ q.2)
termination_by data.length
decreasing_by
  have := s.length_header
  simp only [length_drop]
  omega

def xorWrite (ks : Keystream) : XorState → Bytes → XorState × Bytes := xorLoop ks false

def xorRead (ks : Keystream) : XorState → Bytes → XorState × Bytes := xorLoop ks true

def XorState.fill (s : XorState) (source : Source) (bytes : Bytes) : XorState :=
  if h : (s.header ++ bytes).length < TLS_RECORD_HEADER_LEN then ⟨0, s.header ++ bytes, source, h⟩
  else ⟨headerLenField (s.header ++ bytes), [], source, header_room⟩

def hide (ks : Keystream) (reads : Bool) (s : XorState) (b : UInt8) : XorState × UInt8 :=
  if s.skip = 0 then
    let c := s.source.ctr
    let out := b ^^^ ks c.key c.iv c.pos
    (s.fill (.ready { c with pos := c.pos + 1 }) (kept reads [b] [out]), out)
  else ({ s with skip := s.skip - 1, source := s.source.cacheIv [b] }, b)

variable {ks : Keystream} {reads : Bool} {s : XorState}

theorem cacheIv_append (a b : Bytes) (src : Source) :
    (src.cacheIv a).cacheIv b = src.cacheIv (a ++ b) := by
  cases src with
  | ready => rfl
  | deferred key iv =>
    simp only [Source.cacheIv, append_assoc, length_append, length_take]
    rw [take_append]
    congr 4
    omega

theorem cacheIv_nil (source : Source) : source.cacheIv [] = source := by
  cases source <;> simp [Source.cacheIv]

theorem CtrXor.apply_cons (c : CtrXor) (b : UInt8) (bytes : Bytes) :
    c.apply ks (b :: bytes) = ((CtrXor.apply ks { c with pos := c.pos + 1 } bytes).1,
      (b ^^^ ks c.key c.iv c.pos) :: (CtrXor.apply ks { c with pos := c.pos + 1 } bytes).2) := by
  simp [apply, add_assoc, add_comm 1]

variable {data : Bytes}

theorem mealy_skip (h : data.length ≤ s.skip) : mealy (hide ks reads) s data =
      ({ s with skip := s.skip - data.length, source := s.source.cacheIv data }, data) := by
  induction data generalizing s with
  | nil => simp [mealy, cacheIv_nil]
  | cons b data ih =>
    rw [length_cons] at h
    have hs : hide ks reads s b =
        ({ s with skip := s.skip - 1, source := s.source.cacheIv [b] }, b) := if_neg (by omega)
    rw [mealy, hs, ih (by dsimp only; omega)]
    simp [cacheIv_append, Nat.sub_sub, add_comm 1]

theorem mealy_header (ks : Keystream) (reads : Bool) (hs : s.skip = 0)
    (hne : data ≠ []) (h : data.length ≤ TLS_RECORD_HEADER_LEN - s.header.length) :
    mealy (hide ks reads) s data = (s.fill (.ready (s.source.ctr.apply ks data).1)
        (kept reads data (s.source.ctr.apply ks data).2), (s.source.ctr.apply ks data).2) := by
  induction data generalizing s with
  | nil => exact absurd rfl hne
  | cons b data ih =>
    rw [mealy, hide, if_pos hs, CtrXor.apply_cons]
    cases data with
    | nil => simp [mealy, CtrXor.apply]
    | cons b' data =>
      simp only [length_cons] at h
      dsimp only
      generalize b ^^^ ks s.source.ctr.key s.source.ctr.iv s.source.ctr.pos = out
      have ho : (kept reads [b] [out]).length = 1 := by cases reads <;> rfl
      have hlt : (s.header ++ kept reads [b] [out]).length < TLS_RECORD_HEADER_LEN := by
        rw [length_append, ho]
        omega
      have hroom : (b' :: data).length ≤
          TLS_RECORD_HEADER_LEN - (s.header ++ kept reads [b] [out]).length := by
        rw [length_append, ho, length_cons]
        omega
      rw [show s.fill _ _ = ⟨0, s.header ++ kept reads [b] [out], _, hlt⟩ from dif_pos hlt,
        ih rfl (cons_ne_nil _ _) hroom]
      dsimp only [Source.ctr, XorState.fill]
      simp only [append_assoc]
      cases reads <;> rfl

theorem xorLoop_eq (ks : Keystream) (reads : Bool) (s : XorState) (data : Bytes) :
    xorLoop ks reads s data = mealy (hide ks reads) s data := by
  have hs (s : XorState) (data : Bytes) (h : ¬data.length ≤ s.skip) : mealy (hide ks reads) s data =
        ((mealy (hide ks reads) { s with
            skip := 0, source := s.source.cacheIv (data.take s.skip) } (data.drop s.skip)).1,
          data.take s.skip ++ (mealy (hide ks reads) { s with
            skip := 0, source := s.source.cacheIv (data.take s.skip) } (data.drop s.skip)).2) := by
    have hle : (data.take s.skip).length = s.skip := length_take_of_le (by omega)
    conv_lhs => rw [← take_append_drop s.skip data]
    rw [mealy_append, mealy_skip hle.le, hle, Nat.sub_self]
  fun_induction xorLoop ks reads s data with
  | case1 s data h => rw [mealy_skip h]
  | case2 s data h body rest ctr need hsh r =>
    have hne : rest ≠ [] := by
      rw [Ne, drop_eq_nil_iff]
      omega
    have hp := mealy_header ks reads
      (s := { s with skip := 0, source := s.source.cacheIv body }) rfl hne hsh.le
    rw [hs s data h, hp, XorState.fill, dif_pos]
  | case3 s data h body rest ctr need hl r hdr q ih =>
    have hn : 0 < need := Nat.sub_pos_of_lt s.length_header
    have hle : (rest.take need).length = need := length_take_of_le (by omega)
    have hne : rest.take need ≠ [] := ne_nil_of_length_pos (by omega)
    have hf : ¬hdr.length < TLS_RECORD_HEADER_LEN := by
      rw [length_append, length_kept, hle]
      omega
    have hp := mealy_header ks reads
      (s := { s with skip := 0, source := s.source.cacheIv body }) rfl hne hle.le
    rw [hs s data h]
    change _ = ((mealy _ _ rest).1, body ++ (mealy _ _ rest).2)
    rw [← take_append_drop need rest, mealy_append, hp, XorState.fill, dif_neg hf]
    rw [← ih, append_assoc]

inductive XorError
  | writeZero
  | inner
  deriving DecidableEq

structure XorConn where
  write : XorState
  writeBuf : Bytes
  writePending : Option (Nat × Nat)
  read : XorState

/-- What a call leaves behind, the bytes the inner connection took, and whether one of its polls in
the call was pending. -/
structure XorStep (α : Type) where
  result : PollResult XorError α
  conn : XorConn
  wire : Bytes
  pended : Bool

namespace XorConn

def new (readCtr writeCtr : CtrXor) (outSkip inSkip : Nat) : XorConn :=
  ⟨⟨outSkip, [], .ready writeCtr, header_room⟩, [], none, ⟨inSkip, [], .ready readCtr, header_room⟩⟩

def newDeferredRead (writeCtr : CtrXor) (outSkip inSkip : Nat) (deferredReadKey : Bytes) : XorConn :=
  ⟨⟨outSkip, [], .ready writeCtr, header_room⟩, [], none,
    ⟨inSkip, [], .deferred deferredReadKey [], header_room⟩⟩

def left (conn : XorConn) : Bytes :=
  match conn.writePending with
  | none => []
  | some (sent, e) => (conn.writeBuf.take e).drop sent

/-- A short write ends the call although the inner connection was not pending. -/
def drainPending (conn : XorConn) (answers : List Answer) : XorStep Unit × List Answer :=
  match conn.writePending with
  | none => (⟨.ready (), conn, [], false⟩, answers)
  | some (sent, e) =>
    match answers with
    | [] => (⟨.pending, conn, [], true⟩, [])
    | .pending :: rest => (⟨.pending, conn, [], true⟩, rest)
    | .failed :: rest => (⟨.failed .inner, conn, [], false⟩, rest)
    | .ready n :: rest =>
      if n = 0 then (⟨.failed .writeZero, conn, [], false⟩, rest)
      else if e ≤ sent + n then (⟨.ready (), { conn with writePending := none }, conn.left, false⟩, rest)
      else (⟨.pending, { conn with writePending := some (sent + n, e) }, conn.left.take n, false⟩, rest)

def landed (len : Nat) (out left : Bytes) : Pushed → PollResult XorError Nat × Option (Nat × Nat)
  | .done => (.ready len, none)
  | .pending => (.ready len, some (out.length - left.length, out.length))
  | .zero => (.failed .writeZero, none)
  | .failed => (.failed .inner, none)

def pollWrite (ks : Keystream) (conn : XorConn) (buf : Bytes) (answers : List Answer) :
    XorStep Nat :=
  let (d, answers) := conn.drainPending answers
  match d.result with
  | .pending => ⟨.pending, d.conn, d.wire, d.pended⟩
  | .failed e => ⟨.failed e, d.conn, d.wire, d.pended⟩
  | .ready () =>
    if buf = [] then ⟨.ready 0, d.conn, d.wire, d.pended⟩
    else
      let (write, out) := xorWrite ks d.conn.write buf
      let (left, pushed, _) := push out answers
      let (result, writePending) := landed buf.length out left pushed
      ⟨result, { d.conn with write := write, writeBuf := out, writePending := writePending },
        d.wire ++ written out left, d.pended || decide (Answer.pending ∈ answered out answers)⟩

def drainThen (conn : XorConn) (answers : List Answer) (inner : Answer) : XorStep Unit :=
  let d := (conn.drainPending answers).1
  match d.result with
  | .ready () =>
    match inner with
    | .pending => { d with result := .pending, pended := true }
    | .ready _ => d
    | .failed => { d with result := .failed .inner }
  | _ => d

def pollFlush : XorConn → List Answer → Answer → XorStep Unit := drainThen

def pollShutdown : XorConn → List Answer → Answer → XorStep Unit := drainThen

def pollRead (ks : Keystream) (conn : XorConn) (answers : List Answer) (inner : Arrival) :
    XorStep Bytes :=
  let d := (conn.drainPending answers).1
  match inner with
  | .pending => ⟨.pending, d.conn, d.wire, true⟩
  | .failed => ⟨.failed .inner, d.conn, d.wire, d.pended⟩
  | .piece bytes =>
    let (read, out) := xorRead ks d.conn.read bytes
    ⟨.ready out, { d.conn with read := read }, d.wire, d.pended⟩

end XorConn

inductive XorOp
  | write (buf : Bytes) (answers : List Answer)
  /-- A flush or a shutdown. -/
  | finish (answers : List Answer) (inner : Answer)
  | read (answers : List Answer) (inner : Arrival)

structure XorRun where
  conn : XorConn
  accepted : Bytes
  returned : Bytes
  wire : Bytes

def XorOp.apply (ks : Keystream) (conn : XorConn) : XorOp → XorRun
  | .write buf answers =>
    let step := conn.pollWrite ks buf answers
    ⟨step.conn, match step.result with
      | .ready n => buf.take n
      | _ => [], [], step.wire⟩
  | .finish answers inner =>
    let step := conn.drainThen answers inner
    ⟨step.conn, [], [], step.wire⟩
  | .read answers inner =>
    let step := conn.pollRead ks answers inner
    ⟨step.conn, [], match step.result with
      | .ready bytes => bytes
      | _ => [], step.wire⟩

def xorRun (ks : Keystream) : XorConn → List XorOp → XorRun
  | conn, [] => ⟨conn, [], [], []⟩
  | conn, op :: ops =>
    let first := op.apply ks conn
    let rest := xorRun ks first.conn ops
    ⟨rest.conn, first.accepted ++ rest.accepted, first.returned ++ rest.returned,
      first.wire ++ rest.wire⟩

def Serves (answers : List Answer) : Prop := .failed ∉ answers ∧ .ready 0 ∉ answers

def XorOp.Served : XorOp → Prop
  | .write _ answers | .finish answers _ | .read answers _ => Serves answers

def XorOp.arrived : XorOp → Bytes
  | .read _ (.piece bytes) => bytes
  | _ => []

def XorConn.Ranged (conn : XorConn) : Prop :=
  ∀ sent e, conn.writePending = some (sent, e) → e = conn.writeBuf.length ∧ sent < e

structure Drained (conn : XorConn) (d : XorStep Unit) : Prop where
  served : ∀ e, d.result ≠ .failed e
  write : d.conn.write = conn.write
  left : d.wire ++ d.conn.left = conn.left
  ready : d.result = .ready () → d.conn.writePending = none
  ranged : d.conn.Ranged

variable {answers : List Answer}

theorem Serves.tail (h : Serves (answer :: answers)) : Serves answers :=
  ⟨fun hm => h.1 (mem_cons_of_mem _ hm), fun hm => h.2 (mem_cons_of_mem _ hm)⟩

theorem drained_drainPending (h : Serves answers) (hr : conn.Ranged) :
    Drained conn (conn.drainPending answers).1 ∧ Serves (conn.drainPending answers).2 := by
  rw [XorConn.drainPending]
  split
  · next hno => exact ⟨⟨nofun, rfl, rfl, fun _ => hno, hr⟩, h⟩
  · next sent e hsome =>
    have hl : conn.left = (conn.writeBuf.take e).drop sent := by rw [XorConn.left, hsome]
    split
    · exact ⟨⟨nofun, rfl, rfl, nofun, hr⟩, h⟩
    · exact ⟨⟨nofun, rfl, rfl, nofun, hr⟩, h.tail⟩
    · exact absurd mem_cons_self h.1
    · next n rest =>
      have hn : n ≠ 0 := by
        rintro rfl
        exact h.2 mem_cons_self
      rw [if_neg hn]
      split
      · refine ⟨⟨nofun, rfl, ?_, fun _ => rfl, nofun⟩, h.tail⟩
        exact append_nil _
      · next hs =>
        refine ⟨⟨nofun, rfl, ?_, nofun, ?_⟩, h.tail⟩
        · rw [hl]
          dsimp only [XorConn.left]
          rw [← drop_drop, take_append_drop]
        · rintro _ _ ⟨⟩
          exact ⟨(hr sent e hsome).1, by omega⟩

/-- Everything accepted is hidden in its order; what is not sent yet is pending. -/
structure Hides (ks : Keystream) (start : XorState) (conn : XorConn) (accepted wire : Bytes) : Prop
    where
  write : conn.write = (mealy (hide ks false) start accepted).1
  wire : wire ++ conn.left = (mealy (hide ks false) start accepted).2
  ranged : conn.Ranged

variable {conn : XorConn} {accepted wire : Bytes} {start : XorState}

theorem Hides.drained (h : Hides ks start conn accepted wire)
    (hd : Drained conn d) : Hides ks start d.conn (accepted ++ []) (wire ++ d.wire) := by
  rw [append_nil]
  exact ⟨hd.write.trans h.write, by rw [append_assoc, hd.left, h.wire], hd.ranged⟩

theorem drainThen_conn (conn : XorConn) (ans : List Answer) (inner : Answer) :
    (conn.drainThen ans inner).conn = (conn.drainPending ans).1.conn ∧
      (conn.drainThen ans inner).wire = (conn.drainPending ans).1.wire := by
  simp only [XorConn.drainThen]
  split
  · cases inner <;> exact ⟨rfl, rfl⟩
  · exact ⟨rfl, rfl⟩

theorem Serves.pushed {out left : Bytes} {rest : List Answer} {pushed : Pushed}
    (hserves : Serves ans) (h : push out ans = (left, pushed, rest)) :
    pushed = .done ∧ left = [] ∨ pushed = .pending := by
  fun_induction push out ans with
  | case1 | case2 => cases h; exact .inr rfl
  | case3 => exact absurd mem_cons_self hserves.1
  | case4 => exact absurd mem_cons_self hserves.2
  | case5 => cases h; exact .inl ⟨rfl, rfl⟩
  | case6 buf n ans hn hlt ih => exact ih hserves.tail h

theorem hides_apply (h : Hides ks start conn accepted wire) {op : XorOp} (hop : op.Served) :
    Hides ks start (op.apply ks conn).conn (accepted ++ (op.apply ks conn).accepted)
      (wire ++ (op.apply ks conn).wire) := by
  cases op with
  | finish ans inner =>
    have hc := drainThen_conn conn ans inner
    simp only [XorOp.apply, hc.1, hc.2]
    exact h.drained (drained_drainPending hop h.ranged).1
  | read ans inner =>
    have hd := (drained_drainPending hop h.ranged).1
    cases inner with
    | pending | failed => exact h.drained hd
    | piece bytes => exact ⟨(h.drained hd).write, (h.drained hd).wire, (h.drained hd).ranged⟩
  | write buf ans =>
    obtain ⟨hd, hrest⟩ := drained_drainPending hop h.ranged
    rw [XorOp.apply, XorConn.pollWrite]
    generalize conn.drainPending ans = drained at hd hrest
    obtain ⟨d, rest⟩ := drained
    dsimp only at hd hrest ⊢
    cases hr : d.result with
    | pending => exact h.drained hd
    | failed e => exact absurd hr (hd.served e)
    | ready =>
      by_cases hb : buf = []
      · rw [if_pos hb]
        exact h.drained hd
      rw [if_neg hb]
      have hn := h.drained hd
      have hno := hd.ready hr
      rw [append_nil] at hn
      have ho : mealy (hide ks false) start (accepted ++ buf) =
          ((xorWrite ks d.conn.write buf).1, wire ++ d.wire ++ (xorWrite ks d.conn.write buf).2) := by
        have hw := hn.wire
        rw [XorConn.left, hno, append_nil] at hw
        rw [mealy_append, ← hn.write, ← hw, xorWrite, xorLoop_eq]
      have hne : (xorWrite ks d.conn.write buf).2 ≠ [] := by
        rw [xorWrite, xorLoop_eq]
        exact ne_nil_of_length_pos (by rw [length_mealy]; exact length_pos_of_ne_nil hb)
      generalize xorWrite ks d.conn.write buf = r at ho hne ⊢
      obtain ⟨write, out⟩ := r
      dsimp only at ho hne ⊢
      generalize hp : push out rest = p
      obtain ⟨left, pushed, rest'⟩ := p
      have hs : written out left ++ left = out := by
        have := push_suffix out rest
        rw [hp] at this
        exact written_append this
      rcases hrest.pushed hp with ⟨rfl, rfl⟩ | rfl
      · refine ⟨?_, ?_, nofun⟩ <;> dsimp only [XorConn.landed, XorConn.left]
        · rw [take_length, ho]
        · rw [append_nil] at hs ⊢
          rw [take_length, ho, hs, append_assoc]
      · have hdr : out.drop (out.length - left.length) = left := by
          conv_lhs => rw [← hs]
          simp
        refine ⟨?_, ?_, ?_⟩ <;> dsimp only [XorConn.landed, XorConn.left, XorConn.Ranged]
        · rw [take_length, ho]
        · rw [take_length, take_length, ho, hdr]
          simp [hs]
        · rintro _ _ ⟨⟩
          have hl := length_pos_of_ne_nil (push_left hp hne (nofun))
          have := length_pos_of_ne_nil hne
          exact ⟨rfl, by omega⟩

theorem hides_run (h : Hides ks start conn accepted wire) (hops : ∀ op ∈ ops, op.Served) :
    Hides ks start (xorRun ks conn ops).conn (accepted ++ (xorRun ks conn ops).accepted)
      (wire ++ (xorRun ks conn ops).wire) := by
  induction ops generalizing conn accepted wire with
  | nil => simpa [xorRun] using h
  | cons op ops ih =>
    have hn := ih (hides_apply h (hops op mem_cons_self))
      (forall_mem_cons.mp hops).2
    simpa [xorRun] using hn

theorem returned_run (conn : XorConn) (ops : List XorOp) : (xorRun ks conn ops).returned =
      (mealy (hide ks true) conn.read (ops.flatMap XorOp.arrived)).2 := by
  have hd (conn : XorConn) (a : List Answer) : (conn.drainPending a).1.conn.read = conn.read := by
    rw [XorConn.drainPending]
    split
    · rfl
    · split <;> first | rfl | (split <;> first | rfl | (split <;> rfl))
  induction ops generalizing conn with
  | nil => rfl
  | cons op ops ih =>
    -- A call returns what it makes of the bytes that arrive in it.
    have hs : (op.apply ks conn).conn.read = (mealy (hide ks true) conn.read op.arrived).1 ∧
        (op.apply ks conn).returned = (mealy (hide ks true) conn.read op.arrived).2 := by
      cases op with
      | finish a i =>
        exact ⟨by rw [← hd conn a, ← (drainThen_conn conn a i).1]; rfl, rfl⟩
      | read a i =>
        simp only [XorOp.apply, XorConn.pollRead]
        cases i with
        | pending | failed => exact ⟨hd conn a, rfl⟩
        | piece bytes => simp [XorOp.arrived, xorRead, xorLoop_eq, hd]
      | write buf a =>
        refine ⟨?_, rfl⟩
        rw [← hd conn a, XorOp.apply, XorConn.pollWrite]
        dsimp only
        split
        · rfl
        · rfl
        · split <;> rfl
    rw [xorRun, flatMap_cons, mealy_append, hs.2]
    rw [ih, hs.1]

def Source.Settled : Source → Prop
  | .ready _ => True
  | .deferred _ iv => iv.length = 16

theorem Source.Settled.cacheIv {source : Source} (h : source.Settled) (bytes : Bytes) :
    source.cacheIv bytes = source := by
  cases source with
  | ready => rfl
  | deferred key iv => simp [Source.cacheIv, show iv.length = 16 from h]

structure Mirrors (s t : XorState) : Prop where
  skip : t.skip = s.skip
  header : t.header = s.header
  ctr : t.source.ctr = s.source.ctr
  settled : s.source.Settled ∧ t.source.Settled

variable {t : XorState}

theorem mirrors_fill (h : t.header = s.header) (ctr : CtrXor) (bytes : Bytes) :
    Mirrors (s.fill (.ready ctr) bytes) (t.fill (.ready ctr) bytes) := by
  simp only [XorState.fill, h]
  split <;> exact ⟨rfl, rfl, rfl, trivial, trivial⟩

theorem hide_hide (h : Mirrors s t) (b : UInt8) : (hide ks true t (hide ks false s b).2).2 = b ∧
      Mirrors (hide ks false s b).1 (hide ks true t (hide ks false s b).2).1 := by
  rw [hide, hide, h.skip, h.ctr]
  by_cases hs : s.skip = 0
  · simp only [if_pos hs, kept, Bool.false_eq_true, if_false, if_true]
    rw [UInt8.xor_assoc, UInt8.xor_self, UInt8.xor_zero]
    exact ⟨rfl, mirrors_fill h.header _ _⟩
  · simp only [if_neg hs, h.settled.1.cacheIv, h.settled.2.cacheIv, true_and]
    exact ⟨rfl, h.header, h.ctr, h.settled⟩

theorem mealy_mirrors (h : Mirrors s t) (data : Bytes) :
    (mealy (hide ks true) t (mealy (hide ks false) s data).2).2 = data :=
  mealy_inverse (R := Mirrors) (fun _ _ b hR => hide_hide hR b) h data

/-- A writer and a reader of a stream: they have one keystream, or the reader takes the IV from the
first bytes. -/
inductive Linked : XorState → XorState → Bytes → Prop
  | plain (ctr : CtrXor) (data : Bytes) :
    Linked ⟨0, [], .ready ctr, header_room⟩ ⟨0, [], .ready ctr, header_room⟩ data
  | deferred (key : Bytes) {iv data : Bytes} (hiv : iv.length = 16) (hdata : data.take 16 <+: iv) :
    Linked ⟨16, [], .ready (.new key iv), header_room⟩ ⟨16, [], .deferred key [], header_room⟩ data

theorem Linked.take (h : Linked s t data) (n : Nat) : Linked s t (data.take n) := by
  cases h with
  | plain ctr => exact .plain ctr _
  | deferred key hiv hdata =>
    refine .deferred key hiv (List.IsPrefix.trans ?_ hdata)
    rw [take_take, min_comm, ← take_take]
    exact take_prefix n _

theorem mealy_linked (h : Linked s t data) :
    (mealy (hide ks true) t (mealy (hide ks false) s data).2).2 = data := by
  cases h with
  | plain ctr =>
    have hm : Mirrors ⟨0, [], .ready ctr, header_room⟩ ⟨0, [], .ready ctr, header_room⟩ :=
      ⟨rfl, rfl, rfl, trivial, trivial⟩
    exact mealy_mirrors hm data
  | deferred key hiv hdata =>
    rename_i iv
    have hs (reads : Bool) (source : Source) {bytes : Bytes} (h : bytes.length ≤ 16) :
        mealy (hide ks reads) ⟨16, [], source, header_room⟩ bytes =
          (⟨16 - bytes.length, [], source.cacheIv bytes, header_room⟩, bytes) := mealy_skip h
    -- The first bytes are passed, and the reader has the IV behind them.
    rcases le_total data.length 16 with hsh | hl
    · rw [hs false _ hsh, hs true _ hsh]
    have hf : (data.take 16).length = 16 := length_take_of_le hl
    have hiv' : data.take 16 = iv := hdata.eq_of_length (hf.trans hiv.symm)
    rw [← take_append_drop 16 data, hiv', mealy_append, hs false _ hiv.le, mealy_append,
      hs true _ hiv.le]
    refine congrArg (iv ++ ·) (mealy_mirrors ?_ _)
    have hc : iv.take 16 = iv := take_of_length_le hiv.le
    refine ⟨rfl, rfl, ?_, trivial, ?_⟩
    · simp [Source.ctr, Source.cacheIv, hc, hiv]
    · simp [Source.Settled, Source.cacheIv, hc, hiv]

def headerMarks : Nat → Bytes → Bytes → List Bool
  | _, _, [] => []
  | 0, header, b :: data =>
    let header := header ++ [b]
    true :: if header.length < TLS_RECORD_HEADER_LEN then headerMarks 0 header data
      else headerMarks (headerLenField header) [] data
  | skip + 1, header, _ :: data => false :: headerMarks skip header data

theorem unmarked (s : XorState) (data : Bytes) {i : Nat}
    (h : (headerMarks s.skip s.header data)[i]? = some false) :
    (mealy (hide ks false) s data).2[i]? = data[i]? := by
  induction data generalizing s i with
  | nil => rfl
  | cons b data ih =>
    cases hs : s.skip with
    | zero =>
      rw [hs, headerMarks] at h
      rw [mealy, hide, if_pos hs]
      cases i with
      | zero => cases h
      | succ i =>
        refine ih _ ?_
        simp only [kept, Bool.false_eq_true, if_false, XorState.fill]
        split at h <;> rename_i hl
        · rw [dif_pos hl]
          exact h
        · rw [dif_neg hl]
          exact h
    | succ skip =>
      rw [hs, headerMarks] at h
      rw [mealy, hide, if_neg (by omega)]
      cases i with
      | zero => rfl
      | succ i =>
        refine ih _ ?_
        simpa [hs] using h

theorem returned_written (ks : Keystream) (writer reader : XorConn) (sent received : List XorOp)
    (hidle : writer.writePending = none) (hsent : ∀ op ∈ sent, op.Served)
    (hlinked : Linked writer.write reader.read (xorRun ks writer sent).accepted)
    (hreceived : received.flatMap XorOp.arrived <+: (xorRun ks writer sent).wire) :
    (xorRun ks reader received).returned =
        (xorRun ks writer sent).accepted.take (received.flatMap XorOp.arrived).length ∧
      ((xorRun ks writer sent).conn.writePending = none →
        (xorRun ks writer sent).wire.length = (xorRun ks writer sent).accepted.length) ∧
      ∀ i, (headerMarks writer.write.skip writer.write.header
          (xorRun ks writer sent).accepted)[i]? = some false →
        i < (xorRun ks writer sent).wire.length →
        (xorRun ks writer sent).wire[i]? = (xorRun ks writer sent).accepted[i]? := by
  have hstart : Hides ks writer.write writer [] [] :=
    ⟨rfl, by rw [XorConn.left, hidle]; rfl, by rw [XorConn.Ranged, hidle]; rintro _ _ ⟨⟩⟩
  obtain ⟨-, hwire, -⟩ := hides_run hstart hsent
  rw [nil_append, nil_append] at hwire
  refine ⟨?_, fun hnone => ?_, fun i hmark hi => ?_⟩
  · have harrived : received.flatMap XorOp.arrived = (mealy (hide ks false) writer.write
        ((xorRun ks writer sent).accepted.take (received.flatMap XorOp.arrived).length)).2 := by
      rw [← mealy_take, ← hwire]
      exact prefix_iff_eq_take.mp (hreceived.trans (prefix_append _ _))
    rw [returned_run, harrived, mealy_linked (hlinked.take _), ← harrived]
  · rw [XorConn.left, hnone, append_nil] at hwire
    rw [hwire, length_mealy]
  · rw [← unmarked writer.write _ hmark, ← hwire, List.getElem?_append_left hi]

theorem returned_written_cut :
    let ks : Keystream := fun _ _ i => UInt8.ofNat i + 7
    let writer := XorConn.new (.new [] []) (.new [1] [2]) 0 0
    let reader := XorConn.new (.new [1] [2]) (.new [] []) 0 0
    let sent : List XorOp := [.write [23, 3, 3, 0, 1, 9] [.ready 3, .pending], .finish [.ready 3] (.ready 0)]
    let received : List XorOp := [.read [] (.piece [16, 11]), .read [] (.piece [10, 10, 10, 9])]
    (xorRun ks reader received).returned = (xorRun ks writer sent).accepted.take 6 := by
  intro ks writer reader sent received
  have hwire : (xorRun ks writer sent).wire = [16, 11, 10, 10, 10, 9] := by decide +kernel
  exact (returned_written ks writer reader sent received rfl (by simp [sent, XorOp.Served, Serves])
    (.plain _ _) (by rw [hwire]; decide)).1

end XrayCore.Vless.Encryption
