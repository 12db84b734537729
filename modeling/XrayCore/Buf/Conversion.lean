import XrayCore.Lib.Runs
import XrayCore.Buf.Buffer

/-!
# Buffers turned into bytes

The other operations of a `Buffer` and `into_bytes`, which hands the storage on. A pooled storage is
handed on up to its own length, not up to the write cursor, so what the cursor has left behind comes
back.
-/

namespace XrayCore.Buf

open Lib List
open Net (SocketAddr)

/-- What the allocator decides: how much room there is behind the bytes it hands
out, and what lies in it. -/
structure Memory where
  spare : Nat
  junk : Nat → UInt8

def region (contents : Nat → UInt8) (start stop : Nat) : Bytes :=
  (List.range' start (stop - start)).map contents

@[simp] theorem length_region (contents : Nat → UInt8) (start stop : Nat) :
    (region contents start stop).length = stop - start := by
  simp [region]

namespace Buffer

def fromBytes (mem : Memory) (data : Bytes) : Buffer :=
  ⟨.pooled data (data.length + mem.spare), 0, data.length, none, Nat.zero_le _, Nat.le_refl _,
    Nat.le_add_right _ _⟩

theorem length_le_frozen (data : Bytes) : data.length ≤ (Inner.frozen data).capacity :=
  le_refl _

def fromBytesFrozen (data : Bytes) : Buffer :=
  ⟨.frozen data, 0, data.length, none, Nat.zero_le _, Nat.le_refl _, length_le_frozen data⟩

def fromVec (data : Bytes) : Buffer := fromBytesFrozen data

variable {b : Buffer} {n : Nat}

theorem start_add_le (h : n ≤ b.len) : b.start + n ≤ b.stop := by
  have hle := Nat.add_le_add_left h b.start
  rwa [len, Nat.add_sub_cancel' b.start_le] at hle

def advance (b : Buffer) (n : Nat) (h : n ≤ b.len) : Buffer :=
  { b with
    start := b.start + n
    start_le := start_add_le h }

def readTo (b : Buffer) (size : Nat) : Buffer × Bytes :=
  (b.advance (min b.len size) (Nat.min_le_left _ _), b.bytes.take (min b.len size))

theorem one_le_len (h : b.start ≠ b.stop) : 1 ≤ b.len :=
  Nat.sub_pos_of_lt (lt_of_le_of_ne b.start_le h)

def readByte (b : Buffer) : Buffer × Option UInt8 :=
  if h : b.start = b.stop then (b, none)
  else (b.advance 1 (one_le_len h), b.bytes.head?)

def pooledMut (mem : Memory) (b : Buffer) : Buffer :=
  match b with
  | ⟨.pooled data capacity, start, stop, udp, hs, hd, hc⟩ =>
    ⟨.pooled data capacity, start, stop, udp, hs, hd, hc⟩
  | ⟨.frozen data, start, stop, udp, hs, hd, _⟩ =>
    ⟨.pooled data (data.length + mem.spare), start, stop, udp, hs, hd, Nat.le_add_right _ _⟩

def place (b : Buffer) (data : Bytes) (capacity stop : Nat) (hs : b.start ≤ stop)
    (hd : stop ≤ data.length) (hc : data.length ≤ capacity) : Buffer :=
  ⟨.pooled data capacity, b.start, stop, b.udp, hs, hd, hc⟩

/-- Overwrites one unread byte; the source asserts `index < len`. -/
def setByte (mem : Memory) (b : Buffer) (index : Nat) (value : UInt8) : Buffer :=
  let b := b.pooledMut mem
  b.place (b.inner.data.set (b.start + index) value) b.capacity b.stop b.start_le
    (by rw [length_set]; exact b.stop_le) (by rw [length_set]; exact b.length_le)

/-- `as_mut`, and what its caller writes over the unread bytes. -/
def asMut (mem : Memory) (b : Buffer) (written : Nat → UInt8) : Buffer :=
  let b := b.pooledMut mem
  b.place (b.inner.data.take b.start ++ region written b.start b.stop ++ b.inner.data.drop b.stop)
    b.capacity b.stop b.start_le
    (by
      have := b.stop_le
      have := b.start_le
      simp only [length_append, length_take, length_region, length_drop]
      omega)
    (by
      have := b.stop_le
      have := b.start_le
      have : b.inner.data.length ≤ b.capacity := b.length_le
      simp only [length_append, length_take, length_region, length_drop]
      omega)

/-- `writable_bytes`, and what its caller writes (or leaves) behind the cursor: the
length of the storage is its capacity from then on. -/
def writableBytes (mem : Memory) (b : Buffer) (written : Nat → UInt8) : Buffer :=
  let b := b.pooledMut mem
  b.place (b.inner.data.take b.stop ++ region written b.stop b.capacity) b.capacity b.stop
    b.start_le
    (by
      have := b.stop_le
      simp only [length_append, length_take]
      omega)
    (by
      have : b.stop ≤ b.capacity := b.stop_le_capacity
      simp only [length_append, length_take, length_region]
      omega)

theorem capacity_le_pooledMut (mem : Memory) (b : Buffer) :
    b.capacity ≤ (b.pooledMut mem).capacity := by
  obtain ⟨i, s, stop, udp, hs, hd, hc⟩ := b
  cases i with
  | pooled => exact le_refl _
  | frozen data => exact Nat.le_add_right _ _

@[simp] theorem stop_pooledMut (mem : Memory) (b : Buffer) : (b.pooledMut mem).stop = b.stop := by
  obtain ⟨i, s, stop, udp, hs, hd, hc⟩ := b
  cases i <;> rfl

theorem free_le_pooledMut (mem : Memory) (b : Buffer) : b.free ≤ (b.pooledMut mem).free := by
  have := b.capacity_le_pooledMut mem
  simp [free]
  omega

def advanceWrite (mem : Memory) (b : Buffer) (n : Nat) (h : b.stop + n ≤ b.capacity) : Buffer :=
  let m := b.pooledMut mem
  m.place (m.inner.data ++ region mem.junk m.inner.data.length (m.stop + n)) m.capacity
    (m.stop + n) (Nat.le_add_right_of_le m.start_le)
    (by
      simp only [length_append, length_region]
      omega)
    (by
      have : m.inner.data.length ≤ m.capacity := m.length_le
      have : b.capacity ≤ m.capacity := b.capacity_le_pooledMut mem
      have : m.stop = b.stop := b.stop_pooledMut mem
      simp only [length_append, length_region]
      omega)

def writeInto (mem : Memory) (b : Buffer) (src : Bytes) : Buffer :=
  let n := min src.length b.free
  if n = 0 then b
  else (b.pooledMut mem).store (src.take n) (by
    have := b.free_le_pooledMut mem
    simp only [length_take]
    omega)

def writeByteInto (mem : Memory) (b : Buffer) (x : UInt8) : Buffer :=
  if h : b.free = 0 then b
  else (b.pooledMut mem).store [x] (by
    have := b.free_le_pooledMut mem
    simp only [length_singleton]
    omega)

def reserve (mem : Memory) (b : Buffer) (n : Nat) : Buffer :=
  b.place b.inner.data (if n ≤ b.capacity then b.capacity else n + mem.spare) b.stop b.start_le
    b.stop_le (by
      have : b.inner.data.length ≤ b.capacity := b.length_le
      split <;> omega)

theorem le_capacity_reserve (mem : Memory) (b : Buffer) (n : Nat) :
    n ≤ (b.reserve mem n).capacity := by
  change n ≤ if n ≤ b.capacity then b.capacity else n + mem.spare
  split <;> omega

def put (mem : Memory) (b : Buffer) (src : Bytes) : Buffer :=
  if src = [] then b
  else
    let m := b.pooledMut mem
    (m.reserve mem (m.stop + src.length)).store src (by
      have hroom := m.le_capacity_reserve mem (m.stop + src.length)
      have hstop : (m.reserve mem (m.stop + src.length)).stop = m.stop := rfl
      simp only [free, hstop]
      omega)

def cut (b : Buffer) (n : Nat) (h : n ≤ b.len) : Buffer :=
  { b with
    stop := b.start + n
    start_le := Nat.le_add_right b.start n
    stop_le := Nat.le_trans (start_add_le h) b.stop_le }

def truncate (b : Buffer) (n : Nat) : Buffer :=
  if h : n < b.len then b.cut n (Nat.le_of_lt h) else b

def setUdp (b : Buffer) (dest : Option SocketAddr) : Buffer := { b with udp := dest }

/-- `split_off` has the body of `split_to`. -/
def splitOff (b : Buffer) (n : Nat) (h : n ≤ b.len) : Buffer × Buffer := b.splitTo n h

/-- Cuts the unread bytes to `newLen`, or fills up with zeros. What lies between the
write cursor and the length of the storage is not zeroed when the storage grows. -/
def resize (mem : Memory) (b : Buffer) (newLen : Nat) : Buffer :=
  if h : newLen ≤ b.len then b.cut newLen h
  else
    let m := b.pooledMut mem
    let needed := m.stop + (newLen - b.len)
    if hgrow : m.inner.data.length < needed then
      let r := m.reserve mem needed
      r.place (m.inner.data ++ List.replicate (needed - m.inner.data.length) 0) r.capacity needed
        (Nat.le_add_right_of_le m.start_le)
        (by
          simp only [length_append, length_replicate]
          omega)
        (by
          have : needed ≤ r.capacity := m.le_capacity_reserve mem needed
          simp only [length_append, length_replicate]
          omega)
    else
      m.place (m.inner.data.take m.stop ++ List.replicate (newLen - b.len) 0 ++
          m.inner.data.drop needed) m.capacity needed (Nat.le_add_right_of_le m.start_le)
        (by
          simp only [length_append, length_take, length_replicate, length_drop]
          omega)
        (by
          have : m.inner.data.length ≤ m.capacity := m.length_le
          simp only [length_append, length_take, length_replicate, length_drop]
          omega)

def release (b : Buffer) : Buffer :=
  match b.inner with
  | .pooled _ _ => withCapacity 0
  | .frozen _ => fromBytesFrozen []

def intoBytes (b : Buffer) : Bytes :=
  match b.inner with
  | .pooled data _ => data.drop b.start
  | .frozen data => (data.drop b.start).take (b.stop - b.start)

inductive Origin
  | new
  | withCapacity (size : Nat)
  | fromBytes (mem : Memory) (data : Bytes)
  | fromBytesFrozen (data : Bytes)
  | fromVec (data : Bytes)

def Origin.buffer : Origin → Buffer
  | .new => Buffer.new
  | .withCapacity size => Buffer.withCapacity size
  | .fromBytes mem data => Buffer.fromBytes mem data
  | .fromBytesFrozen data => Buffer.fromBytesFrozen data
  | .fromVec data => Buffer.fromVec data

inductive Part
  | front
  | rest

def Part.of : Part → Buffer × Buffer → Buffer
  | .front, bs => bs.1
  | .rest, bs => bs.2

inductive Op
  | setByte (mem : Memory) (index : Nat) (value : UInt8)
  | asMut (mem : Memory) (written : Nat → UInt8)
  | advance (n : Nat)
  | readTo (size : Nat)
  | readByte
  | writableBytes (mem : Memory) (written : Nat → UInt8)
  | advanceWrite (mem : Memory) (n : Nat)
  | writeFrom (mem : Memory) (src : Bytes)
  | writeByte (mem : Memory) (value : UInt8)
  | put (mem : Memory) (src : Bytes)
  | clear
  | truncate (n : Nat)
  | setUdp (dest : Option SocketAddr)
  | splitTo (n : Nat) (part : Part)
  | splitOff (n : Nat) (part : Part)
  | resize (mem : Memory) (newLen : Nat)
  | release

/-- One operation. Where an assertion fails, the source panics before it has changed
the buffer. -/
def step (b : Buffer) : Op → Buffer
  | .setByte mem index value => if index < b.len then b.setByte mem index value else b
  | .asMut mem written => b.asMut mem written
  | .advance n => if h : n ≤ b.len then b.advance n h else b
  | .readTo size => (b.readTo size).1
  | .readByte => b.readByte.1
  | .writableBytes mem written => b.writableBytes mem written
  | .advanceWrite mem n => if h : b.stop + n ≤ b.capacity then b.advanceWrite mem n h else b
  | .writeFrom mem src => b.writeInto mem src
  | .writeByte mem value => b.writeByteInto mem value
  | .put mem src => b.put mem src
  | .clear => b.clear
  | .truncate n => b.truncate n
  | .setUdp dest => b.setUdp dest
  | .splitTo n part => if h : n ≤ b.len then part.of (b.splitTo n h) else b
  | .splitOff n part => if h : n ≤ b.len then part.of (b.splitOff n h) else b
  | .resize mem newLen => b.resize mem newLen
  | .release => b.release

def isFrozen (b : Buffer) : Bool :=
  match b.inner with
  | .pooled _ _ => false
  | .frozen _ => true

def hidden (b : Buffer) : Nat := b.inner.data.length - b.stop

def Exact (b : Buffer) : Prop := b.intoBytes = b.bytes

instance (b : Buffer) : Decidable b.Exact := inferInstanceAs (Decidable (_ = _))

theorem exact_iff (b : Buffer) : b.Exact ↔ b.isFrozen = true ∨ b.hidden = 0 := by
  obtain ⟨i, s, stop, udp, hs, hd, hc⟩ := b
  cases i with
  | pooled data c =>
    simp only [Exact, intoBytes, bytes, isFrozen, hidden, Inner.data_pooled, Bool.false_eq_true,
      false_or] at hd ⊢
    constructor
    · intro h
      have hl := congrArg List.length h
      simp only [length_drop, length_take] at hl
      omega
    · intro h
      rw [take_of_length_le (by omega)]
  | frozen data =>
    simp only [Exact, intoBytes, bytes, isFrozen, Inner.data_frozen, true_or, iff_true]
    rw [drop_take]

theorem exact_place {data : Bytes} {room stop : Nat} {hs : b.start ≤ stop}
    {hd : stop ≤ data.length} {hc : data.length ≤ room} :
    (b.place data room stop hs hd hc).Exact ↔ data.length ≤ stop := by
  rw [exact_iff]
  simp [place, isFrozen, hidden]
  omega

theorem exact_store : (b.store src h).Exact ↔ b.hidden ≤ src.length := by
  rw [exact_iff]
  simp [store, isFrozen, hidden]
  omega

@[simp] theorem data_pooledMut (mem : Memory) (b : Buffer) :
    (b.pooledMut mem).inner.data = b.inner.data := by
  obtain ⟨inner, s, stop, udp, hs, hd, hc⟩ := b
  cases inner <;> rfl

@[simp] theorem start_pooledMut (mem : Memory) (b : Buffer) :
    (b.pooledMut mem).start = b.start := by
  obtain ⟨i, start, stop, udp, hs, hd, hc⟩ := b
  cases i <;> rfl

@[simp] theorem hidden_pooledMut (mem : Memory) (b : Buffer) :
    (b.pooledMut mem).hidden = b.hidden := by
  simp [hidden]

@[simp] theorem hidden_reserve (mem : Memory) (b : Buffer) (n : Nat) :
    (b.reserve mem n).hidden = b.hidden := rfl

theorem exact_setByte (mem : Memory) (b : Buffer) (index : Nat) (v : UInt8) :
    (b.setByte mem index v).Exact ↔ b.hidden = 0 := by
  simp [setByte, exact_place, hidden]
  omega

theorem exact_asMut (mem : Memory) (b : Buffer) (written : Nat → UInt8) :
    (b.asMut mem written).Exact ↔ b.hidden = 0 := by
  simp [asMut, exact_place, hidden]
  omega

theorem exact_writableBytes (mem : Memory) (b : Buffer) (written : Nat → UInt8) :
    (b.writableBytes mem written).Exact ↔ (b.pooledMut mem).free = 0 := by
  have := b.stop_le
  simp [writableBytes, exact_place, free]
  omega

theorem exact_advanceWrite (mem : Memory) (h : b.stop + n ≤ b.capacity) :
    (b.advanceWrite mem n h).Exact ↔ b.hidden ≤ n := by
  simp [advanceWrite, exact_place, hidden]
  omega

theorem exact_writeInto (he : b.Exact) (mem : Memory) (src : Bytes) :
    (b.writeInto mem src).Exact ↔ b.free = 0 ∨ src = [] ∨ b.hidden ≤ src.length := by
  have hle : b.hidden ≤ b.free := Nat.sub_le_sub_right b.length_le b.stop
  simp only [writeInto]
  split
  · next hz =>
    rw [Nat.min_eq_zero_iff, length_eq_zero_iff] at hz
    exact iff_of_true he (hz.elim (fun h => .inr (.inl h)) .inl)
  · next hp =>
    rw [exact_store, hidden_pooledMut, length_take, ← length_eq_zero_iff]
    omega

theorem exact_writeByteInto (he : b.Exact) (mem : Memory) (x : UInt8) :
    (b.writeByteInto mem x).Exact ↔ b.free = 0 ∨ b.hidden ≤ 1 := by
  simp only [writeByteInto]
  split
  · next hz => exact iff_of_true he (.inl hz)
  · next hp => simp [exact_store, hp]

theorem exact_put (he : b.Exact) (mem : Memory) (src : Bytes) :
    (b.put mem src).Exact ↔ src = [] ∨ b.hidden ≤ src.length := by
  simp only [put]
  split
  · next hn => exact iff_of_true he (.inl hn)
  · next hne => simp [exact_store, hne]

theorem exact_clear (b : Buffer) (he : b.Exact) :
    b.clear.Exact ↔ b.isFrozen = true ∨ b.stop = 0 := by
  obtain ⟨i, s, stop, udp, hs, hd, hc⟩ := b
  rw [exact_iff] at he ⊢
  cases i with
  | pooled data c =>
    simp only [clear, isFrozen, hidden, Inner.data_pooled, Bool.false_eq_true, false_or] at he ⊢
    simp only [Inner.data_pooled] at hd
    omega
  | frozen data => exact iff_of_true (.inr rfl) (.inl rfl)

theorem exact_cut {b' : Buffer} (he : b.Exact) (hi : b'.inner = b.inner)
    (hstop : b'.stop = b.start + n) (hn : n ≤ b.len) :
    b'.Exact ↔ b.isFrozen = true ∨ b.len ≤ n := by
  rw [exact_iff] at he ⊢
  have hf : b'.isFrozen = b.isFrozen := by rw [isFrozen, hi, isFrozen]
  have := b.stop_le
  simp only [hf, hidden, hi, hstop, len] at *
  rcases he with h | h
  · simp [h]
  · exact or_congr_right (by omega)

theorem exact_truncate (he : b.Exact) (n : Nat) :
    (b.truncate n).Exact ↔ b.isFrozen = true ∨ b.len ≤ n := by
  simp only [truncate]
  split
  · next hlt => exact exact_cut he rfl rfl hlt.le
  · next hge => exact iff_of_true he (.inr (not_lt.mp hge))

theorem exact_splitTo (he : b.Exact) (h : n ≤ b.len) (part : Part) :
    (part.of (b.splitTo n h)).Exact := by
  obtain ⟨i, s, stop, udp, hs, hd, hc⟩ := b
  rw [exact_iff] at he ⊢
  cases i with
  | pooled data c =>
    right
    simp only [isFrozen, hidden, Inner.data_pooled, Bool.false_eq_true, false_or] at he
    cases part with
    | front =>
      simp [Part.of, splitTo, splitPooled, hidden]
    | rest =>
      simp [Part.of, splitTo, splitPooled, hidden]
      omega
  | frozen data => cases part <;> exact .inl rfl

theorem exact_resize (he : b.Exact) (mem : Memory) (newLen : Nat) : (b.resize mem newLen).Exact ↔
      if newLen ≤ b.len then b.isFrozen = true ∨ b.len ≤ newLen else b.hidden ≤ newLen - b.len := by
  simp only [resize]
  split
  · next hle => exact exact_cut he rfl rfl hle
  · next hgt =>
    split
    · next hgrow =>
      simp [exact_place, hidden]
      omega
    · next hfits =>
      simp [exact_place, hidden]
      omega

theorem Exact.of_inner_eq {b' : Buffer} (he : b.Exact) (hi : b'.inner = b.inner)
    (hstop : b'.stop = b.stop) : b'.Exact := by
  rw [exact_iff] at he ⊢
  simpa [isFrozen, hidden, hi, hstop] using he

/-- After the operation, the write cursor is still at the end of a pooled storage. -/
def Keeps (b : Buffer) : Op → Prop
  | .setByte _ index _ => index < b.len → b.hidden = 0
  | .asMut _ _ => b.hidden = 0
  | .writableBytes mem _ => (b.pooledMut mem).free = 0
  | .advanceWrite _ n => b.stop + n ≤ b.capacity → b.hidden ≤ n
  | .writeFrom _ src => b.free = 0 ∨ src = [] ∨ b.hidden ≤ src.length
  | .writeByte _ _ => b.free = 0 ∨ b.hidden ≤ 1
  | .put _ src => src = [] ∨ b.hidden ≤ src.length
  | .clear => b.isFrozen = true ∨ b.stop = 0
  | .truncate n => b.isFrozen = true ∨ b.len ≤ n
  | .resize _ newLen =>
    if newLen ≤ b.len then b.isFrozen = true ∨ b.len ≤ newLen else b.hidden ≤ newLen - b.len
  | .advance _ | .readTo _ | .readByte | .setUdp _ | .splitTo _ _ | .splitOff _ _ | .release => True

theorem exact_step_iff (h : b.Exact) (op : Op) : (b.step op).Exact ↔ b.Keeps op := by
  cases op with
  | setByte mem index v =>
    simp only [step, Keeps]
    split
    · next hlt => rw [exact_setByte, forall_prop_of_true hlt]
    · next hge => exact iff_of_true h fun hlt => absurd hlt hge
  | asMut mem written => exact exact_asMut mem b written
  | advance n =>
    refine iff_of_true ?_ trivial
    simp only [step]
    split
    · exact h.of_inner_eq rfl rfl
    · exact h
  | readTo size => exact iff_of_true (h.of_inner_eq rfl rfl) trivial
  | readByte =>
    refine iff_of_true ?_ trivial
    simp only [step, readByte]
    split
    · exact h
    · exact h.of_inner_eq rfl rfl
  | writableBytes mem written => exact exact_writableBytes mem b written
  | advanceWrite mem n =>
    simp only [step, Keeps]
    split
    · next hroom => rw [exact_advanceWrite, forall_prop_of_true hroom]
    · next hf => exact iff_of_true h fun hroom => absurd hroom hf
  | writeFrom mem src => exact exact_writeInto h mem src
  | writeByte mem v => exact exact_writeByteInto h mem v
  | put mem src => exact exact_put h mem src
  | clear => exact exact_clear b h
  | truncate n => exact exact_truncate h n
  | setUdp dest => exact iff_of_true (h.of_inner_eq rfl rfl) trivial
  | splitTo n part | splitOff n part =>
    refine iff_of_true ?_ trivial
    simp only [step, splitOff]
    split
    · exact exact_splitTo h _ part
    · exact h
  | resize mem newLen => exact exact_resize h mem newLen
  | release =>
    refine iff_of_true ?_ trivial
    simp only [step, release]
    split <;> rfl

theorem exact_buffer (origin : Origin) : origin.buffer.Exact := by
  rw [exact_iff]
  cases origin with
  | new | withCapacity => exact .inr rfl
  | fromBytes mem data => exact .inr (Nat.sub_self _)
  | fromBytesFrozen | fromVec => exact .inl rfl

/-- Conversion is exact in every state of a run exactly when every operation keeps
the write cursor at the end of the storage. -/
theorem exact_throughout_iff_keeps (origin : Origin) (ops : List Op) :
    Throughout step Exact origin.buffer ops ↔ Guarded step Keeps origin.buffer ops :=
  throughout_iff_guarded (R := fun _ _ => True) trivial (exact_buffer origin)
    (fun _ _ _ _ => trivial) fun _ op _ _ h => exact_step_iff h op

/-- `ab` is written and cut to `a`, but `ab` is converted. -/
theorem truncated_byte_comes_back :
    let b := runs step Origin.new.buffer [.writeFrom ⟨0, fun _ => 0⟩ [97, 98], .truncate 1]
    b.bytes = [97] ∧ b.intoBytes = [97, 98] := by
  decide

end Buffer

end XrayCore.Buf
