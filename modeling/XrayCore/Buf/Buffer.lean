import XrayCore.Net.Address

/-!
# Buffers

`xray-buf`'s `Buffer`: a storage with a read and a write cursor beside it. The fields of the
structure tie the cursors to the storage, so every buffer that exists has a readable range inside
its storage and a storage inside its capacity. Its users see it through `bytes` and `free`. Where
the source asserts (`split_to`), the operation takes the asserted fact as an argument.
-/

namespace XrayCore.Buf

open List

open Lib (Bytes)
open Net (SocketAddr)

def DEFAULT_SIZE : Nat := 8192

/-- The two storages of a buffer: a `BytesMut` with its bytes up to `len` and
its capacity, or a read-only `Bytes`. -/
inductive Inner
  | pooled (data : Bytes) (capacity : Nat)
  | frozen (data : Bytes)
  deriving DecidableEq

def Inner.data : Inner → Bytes
  | .pooled data _ => data
  | .frozen data => data

def Inner.capacity : Inner → Nat
  | .pooled _ capacity => capacity
  | .frozen data => data.length

open Inner

@[simp] theorem Inner.data_pooled : (pooled d c).data = d := rfl

@[simp] theorem Inner.data_frozen : (frozen d).data = d := rfl

@[simp] theorem Inner.capacity_pooled : (pooled d c).capacity = c := rfl

/-- `start` and `stop` (the source's `end`) bound the unread bytes. -/
structure Buffer where
  inner : Inner
  start : Nat
  stop : Nat
  udp : Option SocketAddr
  start_le : start ≤ stop
  stop_le : stop ≤ inner.data.length
  length_le : inner.data.length ≤ inner.capacity
  deriving DecidableEq

namespace Buffer

/-- An 8 KB buffer from the pool, which keeps only blocks of exactly its tier sizes. -/
def new : Buffer := ⟨.pooled [] DEFAULT_SIZE, 0, 0, none, by simp, by simp, by simp [data]⟩

def withCapacity (size : Nat) : Buffer :=
  ⟨.pooled [] size, 0, 0, none, by simp, by simp, by simp [data]⟩

def len (b : Buffer) : Nat := b.stop - b.start

def isEmpty (b : Buffer) : Bool := b.start = b.stop

def bytes (b : Buffer) : Bytes := (b.inner.data.take b.stop).drop b.start

def capacity (b : Buffer) : Nat := b.inner.capacity

def free (b : Buffer) : Nat := b.capacity - b.stop

theorem stop_le_capacity (b : Buffer) : b.stop ≤ b.inner.capacity :=
  le_trans b.stop_le b.length_le

/-- What `write_from` and `write_byte` do once the room is checked: a frozen storage becomes a
pooled one, its length grows to the end of the written range, and `src` is copied behind the write
cursor. -/
def store (b : Buffer) (src : Bytes) (h : src.length ≤ b.free) : Buffer where
  inner := .pooled (b.inner.data.take b.stop ++ src ++ b.inner.data.drop (b.stop + src.length))
    b.inner.capacity
  start := b.start
  stop := b.stop + src.length
  udp := b.udp
  start_le := Nat.le_add_right_of_le b.start_le
  stop_le := by
    have := b.stop_le
    simp only [data_pooled, length_append, length_take, length_drop]
    omega
  length_le := by
    have := b.stop_le
    have := b.length_le
    have := b.stop_le_capacity
    simp only [free, capacity] at h
    simp only [data_pooled, capacity_pooled, length_append, length_take, length_drop]
    omega

def writeFrom (b : Buffer) (src : Bytes) : Buffer × Nat :=
  let n := min src.length b.free
  if n = 0 then (b, 0)
  else (b.store (src.take n) (by simp only [length_take]; omega), n)

def writeByte (b : Buffer) (x : UInt8) : Buffer × Bool :=
  if h : b.free = 0 then (b, false)
  else (b.store [x] (by simp only [length_singleton]; omega), true)

def clear (b : Buffer) : Buffer :=
  match b with
  | ⟨.pooled data capacity, _, _, _, _, _, hc⟩ =>
    ⟨.pooled data capacity, 0, 0, none, Nat.le_refl 0, Nat.zero_le _, hc⟩
  | ⟨.frozen _, _, _, _, _, _, _⟩ => new

def splitPooled (data : Bytes) (capacity start stop n : Nat) (udp : Option SocketAddr)
    (hd : stop ≤ data.length) (hc : data.length ≤ capacity) (h : n ≤ stop - start) :
    Buffer × Buffer :=
  (⟨.pooled ((data.drop start).take n) n, 0, n, none, Nat.zero_le n, by
      simp only [data_pooled, length_take, length_drop]; omega, by
      simp only [data_pooled, capacity_pooled, length_take]; omega⟩,
    ⟨.pooled (data.drop (start + n)) (capacity - start - n), 0, stop - start - n, udp,
      Nat.zero_le _, by
      simp only [data_pooled, length_drop]; omega, by
      simp only [data_pooled, capacity_pooled, length_drop]; omega⟩)

def splitFrozen (data : Bytes) (start stop n : Nat) (udp : Option SocketAddr)
    (hs : start ≤ stop) (hd : stop ≤ data.length) (h : n ≤ stop - start) : Buffer × Buffer :=
  (⟨.frozen ((data.drop start).take n), 0, n, none, Nat.zero_le n, by
      simp only [data_frozen, length_take, length_drop]; omega, Nat.le_refl _⟩,
    ⟨.frozen data, start + n, stop, udp, by omega, hd, Nat.le_refl _⟩)

def splitTo (b : Buffer) (n : Nat) (h : n ≤ b.len) : Buffer × Buffer :=
  match b with
  | ⟨.pooled data capacity, start, stop, udp, _, hd, hc⟩ =>
    splitPooled data capacity start stop n udp hd hc h
  | ⟨.frozen data, start, stop, udp, hs, hd, _⟩ => splitFrozen data start stop n udp hs hd h

@[simp] theorem length_bytes (b : Buffer) : b.bytes.length = b.len := by
  have := b.stop_le
  simp [bytes, len]
  omega

@[simp] theorem bytes_new : new.bytes = [] := rfl

@[simp] theorem free_new : new.free = DEFAULT_SIZE := rfl

@[simp] theorem bytes_withCapacity (size : Nat) : (withCapacity size).bytes = [] := rfl

@[simp] theorem free_withCapacity (size : Nat) : (withCapacity size).free = size := rfl

section

variable (b : Buffer)

include b

@[simp] theorem bytes_store (src : Bytes) (h : src.length ≤ b.free) :
    (b.store src h).bytes = b.bytes ++ src := by
  have hl : (b.inner.data.take b.stop).length = b.stop := length_take_of_le b.stop_le
  have ht : (b.inner.data.take b.stop ++ src ++
      b.inner.data.drop (b.stop + src.length)).take (b.stop + src.length) =
        b.inner.data.take b.stop ++ src :=
    take_left' (by rw [length_append, hl])
  simp only [bytes, store, data_pooled]
  rw [ht, drop_append_of_le_length (by rw [hl]; exact b.start_le)]

@[simp] theorem free_store (src : Bytes) (h : src.length ≤ b.free) :
    (b.store src h).free = b.free - src.length := by
  simp [free, capacity, store, Inner.capacity]
  omega

@[simp] theorem bytes_writeFrom (src : Bytes) :
    (b.writeFrom src).1.bytes = b.bytes ++ src.take b.free := by
  simp only [writeFrom]
  split
  · next h =>
    rcases Nat.min_eq_zero_iff.mp h with h | h
    · simp [length_eq_zero_iff.mp h]
    · simp [h]
  · simp only [bytes_store, append_cancel_left_eq]
    rw [min_comm, ← take_eq_take_min]

@[simp] theorem free_writeFrom (src : Bytes) : (b.writeFrom src).1.free = b.free - src.length := by
  simp only [writeFrom]
  split
  · next h => dsimp only; omega
  · simp
    omega

@[simp] theorem bytes_writeByte (x : UInt8) :
    (b.writeByte x).1.bytes = b.bytes ++ [x].take b.free := by
  unfold writeByte
  split
  · next h => simp [h]
  · next h =>
    rw [bytes_store, take_of_length_le (by simp only [length_singleton]; omega)]

@[simp] theorem free_writeByte (x : UInt8) : (b.writeByte x).1.free = b.free - 1 := by
  unfold writeByte
  split
  · next h => dsimp only; omega
  · simp

@[simp] theorem bytes_splitTo_fst (n : Nat) (h : n ≤ b.len) :
    (b.splitTo n h).1.bytes = b.bytes.take n := by
  obtain ⟨i, s, stop, udp, hs, hd, hc⟩ := b
  have hm : min n (stop - s) = n := min_eq_left h
  cases i <;>
    simp [splitTo, splitPooled, splitFrozen, bytes, drop_take, take_take, hm]

@[simp] theorem bytes_splitTo_snd (n : Nat) (h : n ≤ b.len) :
    (b.splitTo n h).2.bytes = b.bytes.drop n := by
  obtain ⟨i, s, stop, udp, hs, hd, hc⟩ := b
  cases i <;>
    simp [splitTo, splitPooled, splitFrozen, bytes, drop_take, Nat.sub_sub]

end

end Buffer

end XrayCore.Buf
