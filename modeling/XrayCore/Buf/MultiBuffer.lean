import XrayCore.Buf.Buffer

/-!
# Lists of buffers

`xray-buf`'s `MultiBuffer` is a list of buffers; its content is the
concatenation of their unread bytes (`to_vec`). `splitBytes` cuts the content
at a byte position, whatever the buffer boundaries are.
-/

namespace XrayCore.Buf

open List Buffer

open Lib (Bytes)

structure MultiBuffer where
  buffers : List Buffer
  deriving DecidableEq

namespace MultiBuffer

def new : MultiBuffer := ⟨[]⟩

def push (mb : MultiBuffer) (buf : Buffer) : MultiBuffer := ⟨mb.buffers ++ [buf]⟩

def len (mb : MultiBuffer) : Nat := (mb.buffers.map Buffer.len).sum

def isEmpty (mb : MultiBuffer) : Bool := mb.buffers.isEmpty || mb.len == 0

def toVec (mb : MultiBuffer) : Bytes := mb.buffers.flatMap bytes

/-- The first pass of `split_bytes`: how many buffers are taken whole, and how
many bytes are still wanted behind them. -/
def fullTake : List Buffer → Nat → Nat × Nat
  | [], remaining => (0, remaining)
  | buf :: rest, remaining =>
    if remaining ≤ buf.len then (0, remaining)
    else ((fullTake rest (remaining - buf.len)).1 + 1, (fullTake rest (remaining - buf.len)).2)

theorem fullTake_fits (h : bufs.drop (fullTake bufs n).1 = front :: rest) :
    (fullTake bufs n).2 ≤ front.len := by
  induction bufs generalizing n with
  | nil => simp [fullTake] at h
  | cons buf bufs ih =>
    simp only [fullTake] at h ⊢
    split
    · next hle =>
      simp only [hle, ↓reduceIte, drop_zero, List.cons.injEq] at h
      exact h.1 ▸ hle
    · next hle =>
      simp only [hle, ↓reduceIte, drop_succ_cons] at h
      exact ih h

def splitBytes (mb : MultiBuffer) (n : Nat) : MultiBuffer × MultiBuffer :=
  if n = 0 then (new, mb)
  else
    let taken := mb.buffers.take (fullTake mb.buffers n).1
    match h : mb.buffers.drop (fullTake mb.buffers n).1 with
    | [] => (⟨taken⟩, ⟨[]⟩)
    | front :: rest =>
      if 0 < (fullTake mb.buffers n).2 then
        let parts := front.splitTo (fullTake mb.buffers n).2 (fullTake_fits h)
        (⟨taken ++ [parts.1]⟩, ⟨parts.2 :: rest⟩)
      else (⟨taken⟩, ⟨front :: rest⟩)

@[simp] theorem toVec_new : new.toVec = [] := rfl

@[simp] theorem toVec_push (mb : MultiBuffer) (buf : Buffer) :
    (mb.push buf).toVec = mb.toVec ++ buf.bytes := by
  simp [toVec, push]

theorem length_toVec (mb : MultiBuffer) : mb.toVec.length = mb.len := by
  simp [toVec, len]

theorem isEmpty_iff (mb : MultiBuffer) : mb.isEmpty = true ↔ mb.toVec = [] := by
  rw [← length_eq_zero_iff, length_toVec, isEmpty, Bool.or_eq_true, List.isEmpty_iff, beq_iff_eq]
  constructor
  · rintro (h | h)
    · simp [len, h]
    · exact h
  · exact .inr

theorem fullTake_content (buffers : List Buffer) (n : Nat) :
    ((buffers.take (fullTake buffers n).1).flatMap bytes).length + (fullTake buffers n).2 = n := by
  induction buffers generalizing n with
  | nil => simp [fullTake]
  | cons buf bufs ih =>
    simp only [fullTake]
    split
    · simp
    · have := ih (n - buf.len)
      simp only [take_succ_cons, flatMap_cons, length_append, length_bytes]
      omega

def cutAt (buffers : List Buffer) (k rem : Nat)
    (hfits : ∀ front rest, buffers.drop k = front :: rest → rem ≤ front.len) :
    MultiBuffer × MultiBuffer :=
  match h : buffers.drop k with
  | [] => (⟨buffers.take k⟩, ⟨[]⟩)
  | front :: rest =>
    if 0 < rem then
      let parts := front.splitTo rem (hfits front rest h)
      (⟨buffers.take k ++ [parts.1]⟩, ⟨parts.2 :: rest⟩)
    else (⟨buffers.take k⟩, ⟨front :: rest⟩)

theorem splitBytes_eq_cutAt (mb : MultiBuffer) (hn : n ≠ 0) :
    mb.splitBytes n = cutAt mb.buffers (fullTake mb.buffers n).1 (fullTake mb.buffers n).2
      (fun _ _ h => fullTake_fits h) := by
  rw [splitBytes, if_neg hn]
  rfl

theorem cutAt_content (buffers : List Buffer) (k rem : Nat)
    (hfits : ∀ front rest, buffers.drop k = front :: rest → rem ≤ front.len)
    (hcu : ((buffers.take k).flatMap bytes).length + rem = n) :
    (cutAt buffers k rem hfits).1.toVec = (buffers.flatMap bytes).take n ∧
      (cutAt buffers k rem hfits).2.toVec = (buffers.flatMap bytes).drop n := by
  -- the buffers taken whole hold `n - rem` bytes, so the cut at `n` falls `rem`
  -- bytes into what follows them
  have hall : buffers.flatMap bytes =
      (buffers.take k).flatMap bytes ++ (buffers.drop k).flatMap bytes := by
    rw [← flatMap_append, take_append_drop]
  rw [hall, ← hcu, take_length_add_append, drop_length_add_append]
  unfold cutAt
  split
  · next hn => simp [toVec, hn]
  · next front rest hc =>
    have hle : rem ≤ front.bytes.length := by
      rw [length_bytes]
      exact hfits front rest hc
    simp only [hc, flatMap_cons, take_append_of_le_length hle, drop_append_of_le_length hle]
    split
    · simp [toVec]
    · next hz =>
      have hz : rem = 0 := Nat.eq_zero_of_not_pos hz
      simp [toVec, hz]

theorem splitBytes_content (mb : MultiBuffer) (n : Nat) :
    (mb.splitBytes n).1.toVec = mb.toVec.take n ∧ (mb.splitBytes n).2.toVec = mb.toVec.drop n := by
  by_cases hn : n = 0
  · simp [splitBytes, hn]
  · rw [splitBytes_eq_cutAt mb hn]
    exact cutAt_content _ _ _ _ (fullTake_content mb.buffers n)

def sizeTake : List Buffer → Nat → Nat × Nat
  | [], remaining => (0, remaining)
  | buf :: rest, remaining =>
    if remaining < buf.len then (0, remaining)
    else ((sizeTake rest (remaining - buf.len)).1 + 1, (sizeTake rest (remaining - buf.len)).2)

theorem sizeTake_fits (h : bufs.drop (sizeTake bufs n).1 = front :: rest) :
    (sizeTake bufs n).2 ≤ front.len := by
  induction bufs generalizing n with
  | nil => simp [sizeTake] at h
  | cons buf bufs ih =>
    simp only [sizeTake] at h ⊢
    split
    · next hlt =>
      simp only [hlt, ↓reduceIte, drop_zero, List.cons.injEq] at h
      exact h.1 ▸ le_of_lt hlt
    · next hlt =>
      simp only [hlt, ↓reduceIte, drop_succ_cons] at h
      exact ih h

theorem sizeTake_content (buffers : List Buffer) (n : Nat) :
    ((buffers.take (sizeTake buffers n).1).flatMap bytes).length + (sizeTake buffers n).2 = n := by
  induction buffers generalizing n with
  | nil => simp [sizeTake]
  | cons buf bufs ih =>
    simp only [sizeTake]
    split
    · simp
    · have := ih (n - buf.len)
      simp only [take_succ_cons, flatMap_cons, length_append, length_bytes]
      omega

def splitSize (mb : MultiBuffer) (size : Nat) : MultiBuffer × MultiBuffer :=
  if size = 0 then (new, mb)
  else cutAt mb.buffers (sizeTake mb.buffers size).1 (sizeTake mb.buffers size).2
    (fun _ _ h => sizeTake_fits h)

theorem splitSize_content (mb : MultiBuffer) (n : Nat) :
    (mb.splitSize n).1.toVec = mb.toVec.take n ∧ (mb.splitSize n).2.toVec = mb.toVec.drop n := by
  unfold splitSize
  split
  · next hn => simp [hn]
  · exact cutAt_content _ _ _ _ (sizeTake_content mb.buffers n)

def splitFirst (mb : MultiBuffer) : Option (Buffer × MultiBuffer) :=
  match mb.buffers with
  | [] => none
  | buf :: rest => some (buf, ⟨rest⟩)

end MultiBuffer

end XrayCore.Buf
