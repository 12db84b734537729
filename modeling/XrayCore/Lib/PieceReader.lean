import XrayCore.Lib.BigEndian

/-!
# Reading bytes that arrive in pieces

A reader with a buffer over a source that hands out its bytes piece by piece. `contents` is what is
still to be read; the lemmas describe `readExact` by it alone.
-/

namespace XrayCore.Lib

open List

structure PieceReader where
  buffer : Bytes
  pieces : List Bytes

namespace PieceReader

def contents (r : PieceReader) : Bytes := r.buffer ++ r.pieces.flatten

/-- No piece to come is empty: an empty one would read as the end. -/
def Whole (r : PieceReader) : Prop := ∀ piece ∈ r.pieces, piece ≠ []

def read (r : PieceReader) (n : Nat) : Bytes × PieceReader :=
  if r.buffer ≠ [] then (r.buffer.take n, { r with buffer := r.buffer.drop n })
  else
    match r.pieces with
    | [] => ([], r)
    | piece :: pieces => (piece.take n, ⟨piece.drop n, pieces⟩)

/-- Asks until `n` more bytes are there. The error is the number of bytes that were
there. -/
def readExact (r : PieceReader) (got : Bytes) (n : Nat) : Except Nat (Bytes × PieceReader) :=
  if n = 0 then .ok (got, r)
  else
    let (more, r) := r.read n
    if more = [] then .error got.length
    else readExact r (got ++ more) (n - more.length)
termination_by n
decreasing_by
  rename_i hn hmore
  have := length_pos_of_ne_nil hmore
  omega

variable {r : PieceReader}

theorem read_append (r : PieceReader) (n : Nat) :
    (r.read n).1 ++ (r.read n).2.contents = r.contents := by
  obtain ⟨b, p⟩ := r
  unfold read
  split
  · simp [contents, ← append_assoc]
  · next h =>
    have h : b = [] := not_not.mp h
    subst h
    cases p with
    | nil => rfl
    | cons pi p => simp [contents, ← append_assoc]

theorem length_read_le (r : PieceReader) (n : Nat) : (r.read n).1.length ≤ n := by
  unfold read
  split
  · exact length_take_le ..
  · split
    · exact Nat.zero_le n
    · exact length_take_le ..

theorem Whole.read (hr : r.Whole) (n : Nat) : (r.read n).2.Whole := by
  obtain ⟨b, pi⟩ := r
  unfold PieceReader.read
  split
  · exact hr
  · cases pi with
    | nil => exact hr
    | cons pie pi => exact (forall_mem_cons.mp hr).2

variable {n : Nat}

theorem Whole.read_ne_nil (hr : r.Whole) (hn : n ≠ 0) (h : r.contents ≠ []) :
    (r.read n).1 ≠ [] := by
  obtain ⟨b, p⟩ := r
  unfold PieceReader.read
  split
  · next hb => exact fun ht => (take_eq_nil_iff.mp ht).elim hn hb
  · next hb =>
    have hb : b = [] := not_not.mp hb
    subst hb
    cases p with
    | nil => exact absurd rfl h
    | cons pi p =>
      have hp := hr pi (mem_cons_self ..)
      exact fun ht => (take_eq_nil_iff.mp ht).elim hn hp

theorem readExact_ok (h : r.readExact got n = .ok (al, r')) :
    ∃ next, al = got ++ next ∧ next.length = n ∧ r.contents = next ++ r'.contents := by
  -- along the recursion of the loop: each round moves bytes from the front of the
  -- contents to the end of what it has
  fun_induction readExact r got n with
  | case1 r got =>
    cases h
    exact ⟨[], (append_nil _).symm, rfl, rfl⟩
  | case2 => cases h
  | case3 r got n hn more r1 hr hmore ih =>
    obtain ⟨next, rfl, hl, hc⟩ := ih h
    have hf : more ++ r1.contents = r.contents := by
      have := r.read_append n
      rwa [hr] at this
    have hle : more.length ≤ n := by
      have := r.length_read_le n
      rwa [hr] at this
    refine ⟨more ++ next, append_assoc .., ?_, ?_⟩
    · rw [length_append]
      omega
    · rw [← hf, hc, append_assoc]

theorem Whole.readExact (hr : r.Whole) (got : Bytes) (h : n ≤ r.contents.length) :
    ∃ all r', r.readExact got n = .ok (all, r') ∧ r'.Whole := by
  fun_induction PieceReader.readExact r got n with
  | case1 r got => exact ⟨got, r, rfl, hr⟩
  | case2 r got n hn r1 hre =>
    refine absurd ?_ (hr.read_ne_nil hn ?_)
    · rw [hre]
    · rintro hni
      rw [hni] at h
      exact hn (Nat.le_zero.mp h)
  | case3 r got n hn more r1 hre hmore ih =>
    have hf : more ++ r1.contents = r.contents := by
      have := r.read_append n
      rwa [hre] at this
    refine ih ?_ ?_
    · have := hr.read n
      rwa [hre] at this
    · rw [← hf, length_append] at h
      omega

end PieceReader

end XrayCore.Lib
