import XrayCore.Lib.BigEndian

/-!
# Inner streams that are polled

What an inner stream answers is up to it. A writer answers each call with a number of bytes it
took, with nothing yet, or with a failure; a reader hands out pieces, each at most as long as the
buffer it is given. `push` writes a buffer out for as long as the writer goes on.
-/

namespace XrayCore.Lib

open List

inductive Answer
  | pending
  | ready (n : Nat)
  | failed
  deriving DecidableEq, Repr

inductive Pushed
  | done
  | pending
  | zero
  | failed
  deriving DecidableEq, Repr

inductive PollResult (ε α : Type)
  | pending
  | ready (a : α)
  | failed (e : ε)
  deriving DecidableEq, Repr

/-- Writes until the buffer is out or the writer stops: what is left, how it ended, and the
answers that were not used. A writer without an answer is pending. -/
def push : Bytes → List Answer → Bytes × Pushed × List Answer
  | buf, [] => (buf, .pending, [])
  | buf, .pending :: answers => (buf, .pending, answers)
  | buf, .failed :: answers => (buf, .failed, answers)
  | buf, .ready n :: answers =>
    if n = 0 then (buf, .zero, answers)
    else if buf.length ≤ n then ([], .done, answers)
    else push (buf.drop n) answers

def answered : Bytes → List Answer → List Answer
  | _, [] => [.pending]
  | _, .pending :: _ => [.pending]
  | _, .failed :: _ => [.failed]
  | buf, .ready n :: answers =>
    if n = 0 then [.ready n]
    else if buf.length ≤ n then [.ready n]
    else .ready n :: answered (buf.drop n) answers

def written (buf left : Bytes) : Bytes := buf.take (buf.length - left.length)

theorem push_suffix (buf : Bytes) (ans : List Answer) : (push buf ans).1 <:+ buf := by
  fun_induction push buf ans with
  | case1 | case2 | case3 | case4 => exact suffix_refl _
  | case5 => exact nil_suffix
  | case6 buf n ans hn hlt ih => exact ih.trans (drop_suffix n buf)

variable {buf left : Bytes}

theorem written_append (h : left <:+ buf) : written buf left ++ left = buf := by
  obtain ⟨f, rfl⟩ := h
  simp [written]

variable {answers rest : List Answer}

theorem push_done (h : push buf ans = (left, .done, rest)) : left = [] := by
  fun_induction push buf ans with
  | case1 | case2 | case3 | case4 => cases h
  | case5 =>
    cases h
    rfl
  | case6 buf n ans hn hlt ih => exact ih h

theorem push_left (h : push buf ans = (left, pushed, rest)) (hb : buf ≠ []) (hp : pushed ≠ .done) :
    left ≠ [] := by
  fun_induction push buf ans with
  | case1 | case2 | case3 | case4 => cases h; exact hb
  | case5 =>
    cases h
    exact absurd rfl hp
  | case6 buf n ans hn hlt ih =>
    refine ih h fun hni => hlt ?_
    exact drop_eq_nil_iff.mp hni

theorem pending_mem_answered
    (h : push buf answers = (left, .pending, rest)) : .pending ∈ answered buf answers := by
  fun_induction push buf answers with
  | case1 | case2 => exact mem_singleton_self _
  | case3 | case4 | case5 => cases h
  | case6 buf n answers hn hlt ih =>
    rw [answered, if_neg hn, if_neg hlt]
    exact mem_cons_of_mem _ (ih h)

/-- What a reader answers: a piece of the stream, which is empty at its end. -/
inductive Arrival
  | pending
  | piece (bytes : Bytes)
  | failed
  deriving DecidableEq, Repr

def readUpTo (n : Nat) : List Arrival → Arrival × List Arrival
  | [] => (.piece [], [])
  | .piece bytes :: source =>
    if bytes.length ≤ n then (.piece bytes, source)
    else (.piece (bytes.take n), .piece (bytes.drop n) :: source)
  | arrival :: source => (arrival, source)

def contents (source : List Arrival) : Bytes :=
  source.flatMap fun
    | .piece bytes => bytes
    | _ => []

/-- A measure that every call on a reader that is not at its end reduces. -/
def backlog (source : List Arrival) : Nat := source.length + (contents source).length

@[simp] theorem contents_nil : contents [] = [] := rfl

@[simp] theorem contents_pending (source : List Arrival) :
    contents (.pending :: source) = contents source := rfl

@[simp] theorem contents_failed (source : List Arrival) :
    contents (.failed :: source) = contents source := rfl

@[simp] theorem contents_piece (bytes : Bytes) (source : List Arrival) :
    contents (.piece bytes :: source) = bytes ++ contents source := rfl

theorem backlog_cons (arr : Arrival) (src : List Arrival) : backlog src < backlog (arr :: src) := by
  cases arr <;> (simp [backlog]; try omega)

/-- What a call of a reader can come to. -/
inductive Pulls (n : Nat) : List Arrival → Arrival → List Arrival → Prop
  | ended : Pulls n [] (.piece []) []
  | whole {arr : Arrival} {src : List Arrival} (h : ∀ b, arr = .piece b → b.length ≤ n) :
    Pulls n (arr :: src) arr src
  | part {b : Bytes} {src : List Arrival} (h : n < b.length) :
    Pulls n (.piece b :: src) (.piece (b.take n)) (.piece (b.drop n) :: src)

theorem pulls_of_eq (h : readUpTo n src = (arr, src')) : Pulls n src arr src' := by
  unfold readUpTo at h
  split at h
  · cases h
    exact .ended
  · split at h <;> cases h
    · next hle => exact .whole (by rintro _ ⟨⟩; exact hle)
    · next hlt => exact .part (not_le.mp hlt)
  · next hno =>
    cases h
    exact .whole fun b hb => absurd hb (hno b)

theorem contents_readUpTo (h : readUpTo n src = (arr, src')) :
    contents src = contents [arr] ++ contents src' := by
  cases pulls_of_eq h with
  | ended => rfl
  | whole => simp [contents]
  | part => simp [← append_assoc]

theorem backlog_readUpTo (hn : 0 < n) (h : source ≠ []) :
    backlog (readUpTo n source).2 < backlog source := by
  cases hr : readUpTo n source with
  | mk arr rest =>
    cases pulls_of_eq hr with
    | ended => exact absurd rfl h
    | whole => exact backlog_cons arr rest
    | part hlt =>
      simp [backlog]
      omega

theorem readUpTo_piece {rest : List Arrival} (h : readUpTo n source = (.piece pc, rest)) :
    pc.length ≤ n ∧ (pc ≠ [] → backlog rest < backlog source) := by
  generalize harr : Arrival.piece pc = arr at h
  cases pulls_of_eq h with
  | ended =>
    cases harr
    simp
  | whole hle => exact ⟨hle pc harr.symm, fun _ => backlog_cons arr rest⟩
  | part hlt =>
    cases harr
    refine ⟨length_take_le n _, fun hp => ?_⟩
    have hn : n ≠ 0 := fun hn => hp (by simp [hn])
    simp [backlog]
    omega

def Flowing (source : List Arrival) : Prop := .failed ∉ source ∧ .piece [] ∉ source

namespace Flowing

variable {source rest : List Arrival} {n : Nat}

theorem tail (h : Flowing (arr :: source)) : Flowing source :=
  ⟨fun hm => h.1 (mem_cons_of_mem _ hm), fun hm => h.2 (mem_cons_of_mem _ hm)⟩

theorem not_failed (h : Flowing src) : readUpTo n src ≠ (.failed, rest) := by
  intro hr
  cases pulls_of_eq hr
  exact h.1 mem_cons_self

theorem not_ended (h : Flowing src) (hn : 0 < n) (hne : src ≠ []) :
    readUpTo n src ≠ (.piece [], rest) := by
  intro hr
  generalize harr : Arrival.piece [] = arr at hr
  cases pulls_of_eq hr with
  | ended => exact hne rfl
  | whole => exact h.2 (harr ▸ mem_cons_self)
  | part hlt =>
    rw [Arrival.piece.injEq, eq_comm, take_eq_nil_iff] at harr
    rcases harr with rfl | rfl
    · exact hn.false
    · simp at hlt

theorem of_pending (h : Flowing src) (hr : readUpTo n src = (.pending, rest)) :
    Flowing rest ∧ contents rest = contents src ∧ src.length = rest.length + 1 := by
  cases pulls_of_eq hr
  exact ⟨h.tail, rfl, rfl⟩

theorem of_piece (h : Flowing src) (hr : readUpTo n src = (.piece pc, rest)) :
    Flowing rest ∧ contents src = pc ++ contents rest ∧ rest.length ≤ src.length := by
  have hc := contents_readUpTo hr
  rw [contents_piece, contents_nil, append_nil] at hc
  generalize Arrival.piece pc = arr at hr
  cases pulls_of_eq hr with
  | ended => exact ⟨h, hc, le_rfl⟩
  | whole => exact ⟨h.tail, hc, Nat.le_succ _⟩
  | part hlt =>
    refine ⟨⟨fun hm => h.tail.1 (mem_of_ne_of_mem (by simp) hm), fun hm => ?_⟩, hc, le_rfl⟩
    refine h.tail.2 (mem_of_ne_of_mem (fun he => ?_) hm)
    rw [Arrival.piece.injEq, eq_comm, drop_eq_nil_iff] at he
    exact hlt.not_ge he

end Flowing

end XrayCore.Lib
