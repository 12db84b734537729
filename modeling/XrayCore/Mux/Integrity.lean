import XrayCore.Lib.Runs
import XrayCore.Mux.Session

/-!
# When the session table is sound

The mirror `size` should be the number of entries, and closing a session should take no other
session off the table. Registering counts an entry even when it replaces one, and a session is taken
off by its id, so both hold exactly as long as no session is registered under an id that the table
or a session not yet closed still has.
-/

namespace XrayCore.Mux

open Lib List AList

namespace SessionManager

inductive Op
  | allocate (strategy : ClientStrategy)
  | add (session : Session)
  | remove (id : UInt16)
  | closeSession (r : SessionRef) (now : Nat)
  | closeIfNoSessionAndIdle (checkSize : Nat) (checkCount : UInt16)
  | close (now : Nat)

def step (m : SessionManager) : Op → SessionManager
  | .allocate strategy => (m.allocate strategy).1
  | .add session => (m.add session).1
  | .remove id => m.remove id
  | .closeSession r now => (m.closeSession r now).1
  | .closeIfNoSessionAndIdle checkSize checkCount =>
    (m.closeIfNoSessionAndIdle checkSize checkCount).1
  | .close now => m.close now

/-- The mirror counts the entries, and a close takes its own session off the
table or none. -/
structure Integrity (m : SessionManager) : Prop where
  size_eq : m.size = m.sessions.keys.length
  closes_own : ∀ r now id, (m.closeSession r now).1.sessions.lookup id = m.sessions.lookup id ∨
    m.sessions.lookup id = some r

structure Fresh (m : SessionManager) (id : UInt16) : Prop where
  not_mem : id ∉ m.sessions
  closed_of_id : ∀ session ∈ m.arena, session.id = id → session.closedFlag = true

def Op.registers (m : SessionManager) : Op → Option UInt16
  | .allocate strategy =>
    if m.closed || m.refuses strategy then none else some (saturatingSucc m.innerCount)
  | .add session => if m.closed then none else some session.id
  | _ => none

def Op.RegistersFresh (m : SessionManager) (op : Op) : Prop :=
  ∀ id ∈ op.registers m, m.Fresh id

def Parented (m : SessionManager) : Prop := ∀ session ∈ m.arena, session.hasParent = true

/-- On an open manager, what stands under the id of a session not yet closed is
that session. -/
def Owned (m : SessionManager) : Prop :=
  m.closed = false → ∀ r session, m.arena[r]? = some session → session.closedFlag = false →
    ∀ r', m.sessions.lookup session.id = some r' → r' = r

structure Tidy (m : SessionManager) : Prop where
  size_eq : m.size = m.sessions.keys.length
  owned : m.Owned

variable {m : SessionManager}

theorem lookup_remove (m : SessionManager) (id id' : UInt16) : (m.remove id).sessions.lookup id' =
      if m.closed = false ∧ id' = id then none else m.sessions.lookup id' := by
  unfold remove
  by_cases hr : m.closed = false ∧ id ∈ m.sessions
  · rw [if_pos hr]
    by_cases hid : id' = id
    · subst hid
      rw [if_pos ⟨hr.1, rfl⟩]
      exact lookup_erase _ _
    · rw [if_neg (fun h => hid h.2)]
      exact lookup_erase_ne hid
  · rw [if_neg hr]
    split
    · next h =>
      obtain ⟨ho, rfl⟩ := h
      exact lookup_eq_none.mpr fun hm => hr ⟨ho, hm⟩
    · rfl

theorem closeSession_cases (hp : m.Parented) (r : SessionRef) (now : Nat) :
    ((m.closeSession r now).1 = m ∧ ∀ sess, m.arena[r]? = some sess → sess.closedFlag = true) ∨
    ∃ sess, m.arena[r]? = some sess ∧ sess.closedFlag = false ∧ (m.closeSession r now).1 =
        { m with arena := m.arena.set r (sess.shutDown now) }.remove sess.id := by
  unfold closeSession
  split
  · next hn => exact .inl ⟨rfl, fun sess h => nomatch hn.symm.trans h⟩
  · next sess hsome =>
    split
    · next hc =>
      refine .inl ⟨rfl, fun s' h => ?_⟩
      cases hsome.symm.trans h
      exact hc
    · next ho =>
      have hpa := hp sess (mem_of_getElem? hsome)
      refine .inr ⟨sess, hsome, Bool.eq_false_iff.mpr ho, ?_⟩
      simp [hpa]

theorem integrity_iff_tidy (hp : m.Parented) : m.Integrity ↔ m.Tidy := by
  constructor
  · rintro ⟨hsize, how⟩
    refine ⟨hsize, ?_⟩
    intro ho r s hr hl r' hr'
    rcases closeSession_cases hp r 0 with ⟨-, hc⟩ | ⟨se', hsome, -, hst⟩
    · exact absurd (hc s hr) (Bool.eq_false_iff.mp hl)
    cases hr.symm.trans hsome
    rcases how r 0 s.id with hs | hse
    · rw [hst, lookup_remove, if_pos ⟨ho, rfl⟩, hr'] at hs
      cases hs
    · exact Option.some.inj (hr'.symm.trans hse)
  · rintro ⟨hsize, how⟩
    refine ⟨hsize, ?_⟩
    intro r now id
    rcases closeSession_cases hp r now with ⟨hs, -⟩ | ⟨s, hsome, hl, hst⟩
    · exact .inl (by rw [hs])
    rw [hst, lookup_remove]
    split
    · next h =>
      obtain ⟨ho, rfl⟩ := h
      cases hlo : m.sessions.lookup s.id with
      | none => exact .inl rfl
      | some r' => exact .inr (congrArg some (how ho r s hsome hl r' hlo))
    · exact .inl rfl

theorem arena_remove (m : SessionManager) (id : UInt16) : (m.remove id).arena = m.arena := by
  unfold remove
  split <;> rfl

theorem closed_remove (m : SessionManager) (id : UInt16) : (m.remove id).closed = m.closed := by
  unfold remove
  split <;> rfl

theorem Tidy.remove (h : m.Tidy) (id : UInt16) : (m.remove id).Tidy where
  size_eq := by
    unfold SessionManager.remove
    split
    · next hre =>
      show m.size - 1 = (m.sessions.erase id).keys.length
      rw [keys_erase, length_erase_of_mem (mem_keys.mp hre.2), h.size_eq]
    · exact h.size_eq
  owned := by
    intro ho r s hr hl r' hr'
    rw [closed_remove] at ho
    rw [arena_remove] at hr
    rw [lookup_remove] at hr'
    split at hr'
    · cases hr'
    · exact h.owned ho r s hr hl r' hr'

theorem Tidy.set (h : m.Tidy) (r : SessionRef) (hc : session.closedFlag = true) :
    { m with arena := m.arena.set r session }.Tidy where
  size_eq := h.size_eq
  owned := by
    intro ho i o hi hl r' hr'
    rw [getElem?_set] at hi
    split at hi
    · split at hi
      · cases hi
        exact absurd hc (Bool.eq_false_iff.mp hl)
      · cases hi
    · exact h.owned ho i o hi hl r' hr'

theorem Tidy.closeSession (h : m.Tidy) (hp : m.Parented) (r : SessionRef) (now : Nat) :
    (m.closeSession r now).1.Tidy := by
  rcases closeSession_cases hp r now with ⟨hs, -⟩ | ⟨s, -, -, hst⟩
  · rw [hs]
    exact h
  · rw [hst]
    exact (h.set r (s.closedFlag_shutDown now)).remove s.id

theorem Parented.closeSession (hp : m.Parented) (r : SessionRef) (now : Nat) :
    (m.closeSession r now).1.Parented := by
  rcases closeSession_cases hp r now with ⟨hs, -⟩ | ⟨s, hsome, -, hst⟩
  · rw [hs]
    exact hp
  intro o ho
  rw [hst, arena_remove] at ho
  rcases mem_or_eq_of_mem_set ho with hm | rfl
  · exact hp o hm
  · rw [s.hasParent_shutDown now]
    exact hp s (mem_of_getElem? hsome)

theorem closed_closeSession (hp : m.Parented) (r : SessionRef) (now : Nat) :
    (m.closeSession r now).1.closed = m.closed := by
  rcases closeSession_cases hp r now with ⟨hs, -⟩ | ⟨s, -, -, hst⟩
  · rw [hs]
  · rw [hst, closed_remove]

theorem closed_foldl_closeSession (hp : m.Parented) (refs : List SessionRef) (now : Nat) :
    (refs.foldl (fun m r => (m.closeSession r now).1) m.markClosed).closed = true ∧
      (refs.foldl (fun m r => (m.closeSession r now).1) m.markClosed).Parented := by
  have hs : m.markClosed.closed = true ∧ m.markClosed.Parented := ⟨rfl, hp⟩
  refine runs_invariant (P := fun m : SessionManager => m.closed = true ∧ m.Parented) hs ?_ refs
  rintro m r ⟨hc, hp⟩
  exact ⟨(closed_closeSession hp r now).trans hc, hp.closeSession r now⟩

theorem tidy_clear (hc : m.closed = true) : m.clear.Tidy :=
  ⟨rfl, fun ho => nomatch hc.symm.trans ho⟩

theorem tidy_close (h : m.Tidy) (hp : m.Parented) (now : Nat) : (m.close now).Tidy := by
  unfold close
  split
  · exact h
  · exact tidy_clear (closed_foldl_closeSession hp _ now).1

theorem Parented.close (hp : m.Parented) (now : Nat) : (m.close now).Parented := by
  unfold SessionManager.close
  split
  · exact hp
  · exact (closed_foldl_closeSession hp _ now).2

theorem tidy_closeIfNoSessionAndIdle (h : m.Tidy) (checkSize : Nat) (cc : UInt16) :
    (m.closeIfNoSessionAndIdle checkSize cc).1.Tidy := by
  unfold closeIfNoSessionAndIdle
  split
  · exact h
  · split
    · exact h
    · exact tidy_clear rfl

theorem lookup_register (m : SessionManager) (sess : Session) :
    (m.register sess).1.sessions.lookup sess.id = some m.arena.length :=
  lookup_insert _

theorem fresh_of_tidy_register (h : m.Tidy) (ho : m.closed = false)
    (hr : (m.register session).1.Tidy) : m.Fresh session.id where
  not_mem := by
    intro hm
    have hle : (m.sessions.insert session.id m.arena.length).keys.length =
        m.sessions.keys.length := by
      rw [keys_insert, length_cons, length_erase_of_mem (mem_keys.mp hm)]
      exact Nat.sub_add_cancel (length_pos_of_mem (mem_keys.mp hm))
    exact absurd (hr.size_eq.trans (hle.trans h.size_eq.symm)) (Nat.succ_ne_self m.size)
  closed_of_id := by
    intro o hot hid
    obtain ⟨i, hi, rfl⟩ := mem_iff_getElem.mp hot
    by_contra hl
    have hg : (m.register session).1.arena[i]? = some m.arena[i] := by
      show (m.arena ++ [session.setParent])[i]? = some m.arena[i]
      rw [getElem?_append_left hi, getElem?_eq_getElem hi]
    have hla := hr.owned ho i m.arena[i] hg (Bool.eq_false_iff.mpr hl) m.arena.length
      (hid ▸ m.lookup_register session)
    exact absurd hla (Nat.ne_of_gt hi)

theorem Fresh.tidy_register (hf : m.Fresh session.id) (h : m.Tidy) (ho : m.closed = false) :
    (m.register session).1.Tidy where
  size_eq := by
    show m.size + 1 = (m.sessions.insert session.id m.arena.length).keys.length
    rw [keys_insert, length_cons, erase_of_not_mem (mem_keys.not.mp hf.not_mem), h.size_eq]
  owned := by
    intro _ i other hi hl r' hr'
    have hi' : (m.arena ++ [session.setParent])[i]? = some other := hi
    rcases Nat.lt_or_ge i m.arena.length with hlt | hge
    · rw [getElem?_append_left hlt] at hi'
      have hne : other.id ≠ session.id := by
        intro hid
        have hc := hf.closed_of_id other (mem_of_getElem? hi') hid
        exact absurd hc (Bool.eq_false_iff.mp hl)
      have hr : m.sessions.lookup other.id = some r' := (lookup_insert_ne hne).symm.trans hr'
      exact h.owned ho i other hi' hl r' hr
    · rw [getElem?_append_right hge, getElem?_singleton] at hi'
      split at hi'
      · next hz =>
        cases hi'
        have hr : r' = m.arena.length :=
          Option.some.inj (hr'.symm.trans (m.lookup_register session))
        rw [hr]
        exact Nat.le_antisymm hge (Nat.sub_eq_zero_iff_le.mp hz)
      · cases hi'

theorem tidy_register_iff (h : m.Tidy) (ho : m.closed = false) (sess : Session) :
    (m.register sess).1.Tidy ↔ m.Fresh sess.id :=
  ⟨fresh_of_tidy_register h ho, fun hf => hf.tidy_register h ho⟩

theorem Parented.register (hp : m.Parented) (sess : Session) : (m.register sess).1.Parented := by
  intro o ho
  rcases mem_append.mp ho with hm | hm
  · exact hp o hm
  · cases mem_singleton.mp hm
    rfl

def RegistersOrKeeps (m : SessionManager) (op : Op) : Prop :=
  (m.step op = m ∧ op.registers m = none) ∨
  ∃ session, m.closed = false ∧ m.step op = (m.register session).1 ∧
    op.registers m = some session.id

theorem registersOrKeeps_allocate (m : SessionManager) (strategy : ClientStrategy) :
    m.RegistersOrKeeps (.allocate strategy) := by
  cases hc : m.closed with
  | true => exact .inl ⟨by simp [step, allocate, hc], by simp [Op.registers, hc]⟩
  | false =>
    cases hr : m.refuses strategy with
    | true =>
      exact .inl ⟨by simp [step, allocate, hr], by simp [Op.registers, hr]⟩
    | false =>
      refine .inr ⟨.new (saturatingSucc m.innerCount) .stream, hc, ?_, ?_⟩
      · simp [step, allocate, hc, hr]
      · simp [Op.registers, hc, hr, Session.new]

theorem registersOrKeeps_add (m : SessionManager) (sess : Session) :
    m.RegistersOrKeeps (.add sess) := by
  cases hc : m.closed with
  | true => exact .inl ⟨by simp [step, add, hc], by simp [Op.registers, hc]⟩
  | false =>
    refine .inr ⟨sess, hc, ?_, ?_⟩
    · simp [step, add, hc]
    · simp [Op.registers, hc]

variable {op : Op}

theorem registersFresh_of_none (h : op.registers m = none) : op.RegistersFresh m := by
  intro id hid
  rw [h] at hid
  cases hid

theorem RegistersOrKeeps.tidy_iff (hop : m.RegistersOrKeeps op) (h : m.Tidy) :
    (m.step op).Tidy ↔ op.RegistersFresh m := by
  rcases hop with ⟨hs, hn⟩ | ⟨s, ho, hr, hid⟩
  · rw [hs]
    exact iff_of_true h (registersFresh_of_none hn)
  · rw [hr, tidy_register_iff h ho, Op.RegistersFresh, hid]
    simp

theorem RegistersOrKeeps.parented (hop : m.RegistersOrKeeps op) (hp : m.Parented) :
    (m.step op).Parented := by
  rcases hop with ⟨hs, -⟩ | ⟨s, -, hr, -⟩
  · rw [hs]
    exact hp
  · rw [hr]
    exact hp.register s

theorem tidy_step_iff (h : m.Tidy) (hp : m.Parented) (op : Op) :
    (m.step op).Tidy ↔ op.RegistersFresh m := by
  cases op with
  | allocate s => exact (m.registersOrKeeps_allocate s).tidy_iff h
  | add se => exact (m.registersOrKeeps_add se).tidy_iff h
  | remove id => exact iff_of_true (h.remove id) (registersFresh_of_none rfl)
  | closeSession r now => exact iff_of_true (h.closeSession hp r now) (registersFresh_of_none rfl)
  | closeIfNoSessionAndIdle cs cc =>
    exact iff_of_true (tidy_closeIfNoSessionAndIdle h cs cc) (registersFresh_of_none rfl)
  | close now => exact iff_of_true (tidy_close h hp now) (registersFresh_of_none rfl)

theorem Parented.step (hp : m.Parented) (op : Op) : (m.step op).Parented := by
  cases op with
  | allocate st => exact (m.registersOrKeeps_allocate st).parented hp
  | add s => exact (m.registersOrKeeps_add s).parented hp
  | remove id =>
    intro s hs
    exact hp s (m.arena_remove id ▸ hs)
  | closeSession r now => exact hp.closeSession r now
  | closeIfNoSessionAndIdle cs cc =>
    show (m.closeIfNoSessionAndIdle cs cc).1.Parented
    unfold closeIfNoSessionAndIdle
    split
    · exact hp
    · split <;> exact hp
  | close now => exact hp.close now

/-- The table keeps its integrity through a run exactly when every session that
is registered comes with a fresh id. -/
theorem integrity_iff_fresh (ops : List Op) :
    Throughout step Integrity new ops ↔ Guarded step (fun m op => op.RegistersFresh m) new ops := by
  have hp : new.Parented := fun session h => nomatch h
  have hnew : new.Integrity := (integrity_iff_tidy hp).mpr ⟨rfl, fun _ r session hr => nomatch hr⟩
  refine throughout_iff_guarded (R := fun m _ => m.Parented) hp hnew ?_ ?_
  · intro m op _ hp
    exact hp.step op
  · intro m op _ hp h
    rw [integrity_iff_tidy (hp.step op)]
    exact tidy_step_iff ((integrity_iff_tidy hp).mp h) hp op

/-- Two New frames with session id 5: the table has one entry and the mirror says
2, and closing the first session takes the second off the table. -/
theorem second_session_of_an_id :
    let m := runs step new [.add (.new 5 .stream), .add (.new 5 .stream)]
    m.size = 2 ∧ m.sessions.keys = [5] ∧ m.sessions.lookup 5 = some 1 ∧
      (m.closeSession 0 0).1.sessions.lookup 5 = none ∧ ¬m.Integrity := by
  refine ⟨by decide, by decide, by decide, by decide, ?_⟩
  intro h
  exact absurd h.size_eq (by decide)

end SessionManager

end XrayCore.Mux
