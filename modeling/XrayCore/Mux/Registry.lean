import XrayCore.Mux.Integrity
import XrayCore.Mux.Server

/-!
# When the registry is true to its sessions

A close is to make a session's entry Expiring, for the cleanup to take off. But the registry and the
session each hold their own copy of the entry, and a close changes the session's. So an entry stays
Active when its session is closed in any way but one, the takeover by a session with the same
GlobalID, which replaces the entry as well.
-/

namespace XrayCore.Mux

open Lib List SessionManager XudpManager
open XrayCore.Xudp (GlobalId)

namespace SessionManager

def Live (m : SessionManager) (r : SessionRef) : Prop :=
  ∃ session, m.arena[r]? = some session ∧ session.closedFlag = false

variable {m : SessionManager} {r r' : SessionRef}

theorem Live.lt (h : m.Live r) : r < m.arena.length := by
  obtain ⟨s, hr, -⟩ := h
  exact (List.getElem?_eq_some_iff.mp hr).1

theorem live_modify (m : SessionManager) (r : SessionRef)
    (hf : ∀ sess, (f sess).closedFlag = sess.closedFlag) : (m.modify r f).Live r' ↔ m.Live r' := by
  unfold Live modify
  rw [List.getElem?_modify]
  cases hr : m.arena[r']? with
  | none => simp
  | some sess =>
    by_cases heq : r = r'
    · simp [heq, hf]
    · simp [heq]

theorem length_modify (m : SessionManager) (r : SessionRef) (f : Session → Session) :
    (m.modify r f).arena.length = m.arena.length :=
  List.length_modify ..

theorem arena_closeSession (m : SessionManager) (r : SessionRef) (now : Nat) :
    (m.closeSession r now).1.arena =
      m.arena.modify r fun s => if s.closedFlag then s else s.shutDown now := by
  apply ext_getElem?
  intro i
  rw [List.getElem?_modify]
  unfold closeSession
  cases hr : m.arena[r]? with
  | none =>
    by_cases hi : r = i
    · subst hi
      simp [hr]
    · simp [hi]
  | some se =>
    cases hc : se.closedFlag with
    | true =>
      by_cases hi : r = i
      · subst hi
        simp [hr, hc]
      · simp [hi, hc]
    | false =>
      have hs : (if se.hasParent = true then
            { m with arena := m.arena.set r (se.shutDown now) }.remove se.id
          else { m with arena := m.arena.set r (se.shutDown now) }).arena =
          m.arena.set r (se.shutDown now) := by
        split
        · rw [arena_remove]
        · rfl
      simp only [hc, Bool.false_eq_true, if_false, hs, List.getElem?_set]
      by_cases hi : r = i
      · subst hi
        obtain ⟨hlt, -⟩ := List.getElem?_eq_some_iff.mp hr
        rw [if_pos rfl, if_pos hlt, hr]
        simp [hc]
      · simp [hi]

theorem live_closeSession (m : SessionManager) (r : SessionRef) (now : Nat) :
    (m.closeSession r now).1.Live r' ↔ r' ≠ r ∧ m.Live r' := by
  unfold Live
  rw [arena_closeSession, List.getElem?_modify]
  by_cases heq : r = r'
  · subst heq
    refine iff_of_false ?_ (fun h => h.1 rfl)
    rintro ⟨s, hs, ho⟩
    cases hr : m.arena[r]? with
    | none => simp [hr] at hs
    | some old =>
      simp only [hr, if_true, Option.map_eq_map, Option.map_some, Option.some.injEq] at hs
      subst hs
      split at ho
      · next hc => exact absurd hc (Bool.eq_false_iff.mp ho)
      · exact absurd (old.closedFlag_shutDown now) (Bool.eq_false_iff.mp ho)
  · simp [heq, Ne.symm heq]

theorem live_foldl_closeSession (m : SessionManager) (refs : List SessionRef) (now : Nat) :
    (refs.foldl (fun m r => (m.closeSession r now).1) m).Live r ↔ r ∉ refs ∧ m.Live r := by
  induction refs generalizing m with
  | nil => simp
  | cons first refs ih =>
    rw [foldl_cons, ih, live_closeSession, mem_cons, not_or]
    exact ⟨fun ⟨hr, hne, hl⟩ => ⟨⟨hne, hr⟩, hl⟩, fun ⟨⟨hne, hr⟩, hl⟩ => ⟨hr, hne, hl⟩⟩

theorem length_closeSession (m : SessionManager) (r : SessionRef) (now : Nat) :
    (m.closeSession r now).1.arena.length = m.arena.length := by
  rw [arena_closeSession, List.length_modify]

theorem length_close (m : SessionManager) (now : Nat) :
    (m.close now).arena.length = m.arena.length := by
  unfold close
  split
  · rfl
  · have hs : m.markClosed.arena.length = m.arena.length := rfl
    exact runs_invariant (P := fun m' : SessionManager => m'.arena.length = m.arena.length) hs
      (fun m' r h => (m'.length_closeSession r now).trans h) (m.sessions.entries.map (·.2))

def closing (m : SessionManager) : List SessionRef :=
  if m.closed then [] else m.sessions.entries.map (·.2)

theorem live_close (m : SessionManager) (now : Nat) :
    (m.close now).Live r ↔ r ∉ m.closing ∧ m.Live r := by
  unfold close closing
  split
  · simp
  · exact live_foldl_closeSession m.markClosed _ now

theorem arena_closeIfNoSessionAndIdle (m : SessionManager) (checkSize : Nat) (cc : UInt16) :
    (m.closeIfNoSessionAndIdle checkSize cc).1.arena = m.arena := by
  unfold closeIfNoSessionAndIdle
  split
  · rfl
  · split <;> rfl

theorem add_eq_some (h : m.add sess = (m', some r)) :
    r = m.arena.length ∧ m'.arena = m.arena ++ [sess.setParent] := by
  unfold add at h
  split at h
  · cases h
  · cases h
    exact ⟨rfl, rfl⟩

theorem add_eq_none (h : m.add session = (m', none)) : m' = m := by
  unfold add at h
  split at h
  · cases h
    rfl
  · cases h

end SessionManager

namespace XudpManager

theorem expired_eq_nil {x : XudpManager}
    (h : ∀ gid xudp, x.get gid = some xudp → xudp.status ≠ .expiring) (now : Nat) :
    x.expired now = [] := by
  unfold expired
  rw [filter_eq_nil_iff]
  rintro _ hm he
  obtain ⟨⟨gid, xudp⟩, hen, rfl⟩ := mem_map.mp hm
  exact h gid xudp (AList.mem_lookup_iff.mpr hen) (of_decide_eq_true he).1

end XudpManager

namespace ServerWorker

variable {w w' : ServerWorker} {gid : GlobalId} {r : SessionRef}

def Live (w : ServerWorker) (r : SessionRef) : Prop := w.sessionManager.Live r

def opened (w : ServerWorker) : Nat := w.sessionManager.arena.length

def ActiveUnclosed (w : ServerWorker) : Prop :=
  ∀ gid xudp, w.xudpManager.get gid = some xudp → xudp.status = .active →
    ∃ r, xudp.mux = some r ∧ w.Live r

/-- The steps of a worker: a frame, the end of a session's task or of the worker, the two things its
monitor does, and a round of the cleanup. -/
inductive Op
  | frame (env : Surroundings) (frame : FrameMetadata) (data : Bytes)
  | closeSession (r : SessionRef) (now : Nat)
  | close
  | closeManager (now : Nat)
  | closeIfNoSessionAndIdle (checkSize : Nat) (checkCount : UInt16)
  | cleanup (env : Surroundings)

def step (w : ServerWorker) : Op → ServerWorker
  | .frame env frame data => (w.handleFrame env frame data).1
  | .closeSession r now => w.closeSession r now
  | .close => w.close
  | .closeManager now => { w with sessionManager := w.sessionManager.close now }
  | .closeIfNoSessionAndIdle checkSize checkCount =>
    { w with sessionManager := (w.sessionManager.closeIfNoSessionAndIdle checkSize checkCount).1 }
  | .cleanup env => w.cleanup env

/-- The sessions that a step is told to close: that of an End frame, that of a task, or
those of the table. -/
def Op.closes (w : ServerWorker) : Op → List SessionRef
  | .frame _ m _ =>
    if m.sessionStatus = .ended then (w.sessionManager.get m.sessionId).toList else []
  | .closeSession r _ => [r]
  | .closeManager _ => w.sessionManager.closing
  | _ => []

def Op.SparesActive (w : ServerWorker) (op : Op) : Prop :=
  ∀ gid xudp, w.xudpManager.get gid = some xudp → xudp.status = .active →
    ∀ r ∈ op.closes w, xudp.mux ≠ some r

/-- Other entries stay, and only the session of the GlobalID's entry may have been
closed. -/
structure Detaches (gid : GlobalId) (w w' : ServerWorker) : Prop where
  others : ∀ gid' ≠ gid, w'.xudpManager.get gid' = w.xudpManager.get gid'
  grows : w.opened ≤ w'.opened
  keeps : ∀ r, w.Live r → w'.Live r ∨ ∃ xudp, w.xudpManager.get gid = some xudp ∧ xudp.mux = some r

/-- What a New frame with a GlobalID does. The entry it leaves is Initializing, with the
session it had, or Active, with a session just opened. -/
structure Serves (gid : GlobalId) (w w' : ServerWorker) : Prop extends Detaches gid w w' where
  entry : ∀ xudp, w'.xudpManager.get gid = some xudp → (xudp.status = .initializing ∧
      ∀ r, xudp.mux = some r → ∃ old, w.xudpManager.get gid = some old ∧ old.mux = some r) ∨
    (xudp.status = .active ∧ ∃ r, xudp.mux = some r ∧ w.opened ≤ r ∧ w'.Live r)

theorem Detaches.refl (gid : GlobalId) (w : ServerWorker) : Detaches gid w w :=
  ⟨fun _ _ => rfl, le_refl _, fun _ hr => .inl hr⟩

theorem Detaches.modify (h : Detaches gid w w') (r : SessionRef)
    (hf : ∀ session, (f session).closedFlag = session.closedFlag) :
    Detaches gid w { w' with sessionManager := w'.sessionManager.modify r f } where
  others := h.others
  grows := by
    show w.opened ≤ (w'.sessionManager.modify r f).arena.length
    rw [SessionManager.length_modify]
    exact h.grows
  keeps := by
    intro i hi
    refine (h.keeps i hi).imp_left fun hl => ?_
    exact (SessionManager.live_modify _ r hf).mpr hl

theorem Detaches.register (h : Detaches gid w w') (xudp : XudpEntry) :
    Detaches gid w { w' with xudpManager := w'.xudpManager.register gid xudp } where
  others := fun gid' hne => (get_register_ne _ hne xudp).trans (h.others gid' hne)
  grows := h.grows
  keeps := h.keeps

theorem Detaches.unregister (h : Detaches gid w w') :
    Detaches gid w { w' with xudpManager := w'.xudpManager.unregister gid } where
  others := fun gid' hne => (get_unregister_ne _ hne).trans (h.others gid' hne)
  grows := h.grows
  keeps := h.keeps

variable {xudp : XudpEntry}

theorem Detaches.closeSession (hx : w.xudpManager.get gid = some xudp)
    (hm : xudp.mux = some r) (now : Nat) : Detaches gid w (w.closeSession r now) where
  others := fun _ _ => rfl
  grows := le_of_eq (length_closeSession ..).symm
  keeps := by
    intro i hi
    by_cases heq : i = r
    · subst heq
      exact .inr ⟨xudp, hx, hm⟩
    · exact .inl ((live_closeSession _ r now).mpr ⟨heq, hi⟩)

variable {session : Session}

theorem addSession_some (ho : session.closedFlag = false)
    (h : w.addSession session = (w', some r)) :
    w'.xudpManager = w.xudpManager ∧ r = w.opened ∧ w'.opened = w.opened + 1 ∧
      (∀ i, i < w.opened → (w'.Live i ↔ w.Live i)) ∧ w'.Live r := by
  unfold addSession at h
  cases had : w.sessionManager.add session with
  | mk m r' =>
    rw [had] at h
    cases h
    obtain ⟨rfl, ha⟩ := add_eq_some had
    refine ⟨rfl, rfl, ?_, ?_, session.setParent, ?_, ho⟩
    · show m.arena.length = _
      rw [ha, length_append]
      rfl
    · intro i hi
      show m.Live i ↔ _
      rw [SessionManager.Live, ha, List.getElem?_append_left hi]
      exact Iff.rfl
    · show m.arena[_]? = _
      rw [ha, List.getElem?_concat_length]

theorem addSession_none (h : w.addSession session = (w', none)) : w' = w := by
  unfold addSession at h
  cases ha : w.sessionManager.add session with
  | mk m r' =>
    rw [ha] at h
    cases h
    rw [add_eq_none ha]

theorem Detaches.activate (h : Detaches gid w w1)
    (ho : session.closedFlag = false) (had : w1.addSession session = (w', some r))
    (xudp : XudpEntry) : Serves gid w (w'.activate gid xudp r) := by
  obtain ⟨hre, hr, hop, hl, hnew⟩ := addSession_some ho had
  have ha : ∀ i, (w'.activate gid xudp r).Live i ↔ w'.Live i := fun i =>
    SessionManager.live_modify _ r fun _ => rfl
  refine ⟨⟨?_, ?_, ?_⟩, ?_⟩
  · intro gid' hne
    show (w'.xudpManager.register gid _).get gid' = _
    rw [get_register_ne _ hne, hre]
    exact h.others gid' hne
  · show w.opened ≤ (w'.sessionManager.modify r _).arena.length
    rw [SessionManager.length_modify]
    exact le_trans h.grows (le_trans (Nat.le_succ _) (le_of_eq hop.symm))
  · intro i hi
    exact (h.keeps i hi).imp_left fun h => (ha i).mpr ((hl i h.lt).mpr h)
  · intro e he
    cases (get_register_self ..).symm.trans he
    exact .inr ⟨rfl, r, rfl, hr ▸ h.grows, (ha r).mpr hnew⟩

theorem firstPacket_detaches (h : Detaches gid w w')
    (hf : w'.firstPacket env r data = some w1) : Detaches gid w w1 := by
  unfold firstPacket at hf
  split at hf
  · cases hf
    exact h
  split at hf
  · cases hf
    exact h.modify r fun _ => rfl
  · cases hf

theorem xudpHitRebind_spec (hx : w.xudpManager.get gid = some xudp)
    (hm : xudp.mux = some r) (env : Surroundings) (frame : FrameMetadata) (data : Bytes) :
    Detaches gid w (w.xudpHitRebind env r frame data gid xudp).1 ∧
      ((w.xudpHitRebind env r frame data gid xudp).2 = true →
        Serves gid w (w.xudpHitRebind env r frame data gid xudp).1) := by
  have hc := Detaches.closeSession hx hm env.now
  unfold xudpHitRebind
  dsimp only
  split
  · exact ⟨hc, nofun⟩
  · next w1 hf =>
    have ht := (firstPacket_detaches hc hf).modify r
      (f := fun s => { s with input := none, output := none }) fun _ => rfl
    split
    · split
      · next w2 ha =>
        rw [addSession_none ha]
        exact ⟨ht, nofun⟩
      · next w2 r' ha =>
        have hserves := ht.activate rfl ha xudp
        exact ⟨hserves.toDetaches, fun _ => hserves⟩
    · exact ⟨ht, nofun⟩

theorem hitActive_spec (hx : w.xudpManager.get gid = some xudp)
    (env : Surroundings) (frame : FrameMetadata) (data : Bytes) :
    Detaches gid w (w.hitActive env frame data gid xudp).1 ∧
      ((w.hitActive env frame data gid xudp).2 = true →
        Serves gid w (w.hitActive env frame data gid xudp).1) := by
  unfold hitActive
  split
  · next old _ hm =>
    split
    · exact xudpHitRebind_spec hx hm env frame data
    · exact ⟨.refl gid w, nofun⟩
  · exact ⟨.refl gid w, nofun⟩

theorem openXudp_serves (h : Detaches gid w w') (xudp : XudpEntry)
    (hs : xudp.status = .initializing)
    (hm : ∀ r, xudp.mux = some r → ∃ old, w.xudpManager.get gid = some old ∧ old.mux = some r)
    (env : Surroundings) (frame : FrameMetadata) (data : Bytes) (target : Net.Destination) :
    Serves gid w (w'.openXudp env frame data gid target xudp).1 := by
  have hr := h.register xudp
  have hserves : Serves gid w { w' with xudpManager := w'.xudpManager.register gid xudp } := by
    refine ⟨hr, fun e he => ?_⟩
    cases (get_register_self ..).symm.trans he
    exact .inl ⟨hs, hm⟩
  unfold openXudp
  dsimp only
  split
  · refine ⟨hr.unregister, fun e he => ?_⟩
    cases (get_unregister_self ..).symm.trans he
  split
  · exact hserves
  split
  · next w2 ha =>
    rw [addSession_none ha]
    exact hserves
  · next w2 r ha => exact hr.activate rfl ha xudp

theorem handleXudpNew_serves (w : ServerWorker) (env : Surroundings) (frame : FrameMetadata)
    (data : Bytes) (gid : GlobalId) : (w.handleXudpNew env frame data gid).1 = w ∨
      Serves gid w (w.handleXudpNew env frame data gid).1 := by
  unfold handleXudpNew
  split
  · exact .inl rfl
  · next t _ =>
    split
    · exact .inr (openXudp_serves (.refl gid w) (.new env.now) rfl (nofun) env
        frame data t)
    · next xudp hx =>
      obtain ⟨hd, hserves⟩ := hitActive_spec hx env frame data
      split
      · exact .inl rfl
      split
      · next w1 hh =>
        rw [hh] at hserves
        exact .inr (hserves rfl)
      · next w1 hh =>
        rw [hh] at hd
        exact .inr (openXudp_serves hd { xudp with status := .initializing } rfl
          (fun r hr => ⟨xudp, hx, hr⟩) env frame data t)

/-- Two entries never name one session, no entry names a session yet to come, and none
is Expiring. -/
structure Linked (w : ServerWorker) : Prop where
  lt_opened : ∀ gid xudp r, w.xudpManager.get gid = some xudp → xudp.mux = some r → r < w.opened
  mux_inj : ∀ gid gid' xudp xudp' r, w.xudpManager.get gid = some xudp →
    w.xudpManager.get gid' = some xudp' → xudp.mux = some r → xudp'.mux = some r → gid = gid'
  not_expiring : ∀ gid xudp, w.xudpManager.get gid = some xudp → xudp.status ≠ .expiring

theorem Linked.mono (h : w.Linked) (hre : w'.xudpManager = w.xudpManager)
    (hg : w.opened ≤ w'.opened) : w'.Linked := by
  obtain ⟨hlt, hi, hs⟩ := h
  refine ⟨?_, ?_, ?_⟩
  all_goals rw [hre]
  · exact fun gid xudp r hx hr => lt_of_lt_of_le (hlt gid xudp r hx hr) hg
  · exact hi
  · exact hs

theorem Serves.mux_ne (hs : Serves gid w w') (h : w.Linked) (hne : gid' ≠ gid)
    (hx : w'.xudpManager.get gid = some xudp)
    (hx' : w'.xudpManager.get gid' = some xudp') (hr : xudp.mux = some r) : xudp'.mux ≠ some r := by
  intro hr'
  rw [hs.others gid' hne] at hx'
  rcases hs.entry xudp hx with ⟨-, hold⟩ | ⟨-, r', hm, hnew, -⟩
  · obtain ⟨old, hg, hm⟩ := hold r hr
    exact hne (h.mux_inj gid' gid xudp' old r hx' hg hr' hm)
  · cases hr.symm.trans hm
    exact absurd (h.lt_opened gid' xudp' r hx' hr') (not_lt.mpr hnew)

theorem Serves.linked (hs : Serves gid w w') (h : w.Linked) : w'.Linked where
  lt_opened := by
    intro gid' xudp r hx hr
    by_cases hne : gid' = gid
    · subst hne
      rcases hs.entry xudp hx with ⟨-, hold⟩ | ⟨-, r', hm, -, hl⟩
      · obtain ⟨old, hg, hm⟩ := hold r hr
        exact lt_of_lt_of_le (h.lt_opened gid' old r hg hm) hs.grows
      · cases hr.symm.trans hm
        exact hl.lt
    · rw [hs.others gid' hne] at hx
      exact lt_of_lt_of_le (h.lt_opened gid' xudp r hx hr) hs.grows
  mux_inj := by
    intro gid1 gid2 xudp1 xudp2 r h1 h2 hr1 hr2
    by_contra hne
    by_cases heq1 : gid1 = gid
    · subst heq1
      exact hs.mux_ne h (Ne.symm hne) h1 h2 hr1 hr2
    by_cases heq2 : gid2 = gid
    · subst heq2
      exact hs.mux_ne h hne h2 h1 hr2 hr1
    · rw [hs.others gid1 heq1] at h1
      rw [hs.others gid2 heq2] at h2
      exact hne (h.mux_inj gid1 gid2 xudp1 xudp2 r h1 h2 hr1 hr2)
  not_expiring := by
    intro gid' xudp hx
    by_cases hne : gid' = gid
    · subst hne
      rcases hs.entry xudp hx with ⟨hst, -⟩ | ⟨hst, -⟩
      all_goals
        rw [hst]
        decide
    · rw [hs.others gid' hne] at hx
      exact h.not_expiring gid' xudp hx

theorem Serves.activeUnclosed (hs : Serves gid w w') (hli : w.Linked)
    (h : w.ActiveUnclosed) : w'.ActiveUnclosed := by
  intro gid' xudp hx ha
  by_cases hne : gid' = gid
  · subst hne
    rcases hs.entry xudp hx with ⟨hst, -⟩ | ⟨-, r, hm, -, hl⟩
    · cases hst.symm.trans ha
    · exact ⟨r, hm, hl⟩
  · rw [hs.others gid' hne] at hx
    obtain ⟨r, hm, hl⟩ := h gid' xudp hx ha
    refine ⟨r, hm, (hs.keeps r hl).resolve_right ?_⟩
    rintro ⟨old, hg, hr⟩
    exact hne (hli.mux_inj gid' gid xudp old r hx hg hm hr)

/-- A step that leaves the registry alone: of the sessions there were, the listed ones
are closed and no others. -/
structure Closes (refs : List SessionRef) (w w' : ServerWorker) : Prop where
  registry : w'.xudpManager = w.xudpManager
  grows : w.opened ≤ w'.opened
  live : ∀ r, r < w.opened → (w'.Live r ↔ r ∉ refs ∧ w.Live r)

theorem Closes.refl (w : ServerWorker) : Closes [] w w := ⟨rfl, le_refl _, fun r _ => by simp⟩

theorem Closes.writeOutput (w : ServerWorker) (r : SessionRef) (data : Bytes) :
    Closes [] w (w.writeOutput r data) where
  registry := rfl
  grows := le_of_eq (SessionManager.length_modify ..).symm
  live := fun i _ => by
    have hs : (w.writeOutput r data).Live i ↔ w.Live i :=
      SessionManager.live_modify _ r fun _ => rfl
    simpa using hs

theorem Closes.closeSession (w : ServerWorker) (r : SessionRef) (now : Nat) :
    Closes [r] w (w.closeSession r now) where
  registry := rfl
  grows := le_of_eq (length_closeSession ..).symm
  live := fun i _ => by
    rw [mem_singleton]
    exact live_closeSession _ r now

theorem handleNormalNew_closes (w : ServerWorker) (env : Surroundings) (frame : FrameMetadata)
    (data : Bytes) : Closes [] w (w.handleNormalNew env frame data).1 := by
  unfold handleNormalNew
  split
  · exact .refl w
  dsimp only
  split
  · exact .refl w
  split
  · exact .refl w
  split
  · next w' ha =>
    rw [addSession_none ha]
    exact .refl w
  · next w' r ha =>
    obtain ⟨hr, -, ho, hl, -⟩ := addSession_some rfl ha
    refine ⟨hr, le_trans (Nat.le_succ _) (le_of_eq ho.symm), ?_⟩
    intro i hi
    simpa using hl i hi

theorem handleStatusKeep_closes (w : ServerWorker) (env : Surroundings) (frame : FrameMetadata)
    (data : Bytes) : Closes [] w (w.handleStatusKeep env frame data) := by
  unfold handleStatusKeep
  split
  · exact .refl w
  · split
    · exact .writeOutput w _ data
    · exact .refl w

theorem handleStatusEnd_closes (w : ServerWorker) (env : Surroundings) (frame : FrameMetadata) :
    Closes (w.sessionManager.get frame.sessionId).toList w (w.handleStatusEnd env frame) := by
  unfold handleStatusEnd
  split
  · next hg =>
    rw [hg]
    exact .refl w
  · next r hg =>
    rw [hg]
    exact .closeSession w r env.now

theorem step_cases (h : w.Linked) (op : Op) :
    (op.closes w = [] ∧ ∃ gid, Serves gid w (w.step op)) ∨ Closes (op.closes w) w (w.step op) := by
  cases op with
  | frame env frame data =>
    simp only [step, handleFrame, Op.closes]
    cases hst : frame.sessionStatus with
    | new =>
      simp only [reduceCtorEq, if_false]
      split
      · exact .inr (.refl w)
      split
      · next gid _ =>
        split
        · rcases handleXudpNew_serves w env frame data gid with hs | hserves
          · rw [hs]
            exact .inr (.refl w)
          · exact .inl ⟨trivial, gid, hserves⟩
        · exact .inr (handleNormalNew_closes w env frame data)
      · exact .inr (handleNormalNew_closes w env frame data)
    | keep => exact .inr (handleStatusKeep_closes w env frame data)
    | ended => exact .inr (handleStatusEnd_closes w env frame)
    | keepAlive => exact .inr (.refl w)
  | closeSession r now => exact .inr (.closeSession w r now)
  | close => exact .inr ⟨rfl, le_refl _, fun r _ => by simp [Op.closes, step, close, Live]⟩
  | closeManager now =>
    exact .inr ⟨rfl, le_of_eq (length_close ..).symm, fun r _ => live_close ..⟩
  | closeIfNoSessionAndIdle checkSize cc =>
    have ha := w.sessionManager.arena_closeIfNoSessionAndIdle checkSize cc
    refine .inr ⟨rfl, le_of_eq (congrArg List.length ha).symm, fun r _ => ?_⟩
    simp [Op.closes, step, Live, SessionManager.Live, ha]
  | cleanup env =>
    -- no entry is Expiring, so there is nothing to clean up
    have hn := XudpManager.expired_eq_nil h.not_expiring env.now
    have hs : w.step (.cleanup env) = w := by
      simp [step, cleanup, XudpManager.cleanup, hn]
    rw [hs]
    exact .inr (.refl w)

theorem Linked.step (h : w.Linked) (op : Op) : (w.step op).Linked := by
  rcases step_cases h op with ⟨-, gid, hserves⟩ | hc
  · exact hserves.linked h
  · exact h.mono hc.registry hc.grows

theorem activeUnclosed_step_iff (hl : w.Linked) (h : w.ActiveUnclosed) (op : Op) :
    (w.step op).ActiveUnclosed ↔ op.SparesActive w := by
  rcases step_cases hl op with ⟨hn, gid, hserves⟩ | ⟨hre, -, hli⟩
  · refine iff_of_true (hserves.activeUnclosed hl h) ?_
    intro _ _ _ _ r hr
    rw [hn] at hr
    cases hr
  · constructor
    · intro hs gid xudp hx ha r hr hm
      have hx' : (w.step op).xudpManager.get gid = some xudp := by rw [hre, hx]
      obtain ⟨r', hm', hl'⟩ := hs gid xudp hx' ha
      cases hm.symm.trans hm'
      have hlt := hl.lt_opened gid xudp r hx hm
      exact ((hli r hlt).mp hl').1 hr
    · intro hsp gid xudp hx ha
      rw [hre] at hx
      obtain ⟨r, hm, hr⟩ := h gid xudp hx ha
      have hlt := hl.lt_opened gid xudp r hx hm
      refine ⟨r, hm, (hli r hlt).mpr ⟨?_, hr⟩⟩
      exact fun hme => hsp gid xudp hx ha r hme hm

theorem get_new (rsl : Bool) (net : Option Net.Network)
    (gid : GlobalId) : (new rsl net).xudpManager.get gid = none :=
  AList.lookup_empty gid

theorem linked_new (readSourceAndLocal : Bool) (allowedNetwork : Option Net.Network) :
    (new readSourceAndLocal allowedNetwork).Linked where
  lt_opened := fun gid _ _ h => nomatch (get_new _ _ gid).symm.trans h
  mux_inj := fun gid _ _ _ _ h => nomatch (get_new _ _ gid).symm.trans h
  not_expiring := fun gid _ h => nomatch (get_new _ _ gid).symm.trans h

/-- In every run, every Active entry belongs to a session not closed all along exactly
when no step closes the session of an Active entry. -/
theorem activeUnclosed_throughout_iff (readSourceAndLocal : Bool)
    (allowedNetwork : Option Net.Network) (ops : List Op) :
    Throughout step ActiveUnclosed (new readSourceAndLocal allowedNetwork) ops ↔
      Guarded step (fun w op => op.SparesActive w) (new readSourceAndLocal allowedNetwork) ops := by
  have hlinked := linked_new readSourceAndLocal allowedNetwork
  refine throughout_iff_guarded (R := fun w _ => w.Linked) hlinked ?_ ?_ ?_
  · exact fun gid _ h => nomatch (get_new _ _ gid).symm.trans h
  · exact fun w op _ h => h.step op
  · exact fun w op _ hlinked h => activeUnclosed_step_iff hlinked h op

def openAndEnd : List Op :=
  [.frame obliging FrameMetadata.globalIdFrame [1], .frame obliging (.new 7 .ended 0) []]

/-- The entry of a session that an End frame closed is still Active. -/
theorem ended_session_stays_active :
    ¬Throughout step ActiveUnclosed (new false none) openAndEnd := by
  rintro ⟨-, -, h⟩
  obtain ⟨r, hmux, session, hsession, hopen⟩ := h FrameMetadata.nines ⟨⟨.active, 0⟩, some 0⟩ rfl rfl
  cases hmux
  cases hsession
  cases hopen

/-- The cleanup of the registry never finds an entry to remove. -/
theorem expired_runs_eq_nil (rsl : Bool) (net : Option Net.Network) (ops : List Op) (now : Nat) :
    (runs step (new rsl net) ops).xudpManager.expired now = [] := by
  have hl := runs_invariant (P := Linked) (linked_new rsl net) (fun w op h => h.step op) ops
  exact XudpManager.expired_eq_nil hl.not_expiring now

/-- Whatever frames arrive, no session stands in the entries of two GlobalIDs. -/
theorem one_globalId (rsl : Bool) (net : Option Net.Network) (ops : List Op) (r : SessionRef) :
    { gid | ∃ xudp, (runs step (new rsl net) ops).xudpManager.get gid = some xudp ∧
      xudp.mux = some r }.Subsingleton := by
  have hl := runs_invariant (P := Linked) (linked_new rsl net) (fun w op h => h.step op) ops
  rintro gid ⟨xudp, hx, hr⟩ gid' ⟨xudp', hx', hr'⟩
  exact hl.mux_inj gid gid' xudp xudp' r hx hx' hr hr'

end ServerWorker

end XrayCore.Mux
