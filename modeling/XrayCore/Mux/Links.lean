import XrayCore.Mux.Server

/-!
# What the links were given

`Holds` describes a worker by what each session's link was given so far. A New frame with an id that
is new opens a session, a Keep frame goes to the session of its id, and what all other links were
given stays as it is, in surroundings in which nothing is refused.
-/

namespace XrayCore.Mux

open Lib Net
open XrayCore.Xudp (GlobalId)

namespace SessionManager

/-- The open table has a session for each id that something was handed to, over a link
that was given just that. -/
structure Holds (handed : UInt16 → Option (List Bytes)) (m : SessionManager) : Prop where
  not_closed : m.closed = false
  absent : ∀ id, handed id = none → m.sessions.lookup id = none
  present : ∀ id written, handed id = some written → ∃ r session output,
    m.sessions.lookup id = some r ∧ m.arena[r]? = some session ∧ session.id = id ∧
      session.output = some output ∧ output.written = written

variable {m : SessionManager} {handed : UInt16 → Option (List Bytes)}

theorem Holds.of_lookup (h : m.Holds handed) {id : UInt16} {r : SessionRef}
    (hr : m.sessions.lookup id = some r) : ∃ sess out, m.arena[r]? = some sess ∧
      sess.id = id ∧ sess.output = some out ∧ handed id = some out.written := by
  cases hh : handed id with
  | none => cases (h.absent id hh).symm.trans hr
  | some written =>
    obtain ⟨r', sess, out, hr', hs, hid, ho, rfl⟩ := h.present id written hh
    cases hr.symm.trans hr'
    exact ⟨sess, out, hs, hid, ho, rfl⟩

theorem Holds.add (h : m.Holds handed) (hou : session.output = some output) :
    ∃ m', m.add session = (m', some m.arena.length) ∧
      m'.sessions.lookup session.id = some m.arena.length ∧
      m'.Holds (Function.update handed session.id (some output.written)) := by
  refine ⟨(m.register session).1, ?_, AList.lookup_insert _, h.not_closed, ?_, ?_⟩
  · rw [SessionManager.add, h.not_closed]
    rfl
  · intro id hid
    by_cases hne : id = session.id
    · subst hne
      rw [Function.update_self] at hid
      cases hid
    · rw [Function.update_of_ne hne] at hid
      exact (AList.lookup_insert_ne hne).trans (h.absent id hid)
  · intro id written hid
    by_cases hne : id = session.id
    · subst hne
      rw [Function.update_self] at hid
      cases hid
      exact ⟨m.arena.length, session.setParent, output, AList.lookup_insert _,
        List.getElem?_concat_length, rfl, hou, rfl⟩
    · rw [Function.update_of_ne hne] at hid
      obtain ⟨r, ot, o', hr, ho, hrest⟩ := h.present id written hid
      refine ⟨r, ot, o', (AList.lookup_insert_ne hne).trans hr, ?_, hrest⟩
      have hlt := (List.getElem?_eq_some_iff.mp ho).1
      exact (List.getElem?_append_left hlt).trans ho

theorem Holds.modify (h : m.Holds handed) {id : UInt16} {r : SessionRef}
    (hr : m.sessions.lookup id = some r) {f : Session → Session} {g : Output → Output}
    (hfi : ∀ session, (f session).id = session.id)
    (hf : ∀ session, (f session).output = session.output.map g) (written : List Bytes)
    (hg : ∀ out : Output, handed id = some out.written → (g out).written = written) :
    (m.modify r f).Holds (Function.update handed id (some written)) := by
  obtain ⟨session, out, hs, hid, ho, hh⟩ := h.of_lookup hr
  refine ⟨h.not_closed, ?_, ?_⟩
  · intro id' hid'
    by_cases hne : id' = id
    · subst hne
      rw [Function.update_self] at hid'
      cases hid'
    · rw [Function.update_of_ne hne] at hid'
      exact h.absent id' hid'
  · intro id' w' hid'
    by_cases hne : id' = id
    · subst hne
      rw [Function.update_self] at hid'
      cases hid'
      refine ⟨r, f session, g out, hr, ?_, (hfi session).trans hid, ?_, hg out hh⟩
      · rw [SessionManager.modify, List.getElem?_modify_eq, hs]
        rfl
      · rw [hf, ho]
        rfl
    · rw [Function.update_of_ne hne] at hid'
      obtain ⟨r', s', o', hr', hs', hid', hrest⟩ := h.present id' w' hid'
      refine ⟨r', s', o', hr', ?_, hid', hrest⟩
      -- a session has one id, so another id of the table has another session
      have hrn : r ≠ r' := by
        rintro rfl
        cases hs.symm.trans hs'
        exact hne (hid'.symm.trans hid)
      rw [SessionManager.modify, List.getElem?_modify_ne _ _ hrn, hs']

end SessionManager

def given (data : Bytes) : List Bytes := if data = [] then [] else [data]

theorem Surroundings.Obliging.openLink {env : Surroundings} (he : env.Obliging) (data : Bytes) :
    ∃ output, env.openLink data = .ok output ∧ output.written = given data := by
  unfold Surroundings.openLink given
  split
  · exact ⟨.new, rfl, rfl⟩
  · rw [he.newLink]
    exact ⟨_, rfl, rfl⟩

namespace ServerWorker

/-- An open worker of a given mode, with the sessions and links that were handed
something. Each entry of its registry is that of one of them. -/
structure Holds (readSourceAndLocal : Bool) (allowedNetwork : Option Network)
    (gids : UInt16 → Option GlobalId) (handed : UInt16 → Option (List Bytes))
    (w : ServerWorker) : Prop where
  sessions : w.sessionManager.Holds handed
  not_closed : w.closed = false
  mode : w.readSourceAndLocal = readSourceAndLocal
  allowed : w.allowedNetwork = allowedNetwork
  registered : ∀ gid xudp, w.xudpManager.get gid = some xudp →
    ∃ id, handed id ≠ none ∧ gids id = some gid

variable {readSourceAndLocal : Bool} {allowedNetwork : Option Network}
  {gids : UInt16 → Option GlobalId} {handed : UInt16 → Option (List Bytes)} {w : ServerWorker}

theorem holds_new (readSourceAndLocal : Bool) (allowedNetwork : Option Network)
    (gids : UInt16 → Option GlobalId) :
    (new readSourceAndLocal allowedNetwork).Holds readSourceAndLocal allowedNetwork gids
      fun _ => none where
  sessions := ⟨rfl, fun id _ => AList.lookup_empty id, nofun⟩
  not_closed := rfl
  mode := rfl
  allowed := rfl
  registered := fun gid _ h => by cases (AList.lookup_empty gid).symm.trans h

theorem registered_update {registry : XudpManager} (id : UInt16) (written : List Bytes)
    (h : ∀ gid xudp, registry.get gid = some xudp → ∃ id, handed id ≠ none ∧ gids id = some gid) :
    ∀ gid xudp, registry.get gid = some xudp →
      ∃ id', Function.update handed id (some written) id' ≠ none ∧ gids id' = some gid := by
  intro gid xudp hg
  obtain ⟨id', hh, hgi⟩ := h gid xudp hg
  refine ⟨id', ?_, hgi⟩
  by_cases hne : id' = id
  · subst hne
    rw [Function.update_self]
    exact Option.some_ne_none _
  · rwa [Function.update_of_ne hne]

variable {env : Surroundings} {frame : FrameMetadata}

theorem Holds.handleKeep (h : w.Holds readSourceAndLocal allowedNetwork gids handed)
    (he : env.Obliging) (hs : frame.sessionStatus = .keep) {written : List Bytes}
    (hw : handed frame.sessionId = some written) (data : Bytes) :
    ∃ w', w.handleFrame env frame data = (w', .ok ()) ∧
      w'.Holds readSourceAndLocal allowedNetwork gids
        (Function.update handed frame.sessionId (some (written ++ given data))) := by
  obtain ⟨r, -, -, hr, -⟩ := h.sessions.present _ _ hw
  refine ⟨w.handleStatusKeep env frame data, by rw [handleFrame, hs], ?_⟩
  unfold handleStatusKeep given
  split
  · rw [List.append_nil, ← hw, Function.update_eq_self]
    exact h
  have hg : w.sessionManager.get frame.sessionId = some r := by
    rw [SessionManager.get, h.sessions.not_closed]
    exact hr
  rw [hg, he.oldLink]
  refine ⟨?_, h.not_closed, h.mode, h.allowed, registered_update _ _ h.registered⟩
  refine h.sessions.modify hr (f := fun s => { s with output := s.output.map (·.write data) })
    (fun _ => rfl) (fun _ => rfl) (written ++ [data]) fun output ho => ?_
  cases hw.symm.trans ho
  rfl

variable {target : Destination}

section

variable (h : w.Holds readSourceAndLocal allowedNetwork gids handed)

include h

theorem Holds.handleNormalNew (he : env.Obliging) (ht : frame.target = some target) (data : Bytes) :
    ∃ w', w.handleNormalNew env frame data = (w', .ok ()) ∧
      w'.Holds readSourceAndLocal allowedNetwork gids
        (Function.update handed frame.sessionId (some (given data))) := by
  obtain ⟨output, hl, hw⟩ := he.openLink data
  have hd : (if w.readSourceAndLocal ∧ frame.source.isSome then
        env.dispatchInbound target frame.source frame.localDest
      else env.dispatch target) = .ok () := by
    split
    · exact he.dispatchInbound ..
    · exact he.dispatch ..
  let session : Session :=
    { Session.new frame.sessionId (if target.network = .udp then .packet else .stream) with
      input := some .new, output := some output }
  have ho : session.output = some output := rfl
  obtain ⟨m, had, -, hh⟩ := h.sessions.add ho
  rw [hw] at hh
  refine ⟨{ w with sessionManager := m }, ?_, hh, h.not_closed, h.mode, h.allowed,
    registered_update _ _ h.registered⟩
  have ha : w.addSession session =
      ({ w with sessionManager := m }, some w.sessionManager.arena.length) := by
    rw [addSession, had]
  simp only [ServerWorker.handleNormalNew, ht, hd, hl]
  rw [ha]

theorem Holds.handleXudpNew (hen : env.Obliging) (ht : frame.target = some target) {gid : GlobalId}
    (hg : gids frame.sessionId = some gid) (hmiss : w.xudpManager.get gid = none) (data : Bytes) :
    ∃ w', w.handleXudpNew env frame data gid = (w', .ok ()) ∧
      w'.Holds readSourceAndLocal allowedNetwork gids
        (Function.update handed frame.sessionId (some (given data))) := by
  obtain ⟨output, hl, hw⟩ := hen.openLink data
  let xudp := XudpEntry.new env.now
  let session : Session :=
    { Session.new frame.sessionId .packet with input := some .new, output := some output }
  have ho : session.output = some output := rfl
  obtain ⟨m, had, hlo, hh⟩ := h.sessions.add ho
  rw [hw] at hh
  let w1 : ServerWorker := ⟨m, w.xudpManager.register gid xudp, w.closed, w.readSourceAndLocal,
    w.allowedNetwork⟩
  have ha : { w with xudpManager := w.xudpManager.register gid xudp }.addSession session =
      (w1, some w.sessionManager.arena.length) := by
    simp [addSession, had, w1]
  refine ⟨w1.activate gid xudp w.sessionManager.arena.length, ?_, ?_, h.not_closed, h.mode,
    h.allowed, ?_⟩
  · simp only [ServerWorker.handleXudpNew, ht, hmiss, openXudp, hen.dispatch, hl]
    rw [ha]
  · have hm := hh.modify hlo
      (f := fun s => { s with xudp := some ⟨.active, xudp.expire⟩ }) (g := id) (fun _ => rfl)
      (fun s => Option.map_id_apply.symm) (given data) fun output ho => ?_
    · rw [Function.update_idem] at hm
      exact hm
    · rw [Function.update_self] at ho
      exact (Option.some.inj ho).symm
  · intro gid' entry he
    by_cases hne : gid' = gid
    · subst hne
      refine ⟨frame.sessionId, ?_, hg⟩
      rw [Function.update_self]
      exact Option.some_ne_none _
    · refine registered_update frame.sessionId (given data) h.registered gid' entry ?_
      have hge : ((w.xudpManager.register gid xudp).register gid _).get gid' = some entry := he
      rwa [XudpManager.get_register_ne _ hne, XudpManager.get_register_ne _ hne] at hge

theorem Holds.handleNew
    (hi : ∀ id id' gid, gids id = some gid → gids id' = some gid → id = id') (he : env.Obliging)
    (hs : frame.sessionStatus = .new) (ht : frame.target = some target)
    (ha : ∀ net, allowedNetwork = some net → target.network = net)
    (hg : frame.globalId = gids frame.sessionId) (hn : handed frame.sessionId = none)
    (data : Bytes) : ∃ w', w.handleFrame env frame data = (w', .ok ()) ∧
      w'.Holds readSourceAndLocal allowedNetwork gids
        (Function.update handed frame.sessionId (some (given data))) := by
  have hr : w.refusedNetwork frame = none := by
    rw [refusedNetwork, ht, h.allowed]
    cases hne : allowedNetwork with
    | none => rfl
    | some net => exact if_neg (not_not.mpr (ha net hne))
  simp only [handleFrame, hs, hr]
  split
  · next gid hf =>
    split
    · rw [hf] at hg
      refine h.handleXudpNew he ht hg.symm ?_ data
      cases hge : w.xudpManager.get gid with
      | none => rfl
      | some xudp =>
        obtain ⟨id, hh, hid⟩ := h.registered gid xudp hge
        cases hi id frame.sessionId gid hid hg.symm
        exact absurd hn hh
    · exact h.handleNormalNew he ht data
  · exact h.handleNormalNew he ht data

end

end ServerWorker

end XrayCore.Mux
