import Mathlib.Data.List.SplitBy
import XrayCore.Dns.Record

/-!
# The parallel query

All clients are asked at once. Adjacent clients with the same policy form a group; the first
success of a group answers the query once every client of the groups before it has failed.
The tasks end in any order, and a task that panics does not say which client it was for.
-/

namespace XrayCore.Dns

open List

open Net

structure QueryOption extends IpOption where
  fakeEnable : Bool
  deriving DecidableEq

abbrev Answer := List IpAddr × UInt32

inductive TaskEnd
  | done (result : Except DnsError Answer)
  | panicked

structure Client where
  name : String
  policyId : UInt32
  queryIp : String → QueryOption → TaskEnd

structure Group where
  start : Nat
  stop : Nat
  deriving DecidableEq

namespace Group

def slice {α : Type} (g : Group) (xs : List α) : List α :=
  (xs.drop g.start).take (g.stop + 1 - g.start)

theorem mem_slice {α : Type} {g : Group} {xs : List α} {x : α} :
    x ∈ g.slice xs ↔ ∃ i, g.start ≤ i ∧ i ≤ g.stop ∧ xs[i]? = some x := by
  rw [slice, mem_iff_getElem?]
  constructor
  · rintro ⟨k, hk⟩
    rw [List.getElem?_take, List.getElem?_drop] at hk
    obtain ⟨hlt, hk⟩ := Option.ite_none_right_eq_some.mp hk
    exact ⟨g.start + k, by omega, by omega, hk⟩
  · rintro ⟨i, hs, hstop, hi⟩
    refine ⟨i - g.start, ?_⟩
    rw [List.getElem?_take, if_pos (by omega), List.getElem?_drop, Nat.add_sub_cancel' hs, hi]

end Group

/-- The loop of `make_groups`. `prev` is client `i - 1`, the open group is `s..=e`. -/
def groupLoop (prev : Client) (i s e : Nat) : List Client → List Group
  | [] => [⟨s, e⟩]
  | c :: rest =>
    if prev.policyId = c.policyId then groupLoop c (i + 1) s i rest
    else ⟨s, e⟩ :: groupLoop c (i + 1) i i rest

def makeGroups : List Client → List Group
  | [] => []
  | c :: rest => groupLoop c 1 0 0 rest

def policyRuns (clients : List Client) : List (List Client) :=
  clients.splitBy fun a b => a.policyId == b.policyId

-- `before` are the clients of the closed groups, `run` those of the open one, last first.
theorem splitBy_loop_eq_groupLoop (before : List Client) (rest : List Client) (prev : Client)
    (run : List Client) (closed : List (List Client)) (i s e : Nat) (hi : i = e + 1)
    (hs : s = before.length) (he : e = before.length + run.length) :
    List.splitBy.loop (fun a b : Client => a.policyId == b.policyId) rest prev run closed =
      closed.reverse ++ (groupLoop prev i s e rest).map
        (·.slice (before ++ run.reverse ++ prev :: rest)) := by
  induction rest generalizing before prev run closed i s e with
  | nil =>
    have hl : (run.reverse ++ [prev]).length ≤ e + 1 - s := by simp; omega
    rw [List.splitBy.loop, groupLoop, map_singleton, Group.slice, append_assoc, hs,
      drop_left, ← hs, take_of_length_le hl]
    simp
  | cons c rest ih =>
    by_cases hp : prev.policyId = c.policyId
    · rw [List.splitBy.loop, beq_iff_eq.mpr hp, groupLoop, if_pos hp,
        ih before c (prev :: run) closed (i + 1) s i rfl hs (by simp; omega)]
      simp
    have ho : (⟨s, e⟩ : Group).slice (before ++ run.reverse ++ prev :: c :: rest) =
        run.reverse ++ [prev] := by
      have hl : e + 1 - s = (run.reverse ++ [prev]).length := by simp; omega
      rw [Group.slice, hs, append_assoc, drop_left, ← hs, hl,
        show run.reverse ++ prev :: c :: rest = (run.reverse ++ [prev]) ++ c :: rest by simp,
        take_left]
    rw [List.splitBy.loop, beq_eq_false_iff_ne.mpr hp, groupLoop, if_neg hp,
      ih (before ++ run.reverse ++ [prev]) c [] ((prev :: run).reverse :: closed) (i + 1) i i rfl
        (by simp; omega) (by simp; omega)]
    rw [map_cons, ho]
    simp

theorem map_slice_makeGroups (clients : List Client) :
    (makeGroups clients).map (·.slice clients) = policyRuns clients := by
  cases clients with
  | nil => rfl
  | cons c rest =>
    have h := splitBy_loop_eq_groupLoop [] rest c [] [] 1 0 0 rfl rfl rfl
    simpa [makeGroups, policyRuns, List.splitBy] using h.symm

inductive ClientOutcome
  | success (ips : List IpAddr) (ttl : UInt32)
  | failure
  | pending

namespace ClientOutcome

def answer? : ClientOutcome → Option Answer
  | success ips ttl => some (ips, ttl)
  | _ => none

def isPending : ClientOutcome → Bool
  | pending => true
  | _ => false

end ClientOutcome

def groupSuccess (outcomes : List ClientOutcome) (g : Group) : Option Answer :=
  (g.slice outcomes).findSome? (·.answer?)

def groupPending (outcomes : List ClientOutcome) (g : Group) : Bool :=
  (g.slice outcomes).any (·.isPending)

/-- `advance_groups` over the groups from `next_group` on: the answer, if a group has one, and
the groups that remain. -/
def advanceGroups (outcomes : List ClientOutcome) : List Group → Option Answer × List Group
  | [] => (none, [])
  | g :: groups =>
    match groupSuccess outcomes g with
    | some ans => (some ans, g :: groups)
    | none =>
      if groupPending outcomes g then (none, g :: groups) else advanceGroups outcomes groups

def eqIgnoreAsciiCase (a b : String) : Bool :=
  a.toList.map Char.toLower == b.toList.map Char.toLower

def Client.skipped (c : Client) (option : QueryOption) : Bool :=
  !option.fakeEnable && eqIgnoreAsciiCase c.name "FakeDNS"

def sameDnsErrorKind (a b : DnsError) : Bool := a.discriminant == b.discriminant

/-- The first pass of `merge_query_errors`: the first error that is not `RecordNotFound`, and
whether there is one of another kind. -/
def firstNonRnf : Option DnsError → List DnsError → Option DnsError × Bool
  | first, [] => (first, false)
  | first, .recordNotFound :: errs => firstNonRnf first errs
  | none, e :: errs => firstNonRnf (some e) errs
  | some prev, e :: errs =>
    if sameDnsErrorKind prev e then firstNonRnf (some prev) errs else (some prev, true)

def mergeQueryErrors (domain : String) (outcomes : List (Except DnsError Answer)) :
    Except DnsError Answer :=
  let errs := outcomes.filterMap fun
    | .error e => some e
    | .ok _ => none
  if errs.isEmpty then .error .emptyResponse
  else
    match firstNonRnf none errs with
    | (_, true) =>
      let combined := "; ".intercalate (errs.map (·.message))
      .error (.systemResolve s!"returning nil for domain {domain}: {combined}")
    | (some e, false) => .error e
    | (none, false) => .error .recordNotFound

theorem mergeQueryErrors_error (dom : String) (outcomes : List (Except DnsError Answer)) :
    ∃ e, mergeQueryErrors dom outcomes = .error e := by
  unfold mergeQueryErrors
  dsimp only
  split
  · exact ⟨_, rfl⟩
  · split <;> exact ⟨_, rfl⟩

structure QueryState where
  outcomes : List ClientOutcome
  rawErrs : List (Except DnsError Answer)
  groups : List Group

namespace QueryState

def record (st : QueryState) (idx : Nat) : Except DnsError Answer → QueryState
  | .ok (ips, ttl) =>
    if ips ≠ [] then { st with outcomes := st.outcomes.set idx (.success ips ttl) }
    else
      { st with
        outcomes := st.outcomes.set idx .failure
        rawErrs := st.rawErrs.set idx (.error .emptyResponse) }
  | .error e =>
    { st with
      outcomes := st.outcomes.set idx .failure
      rawErrs := st.rawErrs.set idx (.error e) }

def drained (domain : String) (st : QueryState) : Except DnsError Answer :=
  let outcomes := st.outcomes.map fun o => if o.isPending then .failure else o
  match advanceGroups outcomes st.groups with
  | (some ans, _) => .ok ans
  | (none, _) => mergeQueryErrors domain st.rawErrs

def joinLoop (domain : String) (st : QueryState) :
    List (Option (Nat × Except DnsError Answer)) → Except DnsError Answer
  | [] => st.drained domain
  | none :: joined => joinLoop domain st joined
  | some (idx, outcome) :: joined =>
    let st := st.record idx outcome
    match advanceGroups st.outcomes st.groups with
    | (some ans, _) => .ok ans
    | (none, groups) => joinLoop domain { st with groups := groups } joined

end QueryState

def spawned (clients : List Client) (option : QueryOption) : List Nat :=
  (List.range clients.length).filter fun i => clients[i]?.any fun c => !c.skipped option

def joinResult (clients : List Client) (domain : String) (option : QueryOption) (i : Nat) :
    Option (Nat × Except DnsError Answer) :=
  clients[i]?.bind fun c =>
    match c.queryIp domain option with
    | .done result => some (i, result)
    | .panicked => none

/-- `order` is the order in which the tasks end. -/
def parallelQuery (clients : List Client) (domain : String) (option : QueryOption)
    (order : List Nat) : Except DnsError Answer :=
  let groups := makeGroups clients
  if groups.isEmpty then .error .emptyResponse
  else
    let outcomes := clients.map fun c => if c.skipped option then .failure else .pending
    let rawErrs := clients.map fun _ => .error .emptyResponse
    QueryState.joinLoop domain ⟨outcomes, rawErrs, groups⟩
      (order.map (joinResult clients domain option))

def Client.Succeeds (c : Client) (domain : String) (option : QueryOption) (ans : Answer) : Prop :=
  c.skipped option = false ∧ c.queryIp domain option = .done (.ok ans) ∧ ans.1 ≠ []

section Policy

variable {clients : List Client} {domain : String} {option : QueryOption}

def ClientOutcome.TrueOf (domain : String) (option : QueryOption) (c : Client) :
    ClientOutcome → Prop
  | .success ips ttl => c.Succeeds domain option (ips, ttl)
  | .failure => ∀ ans, ¬c.Succeeds domain option ans
  | .pending => True

/-- The outcomes are true of their clients, and a pending client that can still succeed is
among those to come. -/
structure Tracks (clients : List Client) (domain : String) (option : QueryOption)
    (outcomes : List ClientOutcome) (order : List Nat) : Prop where
  length_eq : outcomes.length = clients.length
  true_of : ∀ (i : Nat) (c : Client) (o : ClientOutcome), clients[i]? = some c →
    outcomes[i]? = some o → o.TrueOf domain option c
  waits : ∀ (i : Nat) (c : Client), clients[i]? = some c → outcomes[i]? = some .pending →
    i ∉ order → ∀ ans, ¬c.Succeeds domain option ans

variable {outcomes : List ClientOutcome} {order : List Nat} {i : Nat} {c : Client}

theorem Tracks.exists_outcome (h : Tracks clients domain option outcomes order)
    (hc : clients[i]? = some c) : ∃ o, outcomes[i]? = some o := by
  obtain ⟨hlt, -⟩ := List.getElem?_eq_some_iff.mp hc
  exact ⟨_, List.getElem?_eq_getElem (h.length_eq ▸ hlt)⟩

def Failed (clients : List Client) (domain : String) (option : QueryOption) (g : Group) : Prop :=
  ∀ c ∈ g.slice clients, ∀ ans, ¬c.Succeeds domain option ans

section

variable (h : Tracks clients domain option outcomes order)

include h

theorem groupSuccess_some {g : Group} {ans : Answer} (hg : groupSuccess outcomes g = some ans) :
    ∃ c ∈ g.slice clients, c.Succeeds domain option ans := by
  obtain ⟨o, ho, ha⟩ := exists_of_findSome?_eq_some hg
  obtain ⟨i, hs, hstop, hi⟩ := Group.mem_slice.mp ho
  obtain ⟨hlt, -⟩ := List.getElem?_eq_some_iff.mp hi
  obtain ⟨c, hc⟩ : ∃ c, clients[i]? = some c := ⟨_, List.getElem?_eq_getElem (h.length_eq ▸ hlt)⟩
  refine ⟨c, Group.mem_slice.mpr ⟨i, hs, hstop, hc⟩, ?_⟩
  cases o with
  | success ips ttl =>
    obtain rfl := Option.some.inj ha
    exact h.true_of i c _ hc hi
  | failure | pending => cases ha

theorem failed_of_settled {g : Group}
    (hs : groupSuccess outcomes g = none) (hp : groupPending outcomes g = false) :
    Failed clients domain option g := by
  intro c hc ans
  obtain ⟨i, hst, hstop, hi⟩ := Group.mem_slice.mp hc
  obtain ⟨o, ho⟩ := h.exists_outcome hi
  have hm : o ∈ g.slice outcomes := Group.mem_slice.mpr ⟨i, hst, hstop, ho⟩
  cases o with
  | success ips ttl => cases List.findSome?_eq_none_iff.mp hs _ hm
  | failure => exact h.true_of i c _ hi ho ans
  | pending => cases any_eq_false.mp hp _ hm rfl

theorem advanceGroups_cases (gs : List Group) :
    ∃ failed rest, gs = failed ++ rest ∧ (∀ g ∈ failed, Failed clients domain option g) ∧
      ((∃ g post ans, rest = g :: post ∧ advanceGroups outcomes gs = (some ans, rest) ∧
          ∃ c ∈ g.slice clients, c.Succeeds domain option ans) ∨
        (∃ g post, rest = g :: post ∧ advanceGroups outcomes gs = (none, rest) ∧
          groupPending outcomes g = true) ∨
        (rest = [] ∧ advanceGroups outcomes gs = (none, []))) := by
  induction gs with
  | nil => exact ⟨[], [], rfl, by simp, .inr (.inr ⟨rfl, rfl⟩)⟩
  | cons g gs ih =>
    cases hs : groupSuccess outcomes g with
    | some ans =>
      refine ⟨[], g :: gs, rfl, by simp, .inl ⟨g, gs, ans, rfl, ?_, ?_⟩⟩
      · simp [advanceGroups, hs]
      · exact groupSuccess_some h hs
    | none =>
      cases hp : groupPending outcomes g with
      | true => exact ⟨[], g :: gs, rfl, by simp, .inr (.inl
          ⟨g, gs, rfl, by simp [advanceGroups, hs, hp], hp⟩)⟩
      | false =>
        obtain ⟨failed, rest, rfl, hf, hrest⟩ := ih
        have hst : advanceGroups outcomes (g :: (failed ++ rest)) =
            advanceGroups outcomes (failed ++ rest) := by
          simp [advanceGroups, hs, hp]
        refine ⟨g :: failed, rest, rfl, ?_, ?_⟩
        · exact forall_mem_cons.mpr ⟨failed_of_settled h hs hp, hf⟩
        · rwa [hst]

end

/-- The answer comes from the first group with a success, and there is an error only if no
group has one. -/
def Answers (clients : List Client) (domain : String) (option : QueryOption)
    (groups : List Group) (result : Except DnsError Answer) : Prop :=
  (∃ failed g post ans, groups = failed ++ g :: post ∧ result = .ok ans ∧
      (∀ g ∈ failed, Failed clients domain option g) ∧
      ∃ c ∈ g.slice clients, c.Succeeds domain option ans) ∨
    ((∃ e, result = .error e) ∧ ∀ g ∈ groups, Failed clients domain option g)

variable {result : Except DnsError Answer}

theorem Answers.append (hf : ∀ g ∈ failed, Failed clients domain option g)
    (h : Answers clients domain option rest result) :
    Answers clients domain option (failed ++ rest) result := by
  obtain ⟨f', g, post, ans, rfl, hr, hf', hc⟩ | ⟨he, hrest⟩ := h
  · refine .inl ⟨failed ++ f', g, post, ans, by simp, hr, ?_, hc⟩
    exact forall_mem_append.mpr ⟨hf, hf'⟩
  · exact .inr ⟨he, forall_mem_append.mpr ⟨hf, hrest⟩⟩

theorem Tracks.drain (h : Tracks clients domain option outcomes []) : Tracks clients domain option
      (outcomes.map fun o => if o.isPending then .failure else o) [] := by
  have hg (i : Nat) (o : ClientOutcome)
      (ho : (outcomes.map fun o => if o.isPending then .failure else o)[i]? = some o) :
      outcomes[i]? = some o ∨ outcomes[i]? = some .pending ∧ o = .failure := by
    rw [List.getElem?_map, Option.map_eq_some_iff] at ho
    obtain ⟨o', ho', rfl⟩ := ho
    cases o' <;> simp [ho', ClientOutcome.isPending]
  refine ⟨by simp [h.length_eq], ?_, ?_⟩
  · intro i c o hc ho
    obtain ho | ⟨hp, rfl⟩ := hg i o ho
    · exact h.true_of i c o hc ho
    · exact h.waits i c hc hp (by simp)
  · intro i c hc ho
    obtain ho | ⟨-, hne⟩ := hg i _ ho
    · exact h.waits i c hc ho
    · cases hne

theorem groupPending_drain (outcomes : List ClientOutcome) (g : Group) :
    groupPending (outcomes.map fun o => if o.isPending then .failure else o) g = false := by
  refine any_eq_false.mpr fun o ho hp => ?_
  obtain ⟨i, -, -, hi⟩ := Group.mem_slice.mp ho
  rw [List.getElem?_map, Option.map_eq_some_iff] at hi
  obtain ⟨o', -, rfl⟩ := hi
  cases o' <;> cases hp

theorem drained_answers {st : QueryState} (h : Tracks clients domain option st.outcomes []) :
    Answers clients domain option st.groups (st.drained domain) := by
  obtain ⟨f, rest, hg, hf, hrest⟩ := advanceGroups_cases h.drain st.groups
  unfold QueryState.drained
  dsimp only
  obtain ⟨g, post, ans, rfl, ha, hc⟩ | ⟨g, post, rfl, -, hp⟩ | ⟨rfl, ha⟩ := hrest
  · rw [ha]
    exact .inl ⟨f, g, post, ans, hg, rfl, hf, hc⟩
  · rw [groupPending_drain] at hp
    cases hp
  · rw [ha]
    obtain ⟨e, he⟩ := mergeQueryErrors_error domain st.rawErrs
    rw [append_nil] at hg
    exact .inr ⟨⟨e, he⟩, hg ▸ hf⟩

def ClientOutcome.ofResult : Except DnsError Answer → ClientOutcome
  | .ok (ips, ttl) => if ips ≠ [] then .success ips ttl else .failure
  | .error _ => .failure

theorem record_outcomes (st : QueryState) (idx : Nat) (res : Except DnsError Answer) :
    (st.record idx res).outcomes = st.outcomes.set idx (.ofResult res) ∧
      (st.record idx res).groups = st.groups := by
  rcases res with e | ⟨ips, ttl⟩
  · exact ⟨rfl, rfl⟩
  · simp only [QueryState.record, ClientOutcome.ofResult]
    split <;> exact ⟨rfl, rfl⟩

theorem ofResult_trueOf (dom : String)
    (hs : c.skipped option = false) (hd : c.queryIp dom option = .done result) :
    (ClientOutcome.ofResult result).TrueOf dom option c := by
  rcases result with e | ⟨ips, ttl⟩
  · rintro ans ⟨-, ha, -⟩
    rw [hd] at ha
    cases ha
  simp only [ClientOutcome.ofResult]
  split
  · exact ⟨hs, hd, by assumption⟩
  rintro ans ⟨-, ha, hne⟩
  rw [hd] at ha
  cases ha
  contradiction

theorem Tracks.record {st : QueryState}
    (h : Tracks clients domain option st.outcomes (i :: order)) (hc : clients[i]? = some c)
    (hs : c.skipped option = false) (hdo : c.queryIp domain option = .done result) :
    Tracks clients domain option (st.record i result).outcomes order := by
  rw [(record_outcomes st i result).1]
  have hlt : i < st.outcomes.length := by
    rw [h.length_eq]
    exact (List.getElem?_eq_some_iff.mp hc).1
  have hsa := ofResult_trueOf domain hs hdo
  refine ⟨by rw [length_set, h.length_eq], ?_, ?_⟩
  · intro j d o hd ho
    rcases eq_or_ne i j with rfl | hij
    · rw [List.getElem?_set_self hlt] at ho
      obtain rfl := Option.some.inj ho
      obtain rfl := Option.some.inj (hc.symm.trans hd)
      exact hsa
    · rw [List.getElem?_set_ne hij] at ho
      exact h.true_of j d o hd ho
  · intro j d hd ho hj
    rcases eq_or_ne i j with rfl | hij
    · rw [List.getElem?_set_self hlt] at ho
      rcases result with e | ⟨ips, ttl⟩
      · cases ho
      · simp only [ClientOutcome.ofResult] at ho
        split at ho <;> cases ho
    · rw [List.getElem?_set_ne hij] at ho
      exact h.waits j d hd ho (by simp [hij.symm, hj])

theorem Tracks.panicked (h : Tracks clients domain option outcomes (i :: order))
    (hn : joinResult clients domain option i = none) :
    Tracks clients domain option outcomes order := by
  refine ⟨h.length_eq, h.true_of, fun j c hc ho hj => ?_⟩
  rcases eq_or_ne j i with rfl | hij
  · rintro ans ⟨-, ha, -⟩
    simp [joinResult, hc, ha] at hn
  · exact h.waits j c hc ho (by simp [hij, hj])

theorem joinResult_some (h : joinResult clients domain option i = some (idx, result)) :
    idx = i ∧ ∃ c, clients[i]? = some c ∧ c.queryIp domain option = .done result := by
  obtain ⟨c, hc, hd⟩ := Option.bind_eq_some_iff.mp h
  cases he : c.queryIp domain option with
  | done r =>
    rw [he] at hd
    cases hd
    exact ⟨rfl, c, hc, he⟩
  | panicked =>
    rw [he] at hd
    cases hd

-- The induction is on the tasks that have not ended; the groups that have failed so far are
-- no longer in the state.
theorem joinLoop_answers (st : QueryState) (h : Tracks clients domain option st.outcomes order)
    (ha : ∀ i ∈ order, ∀ c, clients[i]? = some c → c.skipped option = false) :
    Answers clients domain option st.groups
      (st.joinLoop domain (order.map (joinResult clients domain option))) := by
  induction order generalizing st with
  | nil => exact drained_answers h
  | cons i order ih =>
    have ha' := (forall_mem_cons.mp ha).2
    rw [map_cons]
    cases hjo : joinResult clients domain option i with
    | none => exact ih st (h.panicked hjo) ha'
    | some jo =>
      obtain ⟨idx, r⟩ := jo
      obtain ⟨rfl, c, hc, hd⟩ := joinResult_some hjo
      have hn := h.record hc (ha idx mem_cons_self c hc) hd
      rw [QueryState.joinLoop, ← (record_outcomes st idx r).2]
      obtain ⟨f, rest, hg, hf, hrest⟩ := advanceGroups_cases hn (st.record idx r).groups
      obtain ⟨g, post, ans, rfl, had, hs⟩ | ⟨g, post, rfl, had, -⟩ | ⟨rfl, had⟩ := hrest
      · simp only [had]
        exact .inl ⟨f, g, post, ans, hg, rfl, hf, hs⟩
      · simp only [had]
        rw [hg]
        exact .append hf (ih { st.record idx r with groups := g :: post } hn ha')
      · simp only [had]
        rw [hg]
        exact .append hf (ih { st.record idx r with groups := [] } hn ha')

theorem mem_spawned :
    i ∈ spawned clients option ↔ ∃ c, clients[i]? = some c ∧ c.skipped option = false := by
  simp only [spawned, mem_filter, mem_range]
  constructor
  · rintro ⟨hlt, hs⟩
    rw [List.getElem?_eq_getElem hlt] at hs ⊢
    exact ⟨_, rfl, by simpa using hs⟩
  · rintro ⟨c, hc, hs⟩
    exact ⟨(List.getElem?_eq_some_iff.mp hc).1, by simp [hc, hs]⟩

theorem tracks_start (h : order.Perm (spawned clients option)) : Tracks clients domain option
      (clients.map fun c => if c.skipped option then .failure else .pending) order := by
  have hg (i : Nat) (c : Client) (hc : clients[i]? = some c) :
      (clients.map fun c => if c.skipped option then ClientOutcome.failure else .pending)[i]? =
        some (if c.skipped option then .failure else .pending) := by
    rw [List.getElem?_map, hc]
    rfl
  refine ⟨by simp, ?_, ?_⟩
  · intro i c o hc ho
    rw [hg i c hc] at ho
    obtain rfl := Option.some.inj ho
    cases hs : c.skipped option with
    | true => exact fun ans ha => by simp [ha.1] at hs
    | false => exact trivial
  · intro i c hc ho hi ans ha
    exact hi (h.mem_iff.mpr (mem_spawned.mpr ⟨c, hc, ha.1⟩))

theorem parallelQuery_answers (dom : String) (h : order.Perm (spawned clients option)) :
    Answers clients dom option (makeGroups clients) (parallelQuery clients dom option order) := by
  unfold parallelQuery
  dsimp only
  split
  · rename_i hn
    refine .inr ⟨⟨_, rfl⟩, ?_⟩
    rw [List.isEmpty_iff.mp hn]
    exact nofun
  · refine joinLoop_answers (QueryState.mk _ _ _) (tracks_start h) fun i hi c hc => ?_
    obtain ⟨c', hc', hs⟩ := mem_spawned.mp (h.mem_iff.mp hi)
    obtain rfl := Option.some.inj (hc'.symm.trans hc)
    exact hs

theorem failed_groups_iff : (∀ g ∈ makeGroups clients, Failed clients domain option g) ↔
      ∀ c ∈ clients, ∀ ans, ¬c.Succeeds domain option ans := by
  have hf : ((makeGroups clients).map (·.slice clients)).flatten = clients := by
    rw [map_slice_makeGroups]
    exact flatten_splitBy ..
  constructor
  · intro h c hc
    rw [← hf, mem_flatten] at hc
    obtain ⟨_, hr, hc⟩ := hc
    obtain ⟨g, hg, rfl⟩ := mem_map.mp hr
    exact h g hg c hc
  · intro h g hg c hc
    refine h c ?_
    rw [← hf]
    exact mem_flatten.mpr ⟨_, mem_map_of_mem hg, hc⟩

end Policy

/-- Whatever the clients answer and in whatever order their tasks end: the query is answered
by a client of the first run of one policy in which a client succeeds, and fails exactly if
no client does. -/
theorem parallelQuery_policy (clients : List Client) (domain : String) (option : QueryOption)
    (order : List Nat) (h : order.Perm (spawned clients option)) :
    (∀ ans, parallelQuery clients domain option order = .ok ans →
      ∃ failed run later, policyRuns clients = failed ++ run :: later ∧
        (∀ r ∈ failed, ∀ c ∈ r, ∀ a, ¬c.Succeeds domain option a) ∧
        ∃ c ∈ run, c.Succeeds domain option ans) ∧
      ((∃ e, parallelQuery clients domain option order = .error e) ↔
        ∀ c ∈ clients, ∀ ans, ¬c.Succeeds domain option ans) := by
  have hruns := map_slice_makeGroups clients
  obtain ⟨failed, g, later, ans, hgroups, hok, hfailed, c, hc, hsucc⟩ | ⟨⟨e, he⟩, hfailed⟩ :=
    parallelQuery_answers domain h
  · rw [hgroups, map_append, map_cons] at hruns
    rw [hok]
    refine ⟨?_, ?_⟩
    · intro ans' hans
      cases hans
      refine ⟨_, _, _, hruns.symm, ?_, c, hc, hsucc⟩
      rintro r hr c' hc' a
      obtain ⟨g', hg', rfl⟩ := mem_map.mp hr
      exact hfailed g' hg' c' hc' a
    · rw [← failed_groups_iff]
      constructor
      · rintro ⟨e, he⟩
        cases he
      · intro hall
        exact absurd hsucc (hall g (by simp [hgroups]) c hc ans)
  · rw [he]
    refine ⟨nofun, ?_⟩
    exact iff_of_true ⟨e, rfl⟩ (failed_groups_iff.mp hfailed)

def answering : Client :=
  ⟨"third", 1, fun _ _ => .done (.ok ([.v4 (.new 10 0 0 1)], 60))⟩

/-- Two policies. The first group is a skipped FakeDNS and a task that panics, the second an
error and a success. -/
def mixedClients : List Client :=
  [⟨"fakedns", 0, fun _ _ => .done (.ok ([], 1))⟩, ⟨"first", 0, fun _ _ => .panicked⟩,
    ⟨"second", 1, fun _ _ => .done (.error .recordNotFound)⟩, answering]

theorem parallelQuery_policy_mixed : [3, 1, 2].Perm (spawned mixedClients ⟨⟨true, true⟩, false⟩) ∧
      ¬∃ e, parallelQuery mixedClients "example.com" ⟨⟨true, true⟩, false⟩ [3, 1, 2] =
        .error e := by
  have hperm : [3, 1, 2].Perm (spawned mixedClients ⟨⟨true, true⟩, false⟩) := by decide +kernel
  refine ⟨hperm, fun herr => ?_⟩
  have hnone := (parallelQuery_policy mixedClients "example.com" ⟨⟨true, true⟩, false⟩ [3, 1, 2]
    hperm).2.mp herr
  exact hnone answering (by simp [mixedClients]) _ ⟨by decide +kernel, rfl, by simp⟩

end XrayCore.Dns
