import XrayCore.Xdns.Frag

/-!
# The limits of the fragment manager

After any calls the map of sizes agrees with the entries, the limits hold, and no call panics.
What a call hands out is made of the fragments that the entry has accepted: they are written
down in a log, which starts again when the entry is made.
-/

namespace XrayCore.Xdns

open Lib List AList Checked FragEntry

structure FragEntry.Wf (e : FragEntry) : Prop where
  length : e.data.length = e.total.toNat
  filled : e.filled = Lib.filled e.data
  incomplete : e.filled < e.total.toNat
  size : e.size = slotSum List.length e.data
  bound : e.size ≤ FRAG_SIZE

namespace Inner

variable {g : Inner} {k key : FragKey} {e : FragEntry} {c : ClientID} {it : Iteration FragKey}
  {now : Instant} {fragIdx fragN : UInt8} {data : Bytes}

def pending (g : Inner) (c : ClientID) : Nat :=
  tally (fun k e => if k.clientId = c then e.size else 0) g.m

structure Wf (g : Inner) : Prop where
  entry : ∀ k e, g.m.lookup k = some e → e.Wf
  sizem : ∀ c, (g.sizem c).getD 0 = g.pending c
  held : ∀ c, (g.sizem c).isSome → ∃ k ∈ g.m, k.clientId = c
  budget : ∀ c, g.pending c ≤ FRAG_CLIENT_ID_SIZE
  count : g.m.keys.length ≤ FRAG_COUNT

theorem wf_empty (closed : Bool) : Wf ⟨∅, fun _ => none, closed⟩ where
  entry k e h := by simp at h
  sizem c := rfl
  held c h := by simp at h
  budget c := by simp [pending]
  count := by simp

theorem length_keys_erase (h : g.m.lookup k = some e) :
    (g.m.erase k).keys.length + 1 = g.m.keys.length := by
  have hm : k ∈ g.m.keys := mem_keys.mp (lookup_isSome.mp (by rw [h]; rfl))
  rw [keys_erase, length_erase_of_mem hm]
  have := length_pos_of_mem hm
  omega

theorem Wf.debit_erase (h : g.Wf) (hk : g.m.lookup k = some e) (n : Nat)
    (sizem : ClientID → Option Nat)
    (hs : ∀ c, (sizem c).getD 0 = g.pending c + if k.clientId = c then n else 0)
    (hh : ∀ c, (sizem c).isSome → ∃ k ∈ g.m, k.clientId = c) :
    (debit ⟨g.m.erase k, sizem, g.closed⟩ k.clientId (e.size + n)).Wf := by
  have hp : ∀ c, g.pending c = (if k.clientId = c then e.size else 0) +
      tally (fun k e => if k.clientId = c then e.size else 0) (g.m.erase k) :=
    fun c => tally_of_lookup hk
  have hse : (sizem k.clientId).getD 0 - (e.size + n) =
      tally (fun k' e => if k'.clientId = k.clientId then e.size else 0) (g.m.erase k) := by
    rw [hs, hp, if_pos rfl, if_pos rfl]
    omega
  refine ⟨fun k' e' he => h.entry k' e' (lookup_of_lookup_erase he).2, fun c => ?_, fun c hc => ?_,
    fun c => ?_, ?_⟩
  · simp only [debit, hse, pending]
    by_cases hck : k.clientId = c
    · subst hck
      split <;> simp_all
    · rw [Function.update_of_ne (Ne.symm hck), hs, hp, if_neg hck, if_neg hck]
      omega
  · simp only [debit, hse] at hc
    by_cases hck : k.clientId = c
    · subst hck
      split at hc
      · simp at hc
      · next hne =>
        obtain ⟨k', hk', e', -, hw⟩ := exists_of_tally_ne_zero hne
        by_contra hn
        exact hw (if_neg fun heq => hn ⟨k', hk', heq⟩)
    · rw [Function.update_of_ne (Ne.symm hck)] at hc
      obtain ⟨k', hk', rfl⟩ := hh c hc
      exact ⟨k', mem_erase.mpr ⟨fun heq => hck (heq ▸ rfl), hk'⟩, rfl⟩
  · have := h.budget c
    have := hp c
    simp only [debit, pending] at *
    omega
  · have := h.count
    have := length_keys_erase hk
    simp only [debit]
    omega

theorem Wf.removeEntry (h : g.Wf) (k : FragKey) : (g.removeEntry k).Wf := by
  unfold Inner.removeEntry
  cases hk : g.m.lookup k with
  | none => exact h
  | some e =>
    refine h.debit_erase hk 0 g.sizem (fun c => ?_) h.held
    rw [h.sizem]
    split <;> rfl

@[simp] theorem removeEntry_m (g : Inner) (k : FragKey) : (g.removeEntry k).m = g.m.erase k := by
  unfold Inner.removeEntry
  cases hk : g.m.lookup k with
  | none => exact (erase_of_lookup_none hk).symm
  | some e => rfl

@[simp] theorem removeEntry_closed (g : Inner) (k : FragKey) :
    (g.removeEntry k).closed = g.closed := by
  unfold Inner.removeEntry
  cases g.m.lookup k <;> rfl

def Within (g' g : Inner) : Prop := ∀ k e, g'.m.lookup k = some e → g.m.lookup k = some e

theorem within_removeEntry (g : Inner) (k : FragKey) : Within (g.removeEntry k) g := by
  intro k' e he
  rw [removeEntry_m] at he
  exact (lookup_of_lookup_erase he).2

theorem foldl_removeEntry (h : g.Wf) (ks : List FragKey) :
    (ks.foldl Inner.removeEntry g).Wf ∧ Within (ks.foldl Inner.removeEntry g) g := by
  induction ks generalizing g with
  | nil => exact ⟨h, fun _ _ he => he⟩
  | cons k ks ih =>
    obtain ⟨hwf, hw⟩ := ih (h.removeEntry k)
    exact ⟨hwf, fun k' e he => within_removeEntry g k k' e (hw k' e he)⟩

theorem sweepExpired_spec (h : g.Wf) (it : Iteration FragKey) (now : Instant) :
    (g.sweepExpired it now).Wf ∧ Within (g.sweepExpired it now) g := by
  unfold sweepExpired
  split
  · exact ⟨h, fun _ _ he => he⟩
  · exact foldl_removeEntry h _

theorem foldlM_worst (g : Inner) (keys : List FragKey) (hke : ∀ k ∈ keys, k ∈ g.m)
    (start : FragKey × Instant) (hs : start.1 ∈ g.m) :
    ∃ worst, worst.1 ∈ g.m ∧ keys.foldlM (fun (worst, worstDl) k => do
      let e ← expect (g.m.lookup k)
      .ok (if e.deadline < worstDl then (k, e.deadline) else (worst, worstDl))) start =
        .ok worst := by
  induction keys generalizing start with
  | nil => exact ⟨start, hs, rfl⟩
  | cons k keys ih =>
    obtain ⟨hk, hke⟩ := forall_mem_cons.mp hke
    obtain ⟨e, he⟩ := Option.isSome_iff_exists.mp (lookup_isSome.mpr hk)
    simp only [foldlM_cons, he, expect_some, ok_bind]
    refine ih hke _ ?_
    split
    · exact hk
    · exact hs

theorem tryRemove_spec (h : g.Wf) (it : Iteration FragKey) :
    ∃ g', g.tryRemove it = .ok g' ∧ g'.Wf ∧ Within g' g ∧ g'.closed = g.closed ∧
      g'.m.keys.length < FRAG_COUNT := by
  unfold tryRemove
  split
  · exact ⟨g, rfl, h, fun _ _ he => he, rfl, by assumption⟩
  have hp := it.perm g.m.keys
  have hc := h.count
  have hfu : FRAG_COUNT = 4096 := rfl
  cases ho : it.order g.m.keys with
  | nil =>
    have hl := hp.length_eq
    rw [ho, length_nil] at hl
    omega
  | cons first keys =>
    rw [ho] at hp
    have hm : ∀ k ∈ first :: keys, k ∈ g.m := fun k hk => mem_keys.mpr (hp.mem_iff.mp hk)
    obtain ⟨hf, hke⟩ := forall_mem_cons.mp hm
    obtain ⟨e, he⟩ := Option.isSome_iff_exists.mp (lookup_isSome.mpr hf)
    obtain ⟨⟨w, dl⟩, hw, hfo⟩ := foldlM_worst g keys hke (first, e.deadline) hf
    obtain ⟨e', he'⟩ := Option.isSome_iff_exists.mp (lookup_isSome.mpr hw)
    dsimp only at he'
    have hl := length_keys_erase he'
    simp only [he, expect_some, ok_bind]
    refine ⟨g.removeEntry w, ?_, h.removeEntry w, within_removeEntry g w,
      removeEntry_closed g w, by rw [removeEntry_m]; omega⟩
    rw [hfo]
    rfl

theorem newEntry_wf (hn : 0 < fragN.toNat) : (newEntry fragN now).Wf where
  length := by simp [newEntry]
  filled := (filled_replicate_none _).symm
  incomplete := hn
  size := (slotSum_replicate_none _ _).symm
  bound := Nat.zero_le _

theorem Wf.insert_new (h : g.Wf) (hke : g.m.lookup key = none)
    (hco : g.m.keys.length < FRAG_COUNT) (hn : 0 < fragN.toNat) :
    Wf { g with m := g.m.insert key (newEntry fragN now) } := by
  have hp : ∀ c, pending { g with m := g.m.insert key (newEntry fragN now) } c = g.pending c := by
    intro c
    rw [pending, pending, tally_insert, erase_of_lookup_none hke]
    simp [newEntry]
  refine ⟨fun k e he => ?_, fun c => ?_, fun c hc => ?_, fun c => ?_, ?_⟩
  · by_cases hk : k = key
    · subst hk
      rw [lookup_insert] at he
      exact Option.some.inj he ▸ newEntry_wf hn
    · rw [lookup_insert_ne hk] at he
      exact h.entry k e he
  · rw [hp]
    exact h.sizem c
  · obtain ⟨k, hk, hkc⟩ := h.held c hc
    exact ⟨k, (mem_insert _).mpr (.inr hk), hkc⟩
  · rw [hp]
    exact h.budget c
  · have hm : key ∉ g.m.keys := fun hm => lookup_eq_none.mp hke (mem_keys.mpr hm)
    simp [erase_of_not_mem hm]
    omega

theorem makeRoom_spec (h : g.Wf) (it : Iteration FragKey) (key : FragKey) :
    ∃ g0, g.makeRoom it key = .ok g0 ∧ g0.Wf ∧ Within g0 g ∧ g0.closed = g.closed ∧
      g0.m.lookup key = none ∧ g0.m.keys.length < FRAG_COUNT := by
  unfold makeRoom
  cases hk : g.m.lookup key with
  | none =>
    obtain ⟨g0, hok, hwf, hw, hcl, hc⟩ := tryRemove_spec h it
    refine ⟨g0, by simpa using hok, hwf, hw, hcl, ?_, hc⟩
    cases hk0 : g0.m.lookup key with
    | none => rfl
    | some e => simp [hw key e hk0] at hk
  | some e =>
    have hl := length_keys_erase hk
    have hc := h.count
    refine ⟨g.removeEntry key, by simp, h.removeEntry key, within_removeEntry g key,
      removeEntry_closed g key, by simp, ?_⟩
    rw [removeEntry_m]
    omega

abbrev Log := FragKey → List (Nat × Bytes)

def Records (log : Log) (g : Inner) : Prop :=
  ∀ k e, g.m.lookup k = some e → e.data = (List.range e.total.toNat).map fun i => (log k).lookup i

variable {log : Log}

theorem Records.within (h : Records log g) (hw : Within g' g) :
    Records log g' := fun k e he => h k e (hw k e he)

variable {parts : List (Nat × Bytes)}

theorem Records.insert (h : Records log g)
    (he : e.data = (List.range e.total.toNat).map fun i => parts.lookup i) :
    Records (Function.update log key parts) { g with m := g.m.insert key e } := by
  intro k e' he'
  by_cases hk : k = key
  · subst hk
    rw [lookup_insert] at he'
    rw [Function.update_self, ← Option.some.inj he']
    exact he
  · rw [lookup_insert_ne hk] at he'
    rw [Function.update_of_ne hk]
    exact h k e' he'

theorem Records.erase (h : Records log g) :
    Records (Function.update log key parts) { g with m := g.m.erase key } := by
  intro k e' he'
  obtain ⟨hk, he'⟩ := lookup_of_lookup_erase he'
  rw [Function.update_of_ne hk]
  exact h k e' he'

def startLog (g : Inner) (now : Instant) (key : FragKey) (log : Log) : Log :=
  if g.isFresh now key then Function.update log key [] else log

theorem prepare_spec (h : g.Wf) (hl : Records log g) (hn : 0 < fragN.toNat)
    (it : Iteration FragKey) (now : Instant) (key : FragKey) :
    ∃ g1 e, g.prepare it now key fragN = .ok g1 ∧ g1.Wf ∧ g1.m.lookup key = some e ∧
      Records (startLog g now key log) g1 ∧ g1.closed = g.closed := by
  have hnew : (newEntry fragN now).data =
      (List.range (newEntry fragN now).total.toNat).map fun i => List.lookup i [] := by
    simp [newEntry]
  unfold prepare startLog
  cases hf : g.isFresh now key with
  | false =>
    cases hk : g.m.lookup key with
    | none => simp [isFresh, hk] at hf
    | some e => exact ⟨g, e, by simp, h, hk, by simpa using hl, rfl⟩
  | true =>
    obtain ⟨g0, hok, hwf, hw, hc, hk, hco⟩ := makeRoom_spec h it key
    refine ⟨_, newEntry fragN now, by rw [if_pos rfl, hok]; rfl, hwf.insert_new hk hco hn,
      lookup_insert _, ?_, hc⟩
    exact (hl.within hw).insert hnew

theorem rejects_spec (he : e.Wf) (g : Inner) (key : FragKey) (fragIdx fragN : UInt8)
    (data : Bytes) : ∃ b, g.rejects key e fragIdx fragN data = .ok b ∧
      (b = false ↔ fragN = e.total ∧ e.data[fragIdx.toNat]? = some none ∧
        e.size + data.length ≤ FRAG_SIZE ∧ (e.filled + 1 < e.total.toNat →
          (g.sizem key.clientId).getD 0 + data.length ≤ FRAG_CLIENT_ID_SIZE)) := by
  have hi := he.incomplete
  rw [rejects, sub_of_le (by omega), ok_bind]
  have hl : e.filled < e.total.toNat - 1 ↔ e.filled + 1 < e.total.toNat := by omega
  dsimp only
  split
  · next ho =>
    refine ⟨true, rfl, by simp, fun ⟨hn, hs, _⟩ => ?_⟩
    have hlt := (List.getElem?_eq_some_iff.mp hs).1
    rw [he.length] at hlt
    rcases ho with hne | hge
    · exact absurd hn hne
    · rw [ge_iff_le, UInt8.le_iff_toNat_le] at hge
      omega
  · next hin =>
    obtain ⟨hn, hid⟩ := not_or.mp hin
    rw [not_not] at hn
    rw [ge_iff_le, UInt8.le_iff_toNat_le, not_le, ← he.length] at hid
    obtain ⟨part, hp⟩ : ∃ part, e.data[fragIdx.toNat]? = some part :=
      ⟨_, List.getElem?_eq_getElem hid⟩
    rw [index_of_some hp, ok_bind]
    refine ⟨_, rfl, ?_⟩
    simp [hp, hn, hl]

theorem store_records (now : Instant) (data : Bytes) (hs : e.data[fragIdx.toNat]? = some none)
    (he : e.data = (List.range e.total.toNat).map fun i => parts.lookup i) :
    (e.store now fragIdx data).data = (List.range e.total.toNat).map fun i =>
      (parts ++ [(fragIdx.toNat, data)]).lookup i := by
  have hlt := (List.getElem?_eq_some_iff.mp hs).1
  refine ext_getElem? fun i => ?_
  rw [store, he, List.getElem?_set]
  rw [he] at hs hlt
  by_cases hi : fragIdx.toNat = i
  · subst hi
    have hr : fragIdx.toNat < e.total.toNat := by simpa using hlt
    have hn : parts.lookup fragIdx.toNat = none := by simpa [hr] using hs
    simp [hr, lookup_append, hn]
  · have hb : (i == fragIdx.toNat) = false := by simpa using Ne.symm hi
    rw [if_neg hi, List.getElem?_map, List.getElem?_map]
    by_cases hlt : i < e.total.toNat
    · simp [hlt, lookup_append, lookup_cons, hb]
    · simp [hlt]

theorem store_wf (he : e.Wf) (hs : e.data[fragIdx.toNat]? = some none)
    (hsize : e.size + data.length ≤ FRAG_SIZE) (hmore : e.filled + 1 ≠ e.total.toNat) :
    (e.store now fragIdx data).Wf where
  length := by rw [store, length_set, he.length]
  filled := by rw [store, filled_set hs, he.filled]
  incomplete := by
    have := he.incomplete
    simp [store]
    omega
  size := by rw [store, slotSum_set _ hs, he.size]
  bound := hsize

def assemble (n : Nat) (parts : List (Nat × Bytes)) : Bytes :=
  (List.range n).flatMap fun i => (parts.lookup i).getD []

theorem mapM_expect_store (he : e.Wf) (hs : e.data[fragIdx.toNat]? = some none)
    (hdata : (e.store now fragIdx data).data =
      (List.range e.total.toNat).map fun i => parts.lookup i) (hf : e.filled + 1 = e.total.toNat) :
    ∃ ps, (e.store now fragIdx data).data.mapM expect = .ok ps ∧
      ps.flatten = assemble e.total.toNat parts := by
  have hfi : Lib.filled (e.store now fragIdx data).data =
      (e.store now fragIdx data).data.length := by
    rw [store, filled_set hs, length_set, ← he.filled, he.length, hf]
  obtain ⟨ps, hps⟩ := filled_eq_length_iff.mp hfi
  refine ⟨ps, by rw [hps, mapM_expect], ?_⟩
  have hg : ps = (List.range e.total.toNat).map fun i => (parts.lookup i).getD [] := by
    have := congrArg (List.map fun o : Option Bytes => o.getD []) (hps.symm.trans hdata)
    simpa [Function.comp_def] using this
  rw [assemble, List.flatMap, ← hg]

theorem Wf.credit_sizem (h : g.Wf) (n : Nat) (c : ClientID) :
    ((g.credit key.clientId n).sizem c).getD 0 =
      g.pending c + if key.clientId = c then n else 0 := by
  by_cases hck : key.clientId = c
  · subst hck
    simp [credit, h.sizem]
  · simp [credit, Ne.symm hck, hck, h.sizem]

theorem Wf.credit_held (h : g.Wf) (hk : g.m.lookup key = some e) (n : Nat) (c : ClientID)
    (hc : ((g.credit key.clientId n).sizem c).isSome) : ∃ k ∈ g.m, k.clientId = c := by
  by_cases hck : c = key.clientId
  · exact ⟨key, lookup_isSome.mp (by rw [hk]; rfl), hck.symm⟩
  · simp only [credit, Function.update_of_ne hck] at hc
    exact h.held c hc

def storePart (g : Inner) (now : Instant) (key : FragKey) (e : FragEntry) (fragIdx : UInt8)
    (data : Bytes) : Inner :=
  { g.credit key.clientId data.length with m := g.m.insert key (e.store now fragIdx data) }

def release (g : Inner) (key : FragKey) (e : FragEntry) (data : Bytes) : Inner :=
  debit { g.credit key.clientId data.length with m := g.m.erase key } key.clientId
    (e.size + data.length)

theorem place_more (g : Inner) (now : Instant) (key : FragKey) (data : Bytes)
    (hs : e.data[fragIdx.toNat]? = some none) (hmore : e.filled + 1 ≠ e.total.toNat) :
    g.place now key e fragIdx data = .ok (g.storePart now key e fragIdx data, []) := by
  rw [place, index_of_some hs, ok_bind]
  exact if_neg hmore

theorem place_last {parts : List Bytes} (g : Inner) (now : Instant) (key : FragKey) (data : Bytes)
    (hs : e.data[fragIdx.toNat]? = some none) (hl : e.filled + 1 = e.total.toNat)
    (hp : (e.store now fragIdx data).data.mapM expect = .ok parts) :
    g.place now key e fragIdx data = .ok (g.release key e data, parts.flatten) := by
  rw [place, index_of_some hs, ok_bind]
  refine (if_pos hl).trans ?_
  rw [hp, ok_bind]
  rfl

theorem Wf.storePart (h : g.Wf) (hke : g.m.lookup key = some e)
    (hs : e.data[fragIdx.toNat]? = some none) (hsize : e.size + data.length ≤ FRAG_SIZE)
    (hb : (g.sizem key.clientId).getD 0 + data.length ≤ FRAG_CLIENT_ID_SIZE)
    (hmore : e.filled + 1 ≠ e.total.toNat) : (g.storePart now key e fragIdx data).Wf := by
  have hp : ∀ c, (g.storePart now key e fragIdx data).pending c =
      g.pending c + if key.clientId = c then data.length else 0 := by
    intro c
    rw [pending, Inner.storePart, tally_insert, pending, tally_of_lookup hke]
    simp only [store]
    split <;> omega
  refine ⟨fun k e' he' => ?_, fun c => ?_, fun c hc => ?_, fun c => ?_, ?_⟩
  · by_cases hk : k = key
    · subst hk
      rw [Inner.storePart, lookup_insert] at he'
      exact Option.some.inj he' ▸ store_wf (h.entry k e hke) hs hsize hmore
    · rw [Inner.storePart, lookup_insert_ne hk] at he'
      exact h.entry k e' he'
  · rw [hp]
    exact h.credit_sizem data.length c
  · obtain ⟨k, hk, hkc⟩ := h.credit_held hke data.length c hc
    exact ⟨k, (mem_insert _).mpr (.inr hk), hkc⟩
  · have hold := h.budget c
    rw [h.sizem] at hb
    rw [hp]
    split
    · next hck => exact hck ▸ hb
    · omega
  · have hl := length_keys_erase hke
    have hco := h.count
    simp [Inner.storePart, ← keys_erase]
    omega

theorem place_spec (now : Instant) (h : g.Wf) (hlo : Records log g)
    (hk : g.m.lookup key = some e) (hs : e.data[fragIdx.toNat]? = some none)
    (hsize : e.size + data.length ≤ FRAG_SIZE) (hb : e.filled + 1 < e.total.toNat →
      (g.sizem key.clientId).getD 0 + data.length ≤ FRAG_CLIENT_ID_SIZE) :
    ∃ g' out, g.place now key e fragIdx data = .ok (g', out) ∧ g'.Wf ∧
      Records (Function.update log key (log key ++ [(fragIdx.toNat, data)])) g' ∧
      (out ≠ [] → out = assemble e.total.toNat (log key ++ [(fragIdx.toNat, data)])) := by
  have he := h.entry key e hk
  have hi := he.incomplete
  have hr := store_records now data hs (hlo key e hk)
  by_cases hl : e.filled + 1 = e.total.toNat
  · obtain ⟨ps, hps, hf⟩ := mapM_expect_store he hs hr hl
    exact ⟨_, _, place_last g now key data hs hl hps,
      h.debit_erase hk data.length _ (h.credit_sizem _) (h.credit_held hk _), hlo.erase,
      fun _ => hf⟩
  · exact ⟨_, _, place_more g now key data hs hl,
      h.storePart hk hs hsize (hb (by omega)) hl, hlo.insert hr,
      fun ho => absurd rfl ho⟩

def logFeed (it : Iteration FragKey) (now : Instant) (key : FragKey) (fragIdx fragN : UInt8)
    (data : Bytes) (g : Inner) (log : Log) : Checked Log :=
  if g.closed ∨ fragN < 2 then .ok log
  else do
    let log := g.startLog now key log
    let g ← g.prepare it now key fragN
    match g.m.lookup key with
    | none => .ok log
    | some e =>
      if ← g.rejects key e fragIdx fragN data then .ok log
      else .ok (Function.update log key (log key ++ [(fragIdx.toNat, data)]))

theorem feed_spec (h : g.Wf) (hl : Records log g) (it : Iteration FragKey) (now : Instant)
    (key : FragKey) (fragIdx fragN : UInt8) (data : Bytes) :
    ∃ g' out log', g.feed it now key fragIdx fragN data = .ok (g', out) ∧
      g.logFeed it now key fragIdx fragN data log = .ok log' ∧ g'.Wf ∧ Records log' g' ∧
      (out ≠ [] → out = assemble fragN.toNat (log' key)) := by
  unfold feed logFeed
  split
  · exact ⟨g, [], log, rfl, rfl, h, hl, fun hou => absurd rfl hou⟩
  · next ho =>
    have hn : 0 < fragN.toNat := by
      have := (not_or.mp ho).2
      rw [UInt8.lt_iff_toNat_lt] at this
      have h2 : (2 : UInt8).toNat = 2 := rfl
      omega
    obtain ⟨g1, e, hp, hwf, hk, hl1, -⟩ := prepare_spec h hl hn it now key
    obtain ⟨b, hr, hb⟩ := rejects_spec (hwf.entry key e hk) g1 key fragIdx fragN data
    simp only [hp, ok_bind, hk, hr]
    cases b with
    | true => exact ⟨g1, [], _, rfl, rfl, hwf, hl1, fun hou => absurd rfl hou⟩
    | false =>
      obtain ⟨ht, hs, hsize, hbu⟩ := hb.mp rfl
      obtain ⟨g', out, hpl, hwf', hl', hou⟩ := place_spec now hwf hl1 hk hs hsize hbu
      refine ⟨g', out, _, hpl, rfl, hwf', hl', fun hne => ?_⟩
      rw [Function.update_self, ht]
      exact hou hne

inductive Call
  | feed (it : Iteration FragKey) (now : Instant) (key : FragKey) (fragIdx fragN : UInt8)
      (data : Bytes)
  | sweepExpired (it : Iteration FragKey) (now : Instant)
  | close

structure Logged where
  inner : Inner
  log : Log

namespace Logged

def new : Logged := ⟨Inner.new, fun _ => []⟩

def call (r : Logged) : Call → Checked (Logged × Bytes)
  | .feed it now key fragIdx fragN data => do
    let (g, out) ← r.inner.feed it now key fragIdx fragN data
    let log ← r.inner.logFeed it now key fragIdx fragN data r.log
    .ok (⟨g, log⟩, out)
  | .sweepExpired it now => .ok (⟨r.inner.sweepExpired it now, r.log⟩, [])
  | .close => .ok (⟨r.inner.close, r.log⟩, [])

def calls (r : Logged) (cs : List Call) : Checked Logged :=
  cs.foldlM (fun r c => do
    let (r, _) ← r.call c
    .ok r) r

/-- A call hands out nothing, or the fragments accepted for its key in the order of their
indices. -/
def Joined (r : Logged) (c : Call) (out : Bytes) : Prop :=
  out ≠ [] → ∃ it now key fragIdx fragN data, c = .feed it now key fragIdx fragN data ∧
    out = assemble fragN.toNat (r.log key)

theorem call_spec {r : Logged} (h : r.inner.Wf) (hlo : Records r.log r.inner) (c : Call) :
    ∃ r' out, r.call c = .ok (r', out) ∧ r'.inner.Wf ∧ Records r'.log r'.inner ∧
      r'.Joined c out := by
  cases c with
  | feed it now key fi fn data =>
    obtain ⟨g', out, log', hf, hl, hwf, hr, ho⟩ := feed_spec h hlo it now key fi fn data
    refine ⟨⟨g', log'⟩, out, ?_, hwf, hr, fun hne => ⟨it, now, key, fi, fn, data, rfl, ho hne⟩⟩
    simp [call, hf, hl]
  | sweepExpired it now =>
    obtain ⟨hwf, hw⟩ := sweepExpired_spec h it now
    exact ⟨_, [], rfl, hwf, hlo.within hw, fun hne => absurd rfl hne⟩
  | close => exact ⟨_, [], rfl, wf_empty true, fun k e he => by simp [close] at he,
      fun hne => absurd rfl hne⟩

theorem calls_spec {r : Logged} (h : r.inner.Wf) (hl : Records r.log r.inner) (cs : List Call) :
    ∃ r', r.calls cs = .ok r' ∧ r'.inner.Wf ∧ Records r'.log r'.inner := by
  induction cs generalizing r with
  | nil => exact ⟨r, rfl, h, hl⟩
  | cons c cs ih =>
    obtain ⟨r1, out, hc, h1, hl1, -⟩ := call_spec h hl c
    obtain ⟨r', hca, h', hl'⟩ := ih h1 hl1
    refine ⟨r', ?_, h', hl'⟩
    rw [calls, foldlM_cons, hc]
    exact hca

theorem new_calls_spec (cs : List Call) :
    ∃ r, new.calls cs = .ok r ∧ r.inner.Wf ∧ Records r.log r.inner :=
  calls_spec (wf_empty false) (fun k e he => by simp [new, Inner.new] at he) cs

end Logged

def someClient : ClientID := ⟨List.replicate 8 0, rfl⟩

def Reachable (g : Inner) : Prop := ∃ cs r, Logged.new.calls cs = .ok r ∧ r.inner = g

theorem Reachable.spec (h : g.Reachable) : g.Wf ∧ ∃ log, Records log g := by
  obtain ⟨cs, r, hc, rfl⟩ := h
  obtain ⟨r', hc', hwf, hl⟩ := Logged.new_calls_spec cs
  obtain rfl := Except.ok.inj (hc.symm.trans hc')
  exact ⟨hwf, _, hl⟩

theorem Reachable.feed_ok (h : g.Reachable) (it : Iteration FragKey) (now : Instant)
    (key : FragKey) (fragIdx fragN : UInt8) (data : Bytes) :
    ∃ g' out, g.feed it now key fragIdx fragN data = .ok (g', out) := by
  obtain ⟨hwf, log, hl⟩ := h.spec
  obtain ⟨g', out, -, hf, -⟩ := feed_spec hwf hl it now key fragIdx fragN data
  exact ⟨g', out, hf⟩

end Inner

end XrayCore.Xdns
