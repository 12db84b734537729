import XrayCore.SplitHttp.EndOfStream
import Mathlib.Data.Fintype.EquivFin

/-!
# What is read after the queue is closed

Packets are pushed in any order and any number of times, the queue is closed and then read until a
read returns nothing. The reader gets the packets from 0 on up to the first one that was pushed
twice or is empty: the second copy is stale once the first is read and keeps everything behind it in
the heap.
-/

namespace XrayCore.SplitHttp

open Lib List MinHeap

namespace UploadQueue

variable {H : Type} [MinHeap H Packet Packet.seq] {q : UploadQueue H}

inductive End
  | eof
  | error (e : SplitHttpError)
  | waits
  deriving DecidableEq

/-- The bytes of all reads up to the one that stops the reader, with buffers of `sizes i` bytes.
Nothing if the fuel does not last. -/
def readAll (sizes : Nat → Nat) : Nat → Nat → UploadQueue H → Option (Bytes × End)
  | 0, _, _ => none
  | fuel + 1, i, q =>
    match q.read (sizes i) with
    | (.ok bytes, q) =>
      if bytes = [] then some ([], .eof)
      else (readAll sizes fuel (i + 1) q).map fun r => (bytes ++ r.1, r.2)
    | (.err e, _) => some ([], .error e)
    | (.pending, _) => some ([], .waits)

/-- Whatever the sizes of its buffers, the reader gets these bytes and stops so. -/
def Ends (q : UploadQueue H) (bytes : Bytes) (e : End) : Prop :=
  ∀ sizes : Nat → Nat, (∀ i, 0 < sizes i) →
    ∀ i, ∃ enough, ∀ fuel, enough ≤ fuel → readAll sizes fuel i q = some (bytes, e)

theorem Ends.unique (h : q.Ends bytes e) (h' : q.Ends bytes' e') : bytes = bytes' ∧ e = e' := by
  obtain ⟨n, hn⟩ := h (fun _ => 1) (fun _ => one_pos) 0
  obtain ⟨n', hn'⟩ := h' (fun _ => 1) (fun _ => one_pos) 0
  have heq := (hn (max n n') (le_max_left _ _)).symm.trans (hn' _ (le_max_right _ _))
  exact Prod.mk.inj (Option.some.inj heq)

theorem ends_eof (h : ∀ want, 0 < want → (q.read want).1 = .ok []) : q.Ends [] .eof := by
  intro s hp i
  refine ⟨1, ?_⟩
  intro fuel hf
  obtain ⟨fuel, rfl⟩ := Nat.exists_eq_add_of_le' hf
  have hre := h (s i) (hp i)
  cases hr : q.read (s i) with
  | mk r q' =>
    rw [hr] at hre
    cases hre
    simp [readAll, hr, ↓reduceIte]

theorem ends_error (h : ∀ want, (q.read want).1 = .err err) : q.Ends [] (.error err) := by
  intro s _ i
  refine ⟨1, ?_⟩
  intro fuel hf
  obtain ⟨fuel, rfl⟩ := Nat.exists_eq_add_of_le' hf
  have hre := h (s i)
  cases hr : q.read (s i) with
  | mk r q' =>
    rw [hr] at hre
    cases hre
    simp [readAll, hr]

theorem ends_step (h : ∀ want, 0 < want → ∃ bytes q' rest, q.read want = (.ok bytes, q') ∧
    bytes ≠ [] ∧ q'.Ends rest e ∧ total = bytes ++ rest) : q.Ends total e := by
  intro s hp i
  obtain ⟨bytes, q', rest, hr, hne, he, rfl⟩ := h (s i) (hp i)
  obtain ⟨en, hrest⟩ := he s hp (i + 1)
  refine ⟨en + 1, ?_⟩
  intro fuel hf
  obtain ⟨fuel, rfl⟩ := Nat.exists_eq_add_of_le' (le_trans (Nat.le_add_left 1 en) hf)
  simp [readAll, hr, if_neg hne, hrest fuel (Nat.le_of_succ_le_succ hf)]

theorem ends_consume (hc : q.current = some p) (hne : p.payload ≠ [])
    (hnx : Ends { q with current := none, nextSeq := q.nextSeq + 1 } rest e) :
    q.Ends (p.payload ++ rest) e := by
  -- each read takes at least one byte
  induction hn : p.payload.length using Nat.strongRecOn generalizing q p with
  | ind n ih =>
  refine ends_step ?_
  intro want hw
  have hr : q.ready want = some (q.consume p want) := by simp only [ready, hc]
  rw [read_of_ready hr]
  unfold consume
  simp only
  split
  · next hp =>
    have hm : min want p.payload.length = want := by omega
    rw [hm] at hp ⊢
    have ht : p.payload.take want ≠ [] := by
      rw [Ne, take_eq_nil_iff, not_or]
      exact ⟨ne_of_gt hw, hne⟩
    have hd : p.payload.drop want ≠ [] := by
      rw [Ne, drop_eq_nil_iff]
      exact not_le.mpr hp
    refine ⟨_, _, p.payload.drop want ++ rest, rfl, ht, ?_, ?_⟩
    · refine ih (p.payload.drop want).length ?_ (p := { p with payload := p.payload.drop want })
        rfl hd hnx rfl
      rw [length_drop]
      omega
    · rw [← append_assoc, take_append_drop]
  · next hall =>
    have hm : min want p.payload.length = p.payload.length := by omega
    rw [hm, take_length]
    exact ⟨_, _, rest, rfl, hne, hnx, rfl⟩

theorem ends_top (hc : q.current = none) (hp : peek q.heap = some p) (hs : p.seq = q.nextSeq)
    (h : Ends { q with current := some p, heap := pop q.heap } bytes e) :
    q.Ends bytes e := by
  have hr (want : Nat) :
      q.read want = read { q with current := some p, heap := pop q.heap } want := by
    have hre : q.ready want = some (consume { q with heap := pop q.heap } p want) := by
      simp [ready, hc, hp, hs, ↓reduceIte]
    have hr' : ready { q with current := some p, heap := pop q.heap } want =
        some (consume { q with heap := pop q.heap } p want) := by
      simp [ready, consume]
    rw [read_of_ready hre, read_of_ready hr']
  intro s hpo i
  obtain ⟨en, hall⟩ := h s hpo i
  refine ⟨en, ?_⟩
  intro fuel hf
  rw [← hall fuel hf]
  cases fuel with
  | zero => rfl
  | succ fuel => simp [readAll, hr]

theorem ends_blocked (hc : q.current = none) (hp : q.pushed = none) (hb : q.Blocked) :
    q.Ends [] (if q.maxPackets < len q.heap then
      .error (.packetQueueTooLarge q.maxPackets (len q.heap)) else .eof) := by
  split
  · next ho =>
    refine ends_error ?_
    intro want
    rw [read_of_ready (ready_overflow hc hb ho)]
  · next hroom =>
    refine ends_eof ?_
    intro want _
    rw [read, hp, ready_eq_none hc hb (not_lt.mp hroom), Option.getD_none]

def waiting (q : UploadQueue H) : Multiset Packet :=
  (match q.current with
    | some p => {p}
    | none => 0) + elems q.heap

theorem waiting_file (q : UploadQueue H) (p : Packet) : (q.file p).waiting = p ::ₘ q.waiting := by
  unfold file
  split
  · next h =>
    have hn : q.current = none := Option.isNone_iff_eq_none.mp h.2
    simp [waiting, hn]
  · simp [waiting, elems_push]

def closedAfter (maxPackets : Nat) (ps : List Packet) : UploadQueue H :=
  runs step (new maxPackets) (ps.map Op.push ++ [Op.close])

theorem runs_push (q : UploadQueue H) (ch ps : List Packet) (h : q.pushed = some ch) :
    runs step q (ps.map Op.push) = { q with pushed := some (ch ++ ps) } := by
  induction ps generalizing q ch with
  | nil => simp [← h]
  | cons p ps ih =>
    have hs : q.step (.push p) = { q with pushed := some (ch ++ [p]) } := by
      simp [step, push, h]
    rw [map_cons, runs_cons, hs, ih _ (ch ++ [p]) rfl]
    simp

structure Stage (ps : List Packet) (i : Nat) (q : UploadQueue H) : Prop where
  pushed : q.pushed = none
  next : q.nextSeq = i
  current : ∀ p, q.current = some p → p.seq = i
  ahead : ∀ p ∈ q.waiting, p ∈ ps ∧ i ≤ p.seq
  counts : ∀ j, i ≤ j → q.waiting.countP (·.seq = j) = ps.countP (·.seq = j)
  size : q.waiting.card + i = ps.length

theorem foldl_file (ps : List Packet) (q : UploadQueue H)
    (hc : ∀ p, q.current = some p → p.seq = q.nextSeq) :
    (ps.foldl file q).nextSeq = q.nextSeq ∧ (ps.foldl file q).maxPackets = q.maxPackets ∧
      (∀ p, (ps.foldl file q).current = some p → p.seq = q.nextSeq) ∧
      (ps.foldl file q).waiting = ps + q.waiting := by
  induction ps generalizing q with
  | nil => exact ⟨rfl, rfl, hc, by simp⟩
  | cons p ps ih =>
    have hf : (q.file p).nextSeq = q.nextSeq ∧ (q.file p).maxPackets = q.maxPackets ∧
        ∀ p', (q.file p).current = some p' → p'.seq = q.nextSeq := by
      unfold file
      split
      · next h =>
        refine ⟨rfl, rfl, ?_⟩
        intro p' hp'
        cases hp'
        exact h.1
      · exact ⟨rfl, rfl, hc⟩
    obtain ⟨hn, hm, hcu⟩ := hf
    obtain ⟨hn', hm', hc', hw⟩ := ih (q.file p) (hn.symm ▸ hcu)
    refine ⟨hn'.trans hn, hm'.trans hm, hn ▸ hc', ?_⟩
    rw [foldl_cons, hw, waiting_file, Multiset.add_cons, ← Multiset.cons_add, Multiset.cons_coe]

theorem closedAfter_stage (maxPackets : Nat) (ps : List Packet) :
    Stage ps 0 (closedAfter maxPackets ps : UploadQueue H) ∧
      (closedAfter maxPackets ps : UploadQueue H).maxPackets = maxPackets := by
  have hc : (closedAfter maxPackets ps : UploadQueue H) =
      close { (new maxPackets : UploadQueue H) with pushed := some ps } := by
    rw [closedAfter, runs_concat, runs_push _ [] ps rfl]
    rfl
  obtain ⟨hn, hm, hcu, hw⟩ := foldl_file ps
    { (new maxPackets : UploadQueue H) with pushed := some ps } nofun
  have hz : waiting { (new maxPackets : UploadQueue H) with pushed := some ps } = 0 := by
    simp [waiting, new, elems_empty]
  have hall : (closedAfter maxPackets ps : UploadQueue H).waiting = ps := by
    rw [hc]
    exact hw.trans (by rw [hz, Multiset.add_zero])
  refine ⟨⟨by rw [hc]; rfl, ?_, ?_, ?_, ?_, ?_⟩, ?_⟩
  · rw [hc]
    exact hn
  · rw [hc]
    exact hcu
  · intro p hp
    rw [hall] at hp
    exact ⟨hp, Nat.zero_le _⟩
  · intro j _
    rw [hall, Multiset.coe_countP]
  · rw [hall, Multiset.coe_card, add_zero]
  · rw [hc]
    exact hm

theorem waiting_of_current (h : q.current = some p) : q.waiting = p ::ₘ elems q.heap := by
  simp [waiting, h]

theorem waiting_of_none (h : q.current = none) : q.waiting = elems q.heap := by
  simp [waiting, h]

theorem Stage.take_up (h : Stage ps i q) (hin : 0 < ps.countP (·.seq = i)) :
    ∃ (q' : UploadQueue H) (p : Packet), Stage ps i q' ∧ q'.current = some p ∧
      q'.maxPackets = q.maxPackets ∧ ∀ bytes e, q'.Ends bytes e → q.Ends bytes e := by
  cases hc : q.current with
  | some p => exact ⟨q, p, h, hc, rfl, fun _ _ he => he⟩
  | none =>
    have hw := waiting_of_none hc
    -- the packet is in the heap, and nothing there is smaller
    obtain ⟨a, ha, hse⟩ := Multiset.countP_pos.mp (h.counts i (le_refl i) ▸ hin)
    obtain ⟨top, hpe, hle⟩ := peek_of_mem (hw ▸ ha)
    have ht : top.seq = i := le_antisymm (hse ▸ hle) (h.ahead top (hw ▸ peek_mem hpe)).2
    have hs : waiting { q with current := some top, heap := pop q.heap } = q.waiting := by
      rw [hw, ← elems_pop hpe]
      exact waiting_of_current rfl
    refine ⟨{ q with current := some top, heap := pop q.heap }, top,
      ⟨h.pushed, h.next, ?_, ?_, ?_, ?_⟩, rfl, rfl, ?_⟩
    · intro p hp
      cases hp
      exact ht
    · rw [hs]
      exact h.ahead
    · rw [hs]
      exact h.counts
    · rw [hs]
      exact h.size
    · intro bytes e he
      exact ends_top hc hpe (ht.trans h.next.symm) he

theorem Stage.succ (h : Stage ps i q) (hc : q.current = some p) (ho : ps.countP (·.seq = i) = 1) :
    Stage ps (i + 1) { q with current := none, nextSeq := q.nextSeq + 1 } := by
  have hp := h.current p hc
  have hw := waiting_of_current hc
  have hw' : waiting { q with current := none, nextSeq := q.nextSeq + 1 } =
      elems q.heap := waiting_of_none rfl
  have hn : (elems q.heap).countP (·.seq = i) = 0 := by
    have hco := h.counts i (le_refl i)
    rw [hw, Multiset.countP_cons_of_pos (p := fun x : Packet => x.seq = i) _ hp, ho] at hco
    exact Nat.succ.inj hco
  refine ⟨h.pushed, congrArg (· + 1) h.next, nofun, ?_, ?_, ?_⟩
  · intro x hx
    rw [hw'] at hx
    obtain ⟨hin, hle⟩ := h.ahead x (hw ▸ Multiset.mem_cons_of_mem hx)
    have hne : x.seq ≠ i := Multiset.countP_eq_zero.mp hn x hx
    exact ⟨hin, lt_of_le_of_ne hle (Ne.symm hne)⟩
  · intro j hj
    have hne : p.seq ≠ j := hp ▸ ne_of_lt hj
    rw [hw', ← h.counts j (Nat.le_of_succ_le hj), hw,
      Multiset.countP_cons_of_neg (p := fun x : Packet => x.seq = j) _ hne]
  · have hsize := h.size
    rw [hw, Multiset.card_cons] at hsize
    rw [hw', ← hsize, add_assoc, add_comm 1 i]

def payloadAt (ps : List Packet) (i : Nat) : Bytes :=
  match ps.find? (·.seq = i) with
  | some p => p.payload
  | none => []

def Copies (ps : List Packet) : Prop :=
  ∀ p ∈ ps, ∀ p' ∈ ps, p.seq = p'.seq → p.payload = p'.payload

def Plain (ps : List Packet) (i : Nat) : Prop :=
  ps.countP (·.seq = i) = 1 ∧ payloadAt ps i ≠ []

theorem Copies.payload_eq (h : Copies ps) (hp : p ∈ ps) : p.payload = payloadAt ps p.seq := by
  cases hf : ps.find? (·.seq = p.seq) with
  | none =>
    exact absurd (decide_eq_true rfl) (find?_eq_none.mp hf p hp)
  | some p' =>
    simp only [payloadAt, hf]
    have hs := find?_some hf
    exact h p hp p' (mem_of_find?_eq_some hf) (of_decide_eq_true hs).symm

theorem Stage.ends_plain (hco : Copies ps) (h : Stage ps i q)
    (hp : ∀ j, i ≤ j → j < i + n → Plain ps j)
    (hl : ∀ q' : UploadQueue H, Stage ps (i + n) q' → q'.maxPackets = q.maxPackets →
      q'.Ends tl e) : q.Ends ((range' i n).flatMap (payloadAt ps) ++ tl) e := by
  induction n generalizing i q with
  | zero => exact hl q h rfl
  | succ n ih =>
    obtain ⟨ho, hb⟩ := hp i (le_refl i) (Nat.lt_add_of_pos_right (Nat.succ_pos n))
    obtain ⟨q', p, h', hc, hm, he⟩ := h.take_up (ho ▸ one_pos)
    have hin : p ∈ ps := (h'.ahead p (waiting_of_current hc ▸ Multiset.mem_cons_self _ _)).1
    have hpa : p.payload = payloadAt ps i := h'.current p hc ▸ hco.payload_eq hin
    refine he _ _ ?_
    rw [range'_succ, flatMap_cons, append_assoc, ← hpa]
    refine ends_consume hc (hpa ▸ hb) ?_
    refine ih (h'.succ hc ho) ?_ ?_
    · intro j hle hlt
      exact hp j (Nat.le_of_succ_le hle) (by omega)
    intro q'' hs hm'
    refine hl q'' ?_ (hm'.trans hm)
    rw [← Nat.add_assoc, Nat.add_right_comm]
    exact hs

theorem exists_unpushed (ps : List Packet) : ∃ i, ps.countP (·.seq = i) = 0 := by
  obtain ⟨i, hi⟩ := Infinite.exists_notMem_finset (ps.map Packet.seq).toFinset
  refine ⟨i, countP_eq_zero.mpr ?_⟩
  intro p hp hs
  refine hi (mem_toFinset.mpr (mem_map.mpr ⟨p, hp, of_decide_eq_true hs⟩))

theorem exists_not_plain (ps : List Packet) : ∃ i, ¬Plain ps i := by
  obtain ⟨i, hi⟩ := exists_unpushed ps
  exact ⟨i, fun h => absurd (hi.symm.trans h.1) zero_ne_one⟩

def runEnd (ps : List Packet) : Nat := Nat.find (exists_unpushed ps)

instance (ps : List Packet) (i : Nat) : Decidable (Plain ps i) :=
  inferInstanceAs (Decidable (_ ∧ _))

def firstStop (ps : List Packet) : Nat := Nat.find (exists_not_plain ps)

def contiguous (ps : List Packet) : Bytes := (range (runEnd ps)).flatMap (payloadAt ps)

theorem firstStop_le_runEnd (ps : List Packet) : firstStop ps ≤ runEnd ps := by
  refine Nat.find_min' _ ?_
  intro h
  exact absurd ((Nat.find_spec (exists_unpushed ps)).symm.trans h.1) zero_ne_one

theorem payloadAt_of_unpushed (h : ps.countP (·.seq = i) = 0) : payloadAt ps i = [] := by
  have hn : ps.find? (·.seq = i) = none := find?_eq_none.mpr fun p hp => countP_eq_zero.mp h p hp
  simp [payloadAt, hn]

def leftBehind (ps : List Packet) : Nat :=
  ps.length - if firstStop ps < runEnd ps then firstStop ps + 1 else firstStop ps

def overflow (maxPackets left : Nat) : End :=
  if maxPackets < left then .error (.packetQueueTooLarge maxPackets left) else .eof

theorem Stage.ends_gap (h : Stage ps i q) (hg : ps.countP (·.seq = i) = 0) :
    q.Ends [] (overflow q.maxPackets (ps.length - i)) := by
  have hne : ∀ p ∈ q.waiting, p.seq ≠ i := by
    intro p hp
    have hn := countP_eq_zero.mp hg p (h.ahead p hp).1
    exact fun hs => hn (decide_eq_true hs)
  cases hc : q.current with
  | some p =>
    exact absurd (h.current p hc) (hne p (waiting_of_current hc ▸ Multiset.mem_cons_self _ _))
  | none =>
    have hw := waiting_of_none hc
    have hb : q.Blocked := by
      intro top hpe
      rw [h.next]
      exact hne top (hw ▸ peek_mem hpe)
    have hl : len q.heap = ps.length - i := by
      rw [len, ← hw, ← h.size, Nat.add_sub_cancel]
    rw [overflow, ← hl]
    exact ends_blocked hc h.pushed hb

theorem Stage.ends_repeated (hco : Copies ps) (h : Stage ps i q)
    (hc : q.current = some p) (hb : payloadAt ps i ≠ []) (htwice : 1 < ps.countP (·.seq = i)) :
    q.Ends (payloadAt ps i) (overflow q.maxPackets (ps.length - (i + 1))) := by
  have hw := waiting_of_current hc
  have hp := h.current p hc
  have hin : p ∈ ps := (h.ahead p (hw ▸ Multiset.mem_cons_self _ _)).1
  have hpa : p.payload = payloadAt ps i := hp ▸ hco.payload_eq hin
  have hl : len q.heap = ps.length - (i + 1) := by
    rw [← h.size, hw, Multiset.card_cons, add_assoc, add_comm 1 i, Nat.add_sub_cancel]
    rfl
  -- the other copy is below the next number now
  have hbl : Blocked { q with current := none, nextSeq := q.nextSeq + 1 } := by
    refine peek_key_ne_iff.mpr (.inl ?_)
    have hcu := h.counts i (le_refl i)
    rw [hw, Multiset.countP_cons_of_pos (p := fun x : Packet => x.seq = i) _ hp] at hcu
    have hpo : 0 < (elems q.heap).countP fun x : Packet => x.seq = i := by omega
    obtain ⟨x, hx, hs⟩ := Multiset.countP_pos.mp hpo
    refine ⟨x, hx, ?_⟩
    rw [hs, ← h.next]
    exact Nat.lt_succ_self _
  have hrest := ends_blocked (q := { q with current := none, nextSeq := q.nextSeq + 1 }) rfl
    h.pushed hbl
  have he := ends_consume hc (hpa ▸ hb) hrest
  rw [append_nil, hpa] at he
  rw [overflow, ← hl]
  exact he

theorem ends_empty (hc : q.current = some p) (he : p.payload = []) : q.Ends [] .eof := by
  refine ends_eof ?_
  intro want hw
  have hr : q.ready want = some (q.consume p want) := by simp only [ready, hc]
  rw [read_of_ready hr]
  exact (consume_eof_iff q p hw).mpr he

theorem ends_closedAfter (maxp : Nat) (ps : List Packet) (hco : Copies ps) :
    (closedAfter maxp ps : UploadQueue H).Ends ((range (firstStop ps + 1)).flatMap (payloadAt ps))
      (if firstStop ps < runEnd ps ∧ payloadAt ps (firstStop ps) = [] then .eof
        else overflow maxp (leftBehind ps)) := by
  obtain ⟨hs, hm⟩ := closedAfter_stage (H := H) maxp ps
  rw [range_succ, flatMap_append, flatMap_singleton, range_eq_range']
  refine hs.ends_plain hco ?_ ?_
  · intro j _ hj
    rw [zero_add] at hj
    exact Decidable.not_not.mp (Nat.find_min (exists_not_plain ps) hj)
  intro q hq hqm
  rw [zero_add] at hq
  rw [← hm, ← hqm]
  by_cases hr : firstStop ps < runEnd ps
  · -- the packet was pushed, so it is empty or was pushed again
    have hin : 0 < ps.countP (·.seq = firstStop ps) :=
      pos_of_ne_zero (Nat.find_min (exists_unpushed ps) hr)
    obtain ⟨q', p, hq', hc, hm', hen⟩ := hq.take_up hin
    refine hen _ _ ?_
    by_cases he : payloadAt ps (firstStop ps) = []
    · have hme : p ∈ ps := (hq'.ahead p (waiting_of_current hc ▸ Multiset.mem_cons_self _ _)).1
      have hp := hco.payload_eq hme
      rw [hq'.current p hc, he] at hp
      rw [if_pos ⟨hr, he⟩, he]
      exact ends_empty hc hp
    · have htwice : 1 < ps.countP (·.seq = firstStop ps) := by
        have hn := Nat.find_spec (exists_not_plain ps)
        have hne : ps.countP (·.seq = firstStop ps) ≠ 1 := fun h => hn ⟨h, he⟩
        omega
      rw [if_neg fun h => he h.2, leftBehind, if_pos hr, ← hm']
      exact hq'.ends_repeated hco hc he htwice
  · have heq : firstStop ps = runEnd ps :=
      le_antisymm (firstStop_le_runEnd ps) (not_lt.mp hr)
    have hg : ps.countP (·.seq = firstStop ps) = 0 := heq ▸ Nat.find_spec (exists_unpushed ps)
    rw [if_neg fun h => hr h.1, payloadAt_of_unpushed hg, leftBehind, if_neg hr]
    exact hq.ends_gap hg

theorem flatMap_firstStop_iff (ps : List Packet) :
    (range (firstStop ps + 1)).flatMap (payloadAt ps) = contiguous ps ↔
      ∀ i, firstStop ps < i → i < runEnd ps → payloadAt ps i = [] := by
  rcases lt_or_eq_of_le (firstStop_le_runEnd ps) with hlt | heq
  · obtain ⟨n, hn⟩ := Nat.exists_eq_add_of_le hlt
    have hs : contiguous ps = (range (firstStop ps + 1)).flatMap (payloadAt ps) ++
        (range' (firstStop ps + 1) n).flatMap (payloadAt ps) := by
      rw [contiguous, hn, ← flatMap_append, range_eq_range', range_eq_range',
        ← range'_append_1, zero_add]
    rw [hs, self_eq_append_right, flatMap_eq_nil_iff]
    constructor
    · intro h i hgt hlt'
      exact h i (mem_range'_1.mpr ⟨hgt, by omega⟩)
    · intro h i hi
      obtain ⟨hge, hlt'⟩ := mem_range'_1.mp hi
      exact h i hge (by omega)
  · have hg := payloadAt_of_unpushed (Nat.find_spec (exists_unpushed ps))
    constructor
    · intro _ i hgt hlt'
      omega
    · intro _
      rw [contiguous, heq, range_succ, flatMap_append, flatMap_singleton]
      exact (congrArg _ hg).trans (append_nil _)

/-- After any pushes and a close, reading until `Ok(0)` gives the payloads of the longest run from 0
on, exactly when nothing with bytes follows, in the run, the first packet pushed twice or without
bytes, and the heap is within its limit where the reader looks at it. -/
theorem completeness_iff (maxPackets : Nat) (ps : List Packet) (hcopies : Copies ps) :
    (closedAfter maxPackets ps : UploadQueue H).Ends (contiguous ps) .eof ↔
      (∀ i, firstStop ps < i → i < runEnd ps → payloadAt ps i = []) ∧
        ((firstStop ps < runEnd ps ∧ payloadAt ps (firstStop ps) = []) ∨
          leftBehind ps ≤ maxPackets) := by
  have hends := ends_closedAfter (H := H) maxPackets ps hcopies
  have hend : (if firstStop ps < runEnd ps ∧ payloadAt ps (firstStop ps) = [] then End.eof
      else overflow maxPackets (leftBehind ps)) = .eof ↔
      (firstStop ps < runEnd ps ∧ payloadAt ps (firstStop ps) = []) ∨
        leftBehind ps ≤ maxPackets := by
    unfold overflow
    split
    · next h => exact ⟨fun _ => .inl h, fun _ => rfl⟩
    · next h =>
      split
      · next hover =>
        refine ⟨nofun, ?_⟩
        rintro (h' | hle)
        · exact absurd h' h
        · exact absurd hover (not_lt.mpr hle)
      · next hroom => exact ⟨fun _ => .inr (not_lt.mp hroom), fun _ => rfl⟩
  rw [← flatMap_firstStop_iff, ← hend]
  constructor
  · intro h
    exact hends.unique h
  · rintro ⟨hbytes, he⟩
    rw [hbytes, he] at hends
    exact hends

/-- Packet 1 arrives before packet 0; the reader gets both. -/
theorem completeness_iff_reordered :
    let ps : List Packet := [⟨[98], 1⟩, ⟨[97], 0⟩]
    Copies ps ∧ (closedAfter 10 ps : UploadQueue (SortedHeap Packet Packet.seq)).Ends
        (contiguous ps) .eof := by
  intro ps
  have hcopies : Copies ps := by unfold Copies; decide
  have hend : runEnd ps = 2 := (Nat.find_eq_iff _).mpr ⟨by decide, by decide⟩
  have hstop : firstStop ps = 2 := (Nat.find_eq_iff _).mpr ⟨by decide, by decide⟩
  refine ⟨hcopies, (completeness_iff 10 ps hcopies).mpr ⟨?_, .inr ?_⟩⟩
  · intro i hgt hlt
    omega
  · rw [leftBehind, hend, hstop]
    decide

/-- Packet 0 is pushed twice, then packet 1. The reader gets packet 0 and the
end of the stream; the second copy holds packet 1 back. -/
theorem repeated_packet_withholds :
    let ps : List Packet := [⟨[97], 0⟩, ⟨[97], 0⟩, ⟨[98], 1⟩]
    readAll (fun _ => 8) 2 0 (closedAfter 10 ps : UploadQueue (SortedHeap Packet Packet.seq)) =
        some ([97], .eof) ∧ contiguous ps = [97, 98] := by
  intro ps
  have hend : runEnd ps = 2 := (Nat.find_eq_iff _).mpr ⟨by decide, by decide⟩
  refine ⟨by decide, ?_⟩
  rw [contiguous, hend]
  decide

end UploadQueue

end XrayCore.SplitHttp
