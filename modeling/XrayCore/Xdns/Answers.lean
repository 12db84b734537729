import Mathlib.Data.List.Sort
import XrayCore.Xdns.Resp
import XrayCore.Xdns.TunnelMessage

/-!
# The answers of a response

The fragments of some data are the pieces of a longer list, the data behind the number of the
fragments, each with its number in front. `join_numbered` says what the client makes of them,
whether they are complete or not.
-/

namespace XrayCore.Xdns.Resp

open Lib List

variable {unit : Nat} {data : Bytes}

theorem fragCount_zero (unit : Nat) (hu : 2 ≤ unit) : fragCount 0 unit = 0 := by
  simp only [fragCount, lt_irrefl, ↓reduceIte]
  rw [if_neg (by omega)]

theorem fragCount_pos (hu : 2 ≤ unit) (hdata : 0 < dataLen) :
    (fragCount dataLen unit).toNat = dataLen / (unit - 1) + 1 := by
  obtain ⟨u, rfl⟩ : ∃ u, unit = u + 2 := ⟨unit - 2, by omega⟩
  have hu' : ((u + 2 : Nat) : Int) - 1 = ((u + 1 : Nat) : Int) := by omega
  simp only [fragCount, hu', Nat.add_succ_sub_one, gt_iff_lt, if_pos hdata]
  by_cases hmore : u < dataLen
  · -- the first fragment has room for one byte less than the others
    obtain ⟨k, rfl⟩ : ∃ k, dataLen = k + (u + 1) := ⟨dataLen - (u + 1), by omega⟩
    have hc : ((k + (u + 1) : Nat) : Int) - (((u + 2 : Nat) : Int) - 2) =
        ((k + 1 : Nat) : Int) := by omega
    have hd := Domain.div_ceil (k + 1) (u + 1) (Nat.succ_pos u)
    rw [add_right_comm, Nat.add_sub_cancel] at hd
    rw [hc, ← Int.ofNat_tdiv, ← Int.ofNat_tmod, if_pos (by omega), ← hd]
    generalize (k + 1) / (u + 1) = more
    by_cases hm : 0 < (k + 1) % (u + 1)
    · rw [if_pos (Int.natCast_pos.mpr hm), if_pos hm]
      omega
    · rw [if_neg (mt Int.natCast_pos.mp hm), if_neg hm]
      omega
  · rw [if_neg (by omega), Nat.div_eq_of_lt (by omega)]
    rfl

def body (unit : Nat) (data : Bytes) : Bytes :=
  UInt8.ofNat (fragCount data.length unit).toNat :: data

def fragAt (unit : Nat) (data : Bytes) (i : Nat) : Bytes :=
  UInt8.ofNat i :: piece (unit - 1) (body unit data) i

theorem fragLoop_eq (unit : Nat) (data : Bytes) (k : Nat) (hi : i ≠ 0) :
    fragLoop unit fragN i k ((body unit data).drop (i * (unit - 1))) =
      (range' i k).map (fragAt unit data) := by
  induction k generalizing i with
  | zero => rfl
  | succ k ih =>
    simp only [fragLoop, if_neg hi, length_singleton, take_min_length, drop_min_length]
    rw [drop_drop, ← Nat.succ_mul, ih (Nat.succ_ne_zero i)]
    rfl

theorem fragments_eq (hu : 2 ≤ unit) (data : Bytes) : fragments unit data =
    (range (fragCount data.length unit).toNat).map (fragAt unit data) := by
  rw [fragments]
  cases hn : (fragCount data.length unit).toNat with
  | zero => rfl
  | succ k =>
    obtain ⟨u, rfl⟩ : ∃ u, unit = u + 2 := ⟨unit - 2, by omega⟩
    have hd : data.drop u = (body (u + 2) data).drop (1 * (u + 2 - 1)) := by
      rw [one_mul]
      rfl
    simp only [fragLoop, if_true, length_cons, length_nil, take_min_length,
      drop_min_length, Nat.add_sub_cancel]
    rw [hd, fragLoop_eq _ _ _ Nat.one_ne_zero, range_eq_range', range'_succ, map_cons]
    simp [fragAt, piece, body, hn]

theorem body_bounds (hu : 2 ≤ unit) (hdata : data ≠ []) :
    ∃ k, (fragCount data.length unit).toNat = k + 1 ∧ k * (unit - 1) < (body unit data).length ∧
      (body unit data).length ≤ (k + 1) * (unit - 1) := by
  have hp : 0 < unit - 1 := by omega
  have hle := Nat.div_mul_le_self data.length (unit - 1)
  have hlt := Nat.lt_div_mul_add hp (a := data.length)
  refine ⟨_, fragCount_pos hu (length_pos_of_ne_nil hdata), ?_, ?_⟩
  · rw [body, length_cons]
    omega
  · rw [body, length_cons, Nat.succ_mul]
    omega

/-- The fragments of the data, numbered, maybe with something behind the last of them. -/
def Numbered (unit : Nat) (data : Bytes) (frags : List Bytes) : Prop :=
  ∃ part : Nat → Bytes, (∀ i, i < (fragCount data.length unit).toNat → part i ≠ []) ∧
    frags = (range (fragCount data.length unit).toNat).map
      (fun i => UInt8.ofNat i :: part i) ∧
    (data ≠ [] → ∃ tail, ((range (fragCount data.length unit).toNat).map part).flatten =
      body unit data ++ tail)

theorem piece_ne_nil (hu : 2 ≤ unit) (hi : i < (fragCount data.length unit).toNat) :
    piece (unit - 1) (body unit data) i ≠ [] := by
  have hdata : data ≠ [] := by
    rintro rfl
    rw [length_nil, fragCount_zero unit hu] at hi
    exact absurd hi (Nat.not_lt_zero i)
  obtain ⟨k, hk, hlt, -⟩ := body_bounds hu hdata
  rw [hk] at hi
  have := Nat.mul_le_mul_right (unit - 1) (Nat.lt_succ_iff.mp hi)
  refine ne_nil_of_length_pos ?_
  rw [piece, length_take, length_drop]
  omega

theorem numbered_fragments (hu : 2 ≤ unit) (data : Bytes) :
    Numbered unit data (fragments unit data) := by
  refine ⟨piece (unit - 1) (body unit data), fun i hi => piece_ne_nil hu hi,
    fragments_eq hu data, fun hdata => ⟨[], ?_⟩⟩
  obtain ⟨k, hk, -, hle⟩ := body_bounds hu hdata
  rw [hk, flatten_piece, take_of_length_le hle, append_nil]

theorem numbered_zeroPad (hu : 2 ≤ unit) (data : Bytes) :
    Numbered unit data ((fragments unit data).map (zeroPad unit)) := by
  refine ⟨fun i => zeroPad (unit - 1) (piece (unit - 1) (body unit data) i), fun i hi => ?_, ?_,
    fun hdata => ?_⟩
  · exact append_ne_nil_of_left_ne_nil (piece_ne_nil hu hi) _
  · rw [fragments_eq hu, map_map]
    refine map_congr_left fun i _ => ?_
    simp [fragAt, zeroPad, Nat.sub_sub, add_comm 1]
  · obtain ⟨k, hk, hlt, hle⟩ := body_bounds hu hdata
    have hf : ∀ i ∈ range k, zeroPad (unit - 1) (piece (unit - 1) (body unit data) i) =
        piece (unit - 1) (body unit data) i := by
      intro i hi
      have := Nat.mul_le_mul_right (unit - 1) (Nat.succ_le_of_lt (mem_range.mp hi))
      rw [Nat.succ_mul] at this
      rw [zeroPad, piece, length_take, length_drop, min_eq_left (by omega), Nat.sub_self]
      exact append_nil _
    refine ⟨replicate (unit - 1 - (piece (unit - 1) (body unit data) k).length) 0, ?_⟩
    rw [hk, range_succ, map_append, flatten_append, map_congr_left hf,
      map_singleton, flatten_singleton, zeroPad, ← append_assoc]
    congr 1
    have hall := flatten_piece (unit - 1) (body unit data) (k + 1)
    rw [take_of_length_le hle, range_succ, map_append, flatten_append,
      map_singleton, flatten_singleton] at hall
    exact hall

theorem Numbered.length (h : Numbered unit data frags) :
    frags.length = (fragCount data.length unit).toNat := by
  obtain ⟨part, -, rfl, -⟩ := h
  simp

theorem Numbered.sorted (h : Numbered unit data frags)
    (hfits : frags.length ≤ 256) : frags.Pairwise fun a b => byteAt a 0 < byteAt b 0 := by
  rw [h.length] at hfits
  obtain ⟨part, -, rfl, -⟩ := h
  rw [pairwise_map]
  refine pairwise_lt_range.imp_of_mem fun {i j} hi hj hij => ?_
  rw [mem_range] at hi hj
  change UInt8.ofNat i < UInt8.ofNat j
  rw [UInt8.lt_iff_toNat_lt, UInt8.toNat_ofNat', UInt8.toNat_ofNat']
  omega

variable {frag : Bytes}

theorem Numbered.two_le_length (h : Numbered unit data frags)
    (hf : frag ∈ frags) : ∃ number b rest, frag = number :: b :: rest := by
  obtain ⟨part, hp, rfl, -⟩ := h
  obtain ⟨i, hi, rfl⟩ := mem_map.mp hf
  obtain ⟨b, rest, hb⟩ := exists_cons_of_ne_nil (hp i (mem_range.mp hi))
  exact ⟨_, b, rest, by rw [hb]⟩

theorem Numbered.head (h : Numbered unit data frags) (hu : 2 ≤ unit) (hdata : data ≠ []) :
    ∃ rest others tail, frags = (0 :: UInt8.ofNat frags.length :: rest) :: others ∧
      rest ++ others.flatMap (·.drop 1) = data ++ tail := by
  obtain ⟨k, hk, -, -⟩ := body_bounds hu hdata
  have hl := h.length
  obtain ⟨part, hp, rfl, hf⟩ := h
  obtain ⟨tail, ht⟩ := hf hdata
  rw [hk] at hp ht hl ⊢
  obtain ⟨b, rest, hb⟩ := exists_cons_of_ne_nil (hp 0 (Nat.succ_pos k))
  rw [range_succ_eq_map] at ht ⊢
  rw [map_cons, flatten_cons, hb, body, cons_append, cons_append] at ht
  obtain ⟨rfl, hrest⟩ := cons.inj ht
  rw [hk] at hb
  refine ⟨rest, ((range k).map Nat.succ).map fun i => UInt8.ofNat i :: part i, tail, ?_,
    Eq.trans ?_ hrest⟩
  · rw [map_cons, hb, length_cons, length_map, length_map, length_range]
    rfl
  · simp [flatMap, Function.comp_def]

theorem joinLoop_eq (hne : ∀ frag ∈ frags, frag ≠ [])
    (hc : (pv :: frags.map (byteAt · 0)).IsChain (· ≠ ·)) :
    joinLoop pv decoded frags = .ok (decoded ++ frags.flatMap (·.drop 1)) := by
  induction frags generalizing pv decoded with
  | nil => simp [joinLoop]
  | cons frag frags ih =>
    obtain ⟨hf, hfr⟩ := forall_mem_cons.mp hne
    obtain ⟨n, rest, rfl⟩ := exists_cons_of_ne_nil hf
    rw [map_cons, isChain_cons_cons] at hc
    obtain ⟨hn, hc⟩ := hc
    rw [show byteAt (n :: rest) 0 = n from rfl] at hn hc
    rw [joinLoop, Checked.index_of_some rfl, ok_bind, if_neg hn.symm,
      Checked.slice_of_le (by simp) le_rfl, ok_bind, take_length, ih hfr hc]
    simp

theorem join_eq (hne : ∀ frag ∈ others, frag ≠ [])
    (hsorted : ((num :: b :: rest) :: others).Pairwise fun x y => byteAt x 0 < byteAt y 0) :
    join ((num :: b :: rest) :: others) = .ok (if b.toNat > others.length + 1 then []
      else rest ++ others.flatMap (·.drop 1)) := by
  have hc : (num :: others.map (byteAt · 0)).IsChain (· ≠ ·) :=
    (pairwise_map.mpr (hsorted.imp fun h => UInt8.ne_of_lt h)).isChain
  rw [join, if_neg (by simp), Checked.index_of_some rfl, ok_bind]
  split
  · rfl
  · rw [Checked.slice_of_le (by simp) le_rfl, ok_bind, Checked.index_of_some rfl, ok_bind,
      joinLoop_eq hne hc, take_length]
    rfl

theorem sortFrags_eq (hp : found.Perm frags)
    (hsorted : frags.Pairwise fun x y => byteAt x 0 < byteAt y 0) : sortFrags found = frags := by
  have hn : (frags.map (byteAt · 0)).Nodup :=
    pairwise_map.mpr (hsorted.imp fun h => UInt8.ne_of_lt h)
  have hs : (sortFrags found).Perm frags := (mergeSort_perm found _).trans hp
  have hle : (sortFrags found).Pairwise fun x y => decide (byteAt x 0 ≤ byteAt y 0) = true := by
    refine pairwise_mergeSort (fun x y z hxy hyz => ?_) (fun x y => ?_) found
    · exact decide_eq_true (UInt8.le_trans (of_decide_eq_true hxy) (of_decide_eq_true hyz))
    · simpa using UInt8.le_total (byteAt x 0) (byteAt y 0)
  refine List.Perm.eq_of_pairwise (fun x y hx hy hxy hyx => ?_) (hle.imp of_decide_eq_true)
    (hsorted.imp UInt8.le_of_lt) hs
  exact inj_on_of_nodup_map hn (hs.mem_iff.mp hx) hy (UInt8.le_antisymm hxy hyx)

variable {d : Domain}

def found (d : Domain) (qtype : UInt16) (rr : RR) : Option Bytes :=
  if !d.under rr.name || rr.rtype ≠ qtype then none
  else if qtype = TYPE_A then if rr.data.length = 4 then some rr.data else none
  else if qtype = TYPE_AAAA then if rr.data.length = 16 then some rr.data else none
  else if qtype = TYPE_CNAME then
    match nameFromWire rr.data with
    | .error _ => none
    | .ok name => if d.payload name = [] then none else some (d.payload name)
  else none

@[simp] theorem fragOf_eq (d : Domain) (qtype : UInt16) (rr : RR) :
    fragOf d qtype rr = .ok (found d qtype rr) := by
  unfold fragOf found
  simp only [Domain.isDomain_eq, ok_bind, Domain.decode_eq]
  split
  · rfl
  split
  · rfl
  split
  · rfl
  split
  · cases nameFromWire rr.data <;> rfl
  · rfl

theorem filterMapM_fragOf (d : Domain) (qtype : UInt16) (rrs : List RR) :
    rrs.filterMapM (fragOf d qtype) = .ok (rrs.filterMap (found d qtype)) := by
  induction rrs with
  | nil => rfl
  | cons rr rrs ih =>
    rw [filterMapM_cons, fragOf_eq, ok_bind, filterMap_cons]
    cases found d qtype rr with
    | none => exact ih
    | some frag => simp only [ih, ok_bind]; rfl

theorem nameFromWireLoop_labelBytes (hl : ∀ label ∈ ls, label ≠ [] ∧ label.length ≤ 63) :
    nameFromWireLoop front (labelBytes ls) =
      (Name.new (front ++ ls)).mapError WireNameError.name := by
  induction ls generalizing front with
  | nil =>
    rw [labelBytes, nameFromWireLoop, append_nil]
    rfl
  | cons label ls ih =>
    obtain ⟨⟨hne, hle⟩, hl⟩ := forall_mem_cons.mp hl
    have hpo := length_pos_of_ne_nil hne
    have hln : (UInt8.ofNat label.length).toNat = label.length := by
      rw [UInt8.toNat_ofNat']
      omega
    have hz : UInt8.ofNat label.length ≠ 0 := by
      intro heq
      rw [heq] at hln
      exact absurd hln.symm hpo.ne'
    have hp : ¬ UInt8.ofNat label.length &&& 0xc0 ≠ 0 := by
      have hall : ∀ n < 64, UInt8.ofNat n &&& 0xc0 = 0 := by decide
      exact not_not.mpr (hall _ (by omega))
    rw [labelBytes, cons_append, nameFromWireLoop, if_neg hz, if_neg hp, hln,
      if_neg (by simp), take_left, drop_left, ih hl, append_assoc]
    rfl

theorem nameFromWire_labelBytes (name : Name) :
    nameFromWire (labelBytes name.labels) = .ok name := by
  rw [nameFromWire, nameFromWireLoop_labelBytes name.valid.1, nil_append, Name.new_labels]
  rfl

/-- Answers of at most `single` bytes each, out of which the client gets the fragments. -/
structure Carried (d : Domain) (q : Question) (data : Bytes) (unit single : Nat)
    (rds frags : List Bytes) : Prop where
  ok : rdatas d q.qtype data = .ok rds
  found : rds.map (fun rdata => found d q.qtype (answer q rdata)) = frags.map some
  numbered : Numbered unit data frags
  unit_ge : 2 ≤ unit
  single_pos : 0 < single
  size : ∀ rdata ∈ rds, 12 + rdata.length ≤ single
  capacity : ∀ left, capacity d q.qtype left = recordCapacity left single unit
  plain : ∀ rdata ∈ rds, (answer q rdata).PlainCname

variable {q : Question}

theorem found_answer (hunder : d.under q.name = true) (rdata : Bytes) :
    found d q.qtype (answer q rdata) =
      if q.qtype = TYPE_A then if rdata.length = 4 then some rdata else none
      else if q.qtype = TYPE_AAAA then if rdata.length = 16 then some rdata else none
      else if q.qtype = TYPE_CNAME then
        match nameFromWire rdata with
        | .error _ => none
        | .ok name => if d.payload name = [] then none else some (d.payload name)
      else none := by
  rw [found, if_neg (by simp [answer, hunder])]
  rfl

theorem length_fragment (hu : 2 ≤ unit) (h : frag ∈ fragments unit data) : frag.length ≤ unit := by
  rw [fragments_eq hu] at h
  obtain ⟨i, -, rfl⟩ := mem_map.mp h
  have := length_take_le (unit - 1) ((body unit data).drop (i * (unit - 1)))
  rw [fragAt, length_cons, piece]
  omega

theorem length_zeroPad (hu : 2 ≤ unit)
    (h : rdata ∈ (fragments unit data).map (zeroPad unit)) : rdata.length = unit := by
  obtain ⟨frag, hf, rfl⟩ := mem_map.mp h
  have := length_fragment hu hf
  rw [zeroPad, length_append, length_replicate]
  omega

theorem carried_a (hq : q.qtype = TYPE_A) (hunder : d.under q.name = true) (data : Bytes) :
    Carried d q data 4 16 ((fragments 4 data).map (zeroPad 4))
      ((fragments 4 data).map (zeroPad 4)) := by
  refine ⟨by simp [rdatas, if_pos hq], map_congr_left fun r hr => ?_,
    numbered_zeroPad (by decide) data, by decide, by decide, fun r hr => ?_, fun left => ?_,
    fun _ _ hc => absurd (hq.symm.trans hc) (by decide)⟩
  · rw [found_answer hunder, if_pos hq, if_pos (length_zeroPad (by decide) hr)]
  · rw [length_zeroPad (by decide) hr]
  · rw [Resp.capacity, if_pos hq]
    rfl

theorem carried_aaaa (hq : q.qtype = TYPE_AAAA) (hunder : d.under q.name = true) (data : Bytes) :
    Carried d q data 16 28 ((fragments 16 data).map (zeroPad 16))
      ((fragments 16 data).map (zeroPad 16)) := by
  have ha : ¬ q.qtype = TYPE_A := by rw [hq]; decide
  refine ⟨by simp [rdatas, if_neg ha, if_pos hq], map_congr_left fun r hr => ?_,
    numbered_zeroPad (by decide) data, by decide, by decide, fun r hr => ?_, fun left => ?_,
    fun _ _ hc => absurd (hq.symm.trans hc) (by decide)⟩
  · rw [found_answer hunder, if_neg ha, if_pos hq, if_pos (length_zeroPad (by decide) hr)]
  · rw [length_zeroPad (by decide) hr]
  · rw [Resp.capacity, if_neg ha, hq]
    rfl

theorem encode_fragment (hd : d.Sound) (hf : frag ∈ fragments d.cap data) :
    ∃ name, d.encode frag = .ok name ∧ d.payload name = frag ∧ frag ≠ [] ∧
      wireLen name.labels ≤ d.lenMax := by
  have hcap := hd.cap_ge
  obtain ⟨name, hn, hl, hle⟩ := hd.encode_ok (length_fragment (by omega) hf)
  have hne : frag ≠ [] := by
    obtain ⟨n, b, rest, rfl⟩ := (numbered_fragments (by omega) data).two_le_length hf
    simp
  exact ⟨name, hn, (Domain.payload_of_encode hd hne hl).2, hne, by omega⟩

theorem mapM_encode (hd : d.Sound) (hf : ∀ frag ∈ frags, frag ∈ fragments d.cap data) :
    ∃ names : List Name, (frags.mapM fun part => do
        let name ← d.encode part
        .ok (labelBytes name.labels)) = .ok (names.map fun name => labelBytes name.labels) ∧
      names.map d.payload = frags ∧ (∀ name ∈ names, d.payload name ≠ []) ∧
      ∀ name ∈ names, wireLen name.labels ≤ d.lenMax := by
  induction frags with
  | nil => exact ⟨[], rfl, rfl, by simp, by simp⟩
  | cons frag frags ih =>
    obtain ⟨hfr, hf⟩ := forall_mem_cons.mp hf
    obtain ⟨name, hn, hp, hne, hle⟩ := encode_fragment hd hfr
    obtain ⟨names, hna, hpa, hns, hl⟩ := ih hf
    refine ⟨name :: names, ?_, by rw [map_cons, hp, hpa],
      forall_mem_cons.mpr ⟨by rwa [hp], hns⟩, forall_mem_cons.mpr ⟨hle, hl⟩⟩
    rw [mapM_cons, hn, ok_bind, ok_bind, hna]
    rfl

theorem carried_cname (hq : q.qtype = TYPE_CNAME) (hunder : d.under q.name = true) (hd : d.Sound)
    (data : Bytes) : ∃ names : List Name, Carried d q data d.cap (12 + d.lenMax)
      (names.map fun name => labelBytes name.labels) (fragments d.cap data) := by
  have ha : ¬ q.qtype = TYPE_A := by rw [hq]; decide
  have haa : ¬ q.qtype = TYPE_AAAA := by rw [hq]; decide
  have hcap := hd.cap_ge
  obtain ⟨names, hna, hp, hne, hl⟩ := mapM_encode hd fun _ h => h
  refine ⟨names, by simp only [rdatas, if_neg ha, if_neg haa, if_pos hq]; exact hna, ?_,
    numbered_fragments (by omega) data, by omega, by omega, fun r hr => ?_, fun left => ?_,
    fun r hr _ => ?_⟩
  · rw [← hp, map_map, map_map]
    refine map_congr_left fun name hn => ?_
    simp [found_answer hunder, if_neg ha, if_neg haa, if_pos hq, nameFromWire_labelBytes, if_neg (hne name hn)]
  · obtain ⟨name, hn, rfl⟩ := mem_map.mp hr
    rw [length_labelBytes]
    have := hl name hn
    omega
  · rw [Resp.capacity, if_neg ha, if_pos hq]
    rfl
  · obtain ⟨name, -, rfl⟩ := mem_map.mp hr
    exact ⟨name, rfl⟩

variable {single : Nat} {rds frags : List Bytes} {left : Int}

section

variable (h : Carried d q data unit single rds frags)

include h

theorem Carried.length : rds.length = (fragCount data.length unit).toNat := by
  have := congrArg List.length h.found
  rw [length_map, length_map, h.numbered.length] at this
  exact this

theorem Carried.filterMap : (rds.map (answer q)).filterMap (Resp.found d q.qtype) = frags := by
  have hid : (rds.map fun r => Resp.found d q.qtype (answer q r)).filterMap id =
      (frags.map some).filterMap id := by rw [h.found]
  rw [filterMap_map, filterMap_map] at hid
  rw [filterMap_map]
  exact hid.trans filterMap_some

theorem Carried.isSome (hrr : rr ∈ rds.map (answer q)) : (Resp.found d q.qtype rr).isSome := by
  obtain ⟨r, hr, rfl⟩ := mem_map.mp hrr
  have hm := mem_map_of_mem (f := fun r => Resp.found d q.qtype (answer q r)) hr
  rw [h.found] at hm
  obtain ⟨frag, -, hf⟩ := mem_map.mp hm
  rw [← hf]
  rfl

end

theorem fragCount_le (hu : 2 ≤ unit) (hl : 0 ≤ left)
    (hdata : (data.length : Int) ≤ recordCapacity left single unit) :
    (fragCount data.length unit).toNat ≤ 255 ∧
      ((fragCount data.length unit).toNat * single : Nat) ≤ left := by
  lift left to Nat using hl
  obtain ⟨u, rfl⟩ : ∃ u, unit = u + 2 := ⟨unit - 2, by omega⟩
  have hc : (fragCount data.length (u + 2)).toNat ≤ min (left / single) 255 := by
    rcases eq_zero_or_pos data.length with hz | hp
    · rw [hz, fragCount_zero _ (by omega)]
      exact Nat.zero_le _
    rw [fragCount_pos (by omega) hp]
    refine (Nat.div_lt_iff_lt_mul (by omega)).mpr ?_
    have hcap : recordCapacity left single ((u + 2 : Nat) : Int) =
        ((min (left / single) 255 * (u + 1) : Nat) : Int) - 1 := by
      rw [recordCapacity, ← Int.ofNat_tdiv]
      push_cast
      ring
    rw [Nat.add_succ_sub_one]
    omega
  refine ⟨hc.trans (min_le_right _ _), ?_⟩
  have hm := Nat.mul_le_mul_right single (hc.trans (min_le_left _ _))
  exact Int.ofNat_le.mpr (hm.trans (Nat.div_mul_le_self left single))

theorem Carried.fits (h : Carried d q data unit single rds frags) (hl : 0 ≤ left)
    (hdata : (data.length : Int) ≤ Resp.capacity d q.qtype left) :
    rds.length ≤ 255 ∧ (recordsLength 2 (rds.map (answer q)) : Int) ≤ left := by
  rw [h.capacity] at hdata
  obtain ⟨hc, hroom⟩ := fragCount_le h.unit_ge hl hdata
  rw [← h.length] at hc hroom
  refine ⟨hc, le_trans (Int.ofNat_le.mpr ?_) hroom⟩
  rw [recordsLength, map_map]
  refine (sum_le_card_nsmul _ single fun x hx => ?_).trans_eq ?_
  · obtain ⟨r, hr, rfl⟩ := mem_map.mp hx
    exact h.size r hr
  · rw [length_map]
    rfl

theorem txtLoop_flatMap {strings : List Bytes} (h : ∀ s ∈ strings, s.length ≤ 255) :
    txtLoop (strings.flatMap fun s => UInt8.ofNat s.length :: s) = strings.flatten := by
  induction strings with
  | nil => rw [flatMap_nil, txtLoop, flatten_nil]
  | cons s strings ih =>
    obtain ⟨hs, hst⟩ := forall_mem_cons.mp h
    have hl : (UInt8.ofNat s.length).toNat = s.length := by
      rw [UInt8.toNat_ofNat']
      omega
    rw [flatMap_cons, cons_append, txtLoop, hl, if_neg (by simp), take_left,
      drop_left, ih hst, flatten_cons]

theorem txtLoop_txtData (data : Bytes) : txtLoop (txtData data) = data := by
  rw [txtData, txtLoop_flatMap fun s hs => (mem_chunks hs).2, flatten_chunks (by decide)]

theorem length_strings (strings : List Bytes) :
    (strings.flatMap fun s => UInt8.ofNat s.length :: s).length =
      strings.flatten.length + strings.length := by
  induction strings with
  | nil => rfl
  | cons s strings ih =>
    simp
    omega

theorem length_txtData (data : Bytes) :
    (txtData data).length = data.length + (data.length + 254) / 255 := by
  rw [txtData, length_strings, flatten_chunks (by decide), length_chunks (by decide)]
  rfl

theorem txtData_fits (hl : 12 ≤ left) (hdata : (data.length : Int) ≤ txtCapacity (left - 12)) :
    ((12 + (txtData data).length : Nat) : Int) ≤ left := by
  lift left to Nat using by omega
  have hc : ((left : Int) - 12) = ((left - 12 : Nat) : Int) := by omega
  have hm : ((left - 12 : Nat) : Int).tmod 255 = ((left - 12) % 255 : Nat) := rfl
  have hd : ((left - 12 : Nat) : Int).tdiv 255 = ((left - 12) / 255 : Nat) := rfl
  rw [hc, txtCapacity, hm, hd] at hdata
  rw [length_txtData]
  split at hdata <;> omega

end XrayCore.Xdns.Resp
