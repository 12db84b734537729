import XrayCore.Lib.Ranges
import XrayCore.Net.Address
import Mathlib.Data.List.Sort

/-!
# IP sets

`IPSet` of the geodata matchers: the networks of a list of CIDR entries, kept per
address family as ascending ranges, next to the longest prefix among them. Two
values of that number are markers: no entries, and an entry that covers the whole
family. An address family is a width, 32 or 128 bits.
-/

namespace XrayCore.Geodata

open Lib Net List

variable {w : Nat}

instance linearOrderBitVec : LinearOrder (BitVec w) where
  le_refl := BitVec.le_refl
  le_trans _ _ _ := BitVec.le_trans
  le_antisymm _ _ := BitVec.le_antisymm
  le_total := BitVec.le_total
  lt_iff_le_not_ge x y := by
    simp only [BitVec.lt_def, BitVec.le_def]
    omega
  toDecidableLE := inferInstance

def fromBeBytes (w : Nat) (octets : Bytes) : BitVec w := BitVec.ofNat w (beNat octets)

/-- `Ipv4Cidr` and `Ipv6Cidr`: an address and a prefix clamped to its width. -/
structure IpCidr (w : Nat) where
  addr : BitVec w
  prefixLen : Nat
  prefixLen_le : prefixLen ≤ w

def IpCidr.new (octets : Bytes) (prefixLen : Nat) : IpCidr w :=
  ⟨fromBeBytes w octets, min prefixLen w, Nat.min_le_right prefixLen w⟩

def IpCidr.range (net : IpCidr w) : BitVec w × BitVec w :=
  if net.prefixLen = 0 then (0, BitVec.allOnes w)
  else
    let mask := if net.prefixLen ≥ w then BitVec.allOnes w
      else BitVec.allOnes w <<< (w - net.prefixLen)
    let base := net.addr &&& mask
    (base, base ||| ~~~mask)

def IpCidr.Has (net : IpCidr w) (v : BitVec w) : Prop :=
  ∀ i < net.prefixLen, v.getMsbD i = net.addr.getMsbD i

structure Cidr where
  ip : Bytes
  prefixLen : UInt32
  deriving DecidableEq

def noEntries : Nat := 0xff

def matchAll : Nat := 0xfe

def RangeLe {α : Type _} [LinearOrder α] (r r' : α × α) : Prop :=
  r.1 < r'.1 ∨ r.1 = r'.1 ∧ r.2 ≤ r'.2

instance {α : Type _} [LinearOrder α] : DecidableRel (RangeLe (α := α)) := fun r r' =>
  inferInstanceAs (Decidable (r.1 < r'.1 ∨ r.1 = r'.1 ∧ r.2 ≤ r'.2))

def mergeStep {α : Type _} [LinearOrder α] (merged : List (α × α)) (r : α × α) : List (α × α) :=
  match merged.getLast? with
  | some last =>
    if r.1 ≤ last.2 then
      if r.2 > last.2 then merged.dropLast ++ [(last.1, r.2)] else merged
    else merged ++ [r]
  | none => merged ++ [r]

def mergeSortedRanges {α : Type _} [LinearOrder α] (ranges : List (α × α)) : List (α × α) :=
  (ranges.insertionSort RangeLe).foldl mergeStep []

structure IPSet where
  ipv4Ranges : List (BitVec 32 × BitVec 32)
  ipv6Ranges : List (BitVec 128 × BitVec 128)
  max4 : Nat
  max6 : Nat

namespace IPSet

def new : IPSet := ⟨[], [], noEntries, noEntries⟩

def nextMax (longest prefixLen : Nat) : Nat :=
  if prefixLen = 0 then matchAll
  else if longest ≠ matchAll ∧ (prefixLen > longest ∨ longest = noEntries) then prefixLen
  else longest

/-- One turn of the loop of `from_cidrs`; entries of another length are passed over. -/
def addCidr (set : IPSet) (cidr : Cidr) : IPSet :=
  if cidr.ip.length = 4 then
    let net : IpCidr 32 := .new cidr.ip cidr.prefixLen.toNat
    { set with
      max4 := nextMax set.max4 net.prefixLen
      ipv4Ranges := set.ipv4Ranges ++ [net.range] }
  else if cidr.ip.length = 16 then
    let net : IpCidr 128 := .new cidr.ip cidr.prefixLen.toNat
    { set with
      max6 := nextMax set.max6 net.prefixLen
      ipv6Ranges := set.ipv6Ranges ++ [net.range] }
  else set

def fromCidrs (cidrs : List Cidr) : IPSet :=
  let set := cidrs.foldl addCidr new
  { set with
    ipv4Ranges := mergeSortedRanges set.ipv4Ranges
    ipv6Ranges := mergeSortedRanges set.ipv6Ranges }

def familyContains (ranges : List (BitVec w × BitVec w)) (longest : Nat) (v : BitVec w) : Bool :=
  if longest = noEntries then false
  else if longest = matchAll then true
  else rangesContain ranges v

def containsV4 (set : IPSet) (ip : Ipv4Addr) : Bool :=
  familyContains set.ipv4Ranges set.max4 (fromBeBytes 32 ip.octets)

def containsV6 (set : IPSet) (ip : Ipv6Addr) : Bool :=
  familyContains set.ipv6Ranges set.max6 (fromBeBytes 128 ip.octets)

def contains (set : IPSet) : IpAddr → Bool
  | .v4 ip => set.containsV4 ip
  | .v6 ip => set.containsV6 ip

end IPSet

theorem mask_eq_shiftLeft (p : Nat) :
    (if p ≥ w then BitVec.allOnes w else BitVec.allOnes w <<< (w - p)) =
      BitVec.allOnes w <<< (w - p) := by
  split
  case isTrue h => simp [Nat.sub_eq_zero_of_le h]
  case isFalse => rfl

theorem toNat_and_mask (a : BitVec w) (k : Nat) :
    (a &&& BitVec.allOnes w <<< k).toNat = a.toNat / 2 ^ k * 2 ^ k := by
  have hs : a &&& BitVec.allOnes w <<< k = (a >>> k) <<< k := by
    apply BitVec.eq_of_getLsbD_eq
    intro i hi
    by_cases hk : i < k
    · simp [hk]
    · simp [hk, hi, show k + (i - k) = i by omega]
  have hle : a.toNat / 2 ^ k * 2 ^ k < 2 ^ w := (Nat.div_mul_le_self _ _).trans_lt a.isLt
  rw [hs, BitVec.toNat_shiftLeft, BitVec.toNat_ushiftRight, Nat.shiftRight_eq_div_pow,
    Nat.shiftLeft_eq, Nat.mod_eq_of_lt hle]

theorem toNat_or_not_mask (a : BitVec w) (hk : k ≤ w) :
    ((a &&& BitVec.allOnes w <<< k) ||| ~~~(BitVec.allOnes w <<< k)).toNat =
      a.toNat / 2 ^ k * 2 ^ k + (2 ^ k - 1) := by
  have hl : (~~~(BitVec.allOnes w <<< k)).toNat = 2 ^ k - 1 := by
    have : ~~~(BitVec.allOnes w <<< k) = BitVec.ofNat w (2 ^ k - 1) := by
      apply BitVec.eq_of_getLsbD_eq
      intro i hi
      rw [BitVec.getLsbD_ofNat, Nat.testBit_two_pow_sub_one]
      by_cases hk : i < k
      · simp [hk]
      · simp [hk, show i - k < w by omega]
    have hp : 2 ^ k ≤ 2 ^ w := Nat.pow_le_pow_right (by decide) hk
    have hpo : 0 < 2 ^ k := Nat.two_pow_pos k
    rw [this, BitVec.toNat_ofNat, Nat.mod_eq_of_lt (by omega)]
  rw [BitVec.toNat_or, toNat_and_mask, hl, ← Nat.shiftLeft_eq,
    Nat.shiftLeft_add_eq_or_of_lt (Nat.sub_lt (Nat.two_pow_pos k) (by decide))]

theorem IpCidr.has_iff_div (net : IpCidr w) (v : BitVec w) :
    net.Has v ↔ v.toNat / 2 ^ (w - net.prefixLen) = net.addr.toNat / 2 ^ (w - net.prefixLen) := by
  have hp := net.prefixLen_le
  have hd : v.toNat / 2 ^ (w - net.prefixLen) = net.addr.toNat / 2 ^ (w - net.prefixLen) ↔
      v >>> (w - net.prefixLen) = net.addr >>> (w - net.prefixLen) := by
    rw [← BitVec.toNat_inj]
    simp [Nat.shiftRight_eq_div_pow]
  rw [hd]
  constructor
  · intro h
    ext j hj
    by_cases hl : w - net.prefixLen + j < w
    · -- bit `j` of the shifted address is leading bit `p - 1 - j`
      have hb := h (net.prefixLen - 1 - j) (by omega)
      simp only [BitVec.getMsbD_eq_getLsbD, show w - 1 - (net.prefixLen - 1 - j) =
        w - net.prefixLen + j by omega] at hb
      simpa [show net.prefixLen - 1 - j < w by omega] using hb
    · simp [BitVec.getLsbD_of_ge _ _ (not_lt.mp hl)]
  · intro h i hi
    have hb := congrArg (fun x => x.getLsbD (net.prefixLen - 1 - i)) h
    simp only [BitVec.getLsbD_ushiftRight, show w - net.prefixLen + (net.prefixLen - 1 - i) =
      w - 1 - i by omega] at hb
    simp [BitVec.getMsbD_eq_getLsbD, hb]

theorem IpCidr.inRange_range_iff (net : IpCidr w) (v : BitVec w) :
    InRange net.range v ↔ net.Has v := by
  unfold IpCidr.range
  split
  case isTrue hz =>
    simp [InRange, IpCidr.Has, hz, BitVec.le_def]
    exact Nat.le_sub_one_of_lt v.isLt
  case isFalse =>
    have hp := Nat.two_pow_pos (w - net.prefixLen)
    rw [net.has_iff_div]
    simp only [InRange, mask_eq_shiftLeft, BitVec.le_def, toNat_and_mask,
      toNat_or_not_mask _ (Nat.sub_le w net.prefixLen)]
    rw [Nat.div_eq_iff hp, Nat.add_sub_assoc hp]

theorem IpCidr.range_nonempty (net : IpCidr w) : net.range.1 ≤ net.range.2 := by
  obtain ⟨hs, hstop⟩ := (net.inRange_range_iff net.addr).mpr fun _ _ => rfl
  exact hs.trans hstop

section Merge

variable {α : Type _} [LinearOrder α] {merged init ranges : List (α × α)} {last r : α × α} {v : α}

instance : Std.Total (RangeLe (α := α)) where
  total r r' := by
    rcases lt_trichotomy r.1 r'.1 with h | h | h
    · exact .inl (.inl h)
    · rcases le_total r.2 r'.2 with h' | h'
      · exact .inl (.inr ⟨h, h'⟩)
      · exact .inr (.inr ⟨h.symm, h'⟩)
    · exact .inr (.inl h)

instance : IsTrans (α × α) RangeLe where
  trans := by
    rintro a b c (hab | ⟨hab, hab'⟩) (hbc | ⟨hbc, hbc'⟩)
    · exact .inl (hab.trans hbc)
    · exact .inl (hbc ▸ hab)
    · exact .inl (hab ▸ hbc)
    · exact .inr ⟨hab.trans hbc, hab'.trans hbc'⟩

theorem RangeLe.start_le (h : RangeLe r r') : r.1 ≤ r'.1 := by
  rcases h with h | ⟨h, -⟩ <;> exact h.le

@[simp] theorem mergeStep_nil (r : α × α) : mergeStep [] r = [r] := rfl

theorem mergeStep_concat (init : List (α × α)) (last r : α × α) : mergeStep (init ++ [last]) r =
      if r.1 ≤ last.2 then init ++ [(last.1, max last.2 r.2)] else init ++ [last] ++ [r] := by
  simp only [mergeStep, getLast?_concat, dropLast_concat]
  split
  · split
    case isTrue h => rw [max_eq_right h.le]
    case isFalse h => rw [max_eq_left (not_lt.mp h)]
  · rfl

theorem ascending_concat : Ascending (init ++ [last]) ↔
    Ascending init ∧ (∀ m ∈ init, m.2 < last.1) ∧ last.1 ≤ last.2 := by
  constructor
  · rintro ⟨ha, hn⟩
    obtain ⟨hi, -, hl⟩ := pairwise_append.mp ha
    refine ⟨⟨hi, fun m hm => hn m (by simp [hm])⟩, fun m hm => hl m hm last ?_, ?_⟩
    · simp
    · exact hn last (by simp)
  · rintro ⟨⟨ha, hn⟩, hl, hle⟩
    refine ⟨pairwise_append.mpr ⟨ha, pairwise_singleton _ _, ?_⟩, ?_⟩
    · simpa using hl
    simp only [mem_append, mem_singleton]
    rintro m (hm | rfl)
    · exact hn m hm
    · exact hle

theorem ascending_mergeStep (h : Ascending merged) (hs : ∀ m ∈ merged, m.1 ≤ r.1)
    (hr : r.1 ≤ r.2) : Ascending (mergeStep merged r) := by
  rcases eq_nil_or_concat' merged with rfl | ⟨init, last, rfl⟩
  · exact ⟨pairwise_singleton _ _, by simpa using hr⟩
  obtain ⟨hi, hl, hle⟩ := ascending_concat.mp h
  rw [mergeStep_concat]
  split
  · exact ascending_concat.mpr ⟨hi, hl, hle.trans (le_max_left _ _)⟩
  case isFalse hg =>
    refine ascending_concat.mpr ⟨h, ?_, hr⟩
    simp only [mem_append, mem_singleton]
    rintro m (hm | rfl)
    · exact (hl m hm).trans_le (hs last (by simp))
    · exact not_le.mp hg

theorem covers_mergeStep (hs : ∀ m ∈ merged, m.1 ≤ r.1) :
    Covers (mergeStep merged r) v ↔ Covers merged v ∨ InRange r v := by
  rcases eq_nil_or_concat' merged with rfl | ⟨init, last, rfl⟩
  · simp
  rw [mergeStep_concat]
  split
  case isTrue ho =>
    -- the last range starts no later and reaches the new one, so the two are one range
    have hle : last.1 ≤ r.1 := hs last (by simp)
    have hj : InRange (last.1, max last.2 r.2) v ↔ InRange last v ∨ InRange r v := by
      simp only [InRange, le_max_iff]
      constructor
      · rintro ⟨hv, hv' | hv'⟩
        · exact .inl ⟨hv, hv'⟩
        · rcases le_total v last.2 with hin | hin
          · exact .inl ⟨hv, hin⟩
          · exact .inr ⟨ho.trans hin, hv'⟩
      · rintro (⟨hv, hv'⟩ | ⟨hv, hv'⟩)
        · exact ⟨hv, .inl hv'⟩
        · exact ⟨hle.trans hv, .inr hv'⟩
    simp [hj, or_assoc]
  case isFalse => simp [or_assoc]

theorem start_le_of_mem_mergeStep (hs : ∀ m ∈ merged, m.1 ≤ r.1) :
    ∀ m ∈ mergeStep merged r, m.1 ≤ r.1 := by
  rcases eq_nil_or_concat' merged with rfl | ⟨init, last, rfl⟩
  · simp
  rw [mergeStep_concat]
  split
  · simp only [mem_append, mem_singleton]
    rintro m (hm | rfl)
    · exact hs m (by simp [hm])
    · exact hs last (by simp)
  · simp only [mem_append, mem_singleton]
    rintro m ((hm | rfl) | rfl)
    · exact hs m (by simp [hm])
    · exact hs m (by simp)
    · exact le_rfl

theorem foldl_mergeStep (hsorted : ranges.Pairwise RangeLe) (hra : ∀ r ∈ ranges, r.1 ≤ r.2)
    (h : Ascending merged) (hs : ∀ m ∈ merged, ∀ r ∈ ranges, m.1 ≤ r.1) :
    Ascending (ranges.foldl mergeStep merged) ∧
      ∀ v, Covers (ranges.foldl mergeStep merged) v ↔ Covers merged v ∨ Covers ranges v := by
  induction ranges generalizing merged with
  | nil => exact ⟨h, by simp⟩
  | cons r ranges ih =>
    obtain ⟨hh, ht⟩ := pairwise_cons.mp hsorted
    have hs' : ∀ m ∈ merged, m.1 ≤ r.1 := fun m hm => hs m hm r mem_cons_self
    have hr := hra r mem_cons_self
    obtain ⟨ha, hc⟩ := ih ht (forall_mem_cons.mp hra).2
      (ascending_mergeStep h hs' hr) fun m hm r' hr' =>
        (start_le_of_mem_mergeStep hs' m hm).trans (hh r' hr').start_le
    refine ⟨ha, fun v => ?_⟩
    rw [foldl_cons, hc, covers_mergeStep hs', covers_cons, or_assoc]

theorem mergeSortedRanges_spec (hra : ∀ r ∈ ranges, r.1 ≤ r.2) :
    Ascending (mergeSortedRanges ranges) ∧
      ∀ v, Covers (mergeSortedRanges ranges) v ↔ Covers ranges v := by
  have hp := perm_insertionSort RangeLe ranges
  have hn : Ascending ([] : List (α × α)) := ⟨List.Pairwise.nil, by simp⟩
  obtain ⟨ha, hc⟩ := foldl_mergeStep (pairwise_insertionSort RangeLe ranges)
    (fun r hr => hra r (hp.mem_iff.mp hr)) hn (by simp)
  refine ⟨ha, fun v => (hc v).trans ?_⟩
  simp [covers_congr hp]

end Merge

def networks (w octets : Nat) (cidrs : List Cidr) : List (IpCidr w) :=
  cidrs.filterMap fun cidr =>
    if cidr.ip.length = octets then some (.new cidr.ip cidr.prefixLen.toNat) else none

theorem mem_networks : net ∈ networks w octets cidrs ↔
    ∃ cidr ∈ cidrs, cidr.ip.length = octets ∧ .new cidr.ip cidr.prefixLen.toNat = net := by
  simp [networks]

namespace IPSet

def longest (nets : List (IpCidr w)) : Nat :=
  nets.foldl (fun top net => nextMax top net.prefixLen) noEntries

theorem foldl_addCidr (cidrs : List Cidr) : cidrs.foldl addCidr new =
      ⟨(networks 32 4 cidrs).map IpCidr.range, (networks 128 16 cidrs).map IpCidr.range,
        longest (networks 32 4 cidrs), longest (networks 128 16 cidrs)⟩ := by
  induction cidrs using reverseRec with
  | nil => rfl
  | append_singleton cidrs cidr ih =>
    rw [foldl_append, foldl_cons, foldl_nil, ih, addCidr]
    by_cases h4 : cidr.ip.length = 4
    · simp [networks, h4, longest]
    · by_cases h16 : cidr.ip.length = 16
      · simp [networks, h16, longest]
      · simp [networks, h4, h16]

inductive LongestOf (nets : List (IpCidr w)) : Nat → Prop
  | none : nets = [] → LongestOf nets noEntries
  | all : (∃ net ∈ nets, net.prefixLen = 0) → LongestOf nets matchAll
  | some {longest : Nat} : nets ≠ [] → longest ≤ w →
    (∀ net ∈ nets, 0 < net.prefixLen ∧ net.prefixLen ≤ longest) → LongestOf nets longest

theorem longestOf (hw : w < matchAll) (nets : List (IpCidr w)) : LongestOf nets (longest nets) := by
  induction nets using reverseRec with
  | nil => exact .none rfl
  | append_singleton nets net ih =>
    have hnt := net.prefixLen_le
    have hne : nets ++ [net] ≠ [] := by simp
    rw [longest, foldl_append, foldl_cons, foldl_nil, ← longest]
    by_cases hz : net.prefixLen = 0
    · rw [nextMax, if_pos hz]
      exact .all ⟨net, by simp, hz⟩
    rw [nextMax, if_neg hz]
    generalize longest nets = top at ih
    cases ih with
    | none hni =>
      subst hni
      rw [if_pos ⟨by decide, .inr rfl⟩]
      refine .some hne hnt ?_
      simp only [nil_append, mem_singleton]
      rintro o rfl
      exact ⟨pos_of_ne_zero hz, le_rfl⟩
    | all hall =>
      obtain ⟨o, hme, ho⟩ := hall
      exact .all ⟨o, by simp [hme], ho⟩
    | some _ ht hn =>
      have hm : top ≠ matchAll ∧ top ≠ noEntries := by
        simp only [matchAll, noEntries] at hw ⊢
        omega
      simp only [hm, ne_eq, not_false_eq_true, true_and, or_false]
      have hme : ∀ bound, top ≤ bound → net.prefixLen ≤ bound →
          ∀ o ∈ nets ++ [net], 0 < o.prefixLen ∧ o.prefixLen ≤ bound := by
        intro bound hle hle' o ho
        rcases mem_append.mp ho with hold | hnew
        · exact ⟨(hn o hold).1, (hn o hold).2.trans hle⟩
        · obtain rfl := mem_singleton.mp hnew
          exact ⟨pos_of_ne_zero hz, hle'⟩
      split
      case isTrue hlt => exact .some hne hnt (hme _ hlt.le le_rfl)
      case isFalse hge => exact .some hne ht (hme _ le_rfl (not_lt.mp hge))

theorem familyContains_iff (hw : w < matchAll) (nets : List (IpCidr w)) (v : BitVec w) :
    familyContains (mergeSortedRanges (nets.map IpCidr.range)) (longest nets) v = true ↔
      ∃ net ∈ nets, net.Has v := by
  have hl := longestOf hw nets
  generalize longest nets = top at hl
  cases hl with
  | none hn => simp [familyContains, hn]
  | all hall =>
    obtain ⟨net, hme, hz⟩ := hall
    have hh : net.Has v := fun i hi => by omega
    simp only [familyContains, show matchAll ≠ noEntries by decide, if_false, if_true, true_iff]
    exact ⟨net, hme, hh⟩
  | some _ ht _ =>
    have hm : top ≠ matchAll ∧ top ≠ noEntries := by
      simp only [matchAll, noEntries] at hw ⊢
      omega
    have hr : ∀ r ∈ nets.map IpCidr.range, r.1 ≤ r.2 := by
      simp only [mem_map]
      rintro - ⟨net, -, rfl⟩
      exact net.range_nonempty
    obtain ⟨ha, hc⟩ := mergeSortedRanges_spec hr
    rw [familyContains, if_neg hm.2, if_neg hm.1, rangesContain_iff ha, hc]
    simp [Covers, IpCidr.inRange_range_iff]

end IPSet

/-- The address belongs to the network of the entry: it is of the same family and
has its leading bits. -/
def Cidr.Has (cidr : Cidr) : IpAddr → Prop
  | .v4 ip => cidr.ip.length = 4 ∧
    IpCidr.Has (.new cidr.ip cidr.prefixLen.toNat) (fromBeBytes 32 ip.octets)
  | .v6 ip => cidr.ip.length = 16 ∧
    IpCidr.Has (.new cidr.ip cidr.prefixLen.toNat) (fromBeBytes 128 ip.octets)

theorem exists_networks_has {P : IpCidr w → Prop} : (∃ net ∈ networks w octets cidrs, P net) ↔
      ∃ cidr ∈ cidrs, cidr.ip.length = octets ∧ P (.new cidr.ip cidr.prefixLen.toNat) := by
  constructor
  · rintro ⟨net, hm, hn⟩
    obtain ⟨cidr, hc, hl, rfl⟩ := mem_networks.mp hm
    exact ⟨cidr, hc, hl, hn⟩
  · rintro ⟨cidr, hc, hl, hn⟩
    exact ⟨_, mem_networks.mpr ⟨cidr, hc, hl, rfl⟩, hn⟩

/-- A set contains exactly the addresses of the networks it was built from. -/
theorem IPSet.contains_fromCidrs_iff (cidrs : List Cidr) (ip : IpAddr) :
    (fromCidrs cidrs).contains ip = true ↔ ∃ cidr ∈ cidrs, cidr.Has ip := by
  have hset := foldl_addCidr cidrs
  cases ip with
  | v4 ip =>
    simp only [fromCidrs, hset, contains, containsV4]
    rw [familyContains_iff (by decide)]
    exact exists_networks_has
  | v6 ip =>
    simp only [fromCidrs, hset, contains, containsV6]
    rw [familyContains_iff (by decide)]
    exact exists_networks_has

end XrayCore.Geodata
