import XrayCore.Lib.Memo
import XrayCore.Geodata.IpSet

/-!
# IP matchers

The matchers that `build_optimized_ip_matcher` returns. One set answers batches with one remembered
answer per bucket, /24 or /64, as long as no prefix of the set is longer. Several sets match an
address when one of them does, but accept a batch only when each accepts all of it.
-/

namespace XrayCore.Geodata

open Lib Net List

def prefixKeyV4 (ip : Ipv4Addr) : Bytes := 4 :: ip.octets.take 3 ++ [0, 0, 0, 0, 0]

def prefixKeyV6 (ip : Ipv6Addr) : Bytes := 6 :: ip.octets.take 8

def prefixKey : IpAddr → Bytes
  | .v4 ip => prefixKeyV4 ip
  | .v6 ip => prefixKeyV6 ip

structure HeuristicIPMatcher where
  ipset : IPSet
  reverse : Bool

namespace HeuristicIPMatcher

def new (ipset : IPSet) : HeuristicIPMatcher := ⟨ipset, false⟩

def fromCidrs (cidrs : List Cidr) : HeuristicIPMatcher := new (IPSet.fromCidrs cidrs)

def matchAddr (m : HeuristicIPMatcher) : IpAddr → Bool
  | .v4 ip => if m.ipset.max4 = noEntries then false else m.ipset.containsV4 ip != m.reverse
  | .v6 ip => if m.ipset.max6 = noEntries then false else m.ipset.containsV6 ip != m.reverse

def heuristicV4 (m : HeuristicIPMatcher) : Bool := m.ipset.max4 ≤ 24

def heuristicV6 (m : HeuristicIPMatcher) : Bool := m.ipset.max6 ≤ 64

def matchIp (m : HeuristicIPMatcher) (ip : IpAddr) : Bool := m.matchAddr ip

/-- The key an address is remembered under; none when its family has prefixes
longer than the bucket's. -/
def bucket (m : HeuristicIPMatcher) (ip : IpAddr) : Option Bytes :=
  let useHeur := match ip with
    | .v4 _ => m.heuristicV4
    | .v6 _ => m.heuristicV6
  if useHeur then some (prefixKey ip) else none

abbrev Buckets := AList fun _ : Bytes => Bool

def anyMatchLoop (m : HeuristicIPMatcher) : Buckets → List IpAddr → Bool
  | _, [] => false
  | seen, ip :: ips =>
    match Memo.consult m.bucket m.matchIp seen ip with
    | (true, _) => true
    | (false, seen) => m.anyMatchLoop seen ips

def anyMatch (m : HeuristicIPMatcher) (ips : List IpAddr) : Bool :=
  match ips with
  | [] => false
  | [ip] => m.matchIp ip
  | ips =>
    if !m.heuristicV4 && !m.heuristicV6 then ips.any m.matchIp else m.anyMatchLoop ∅ ips

def matchesLoop (m : HeuristicIPMatcher) : Buckets → List IpAddr → Bool
  | _, [] => true
  | buckets, ip :: ips =>
    match Memo.consult m.bucket m.matchIp buckets ip with
    | (false, _) => false
    | (true, buckets) => m.matchesLoop buckets ips

def «matches» (m : HeuristicIPMatcher) (ips : List IpAddr) : Bool :=
  match ips with
  | [] => false
  | [ip] => m.matchIp ip
  | ips =>
    if !m.heuristicV4 && !m.heuristicV6 then ips.all m.matchIp else m.matchesLoop ∅ ips

def filterIpsLoop (m : HeuristicIPMatcher) : Buckets → List IpAddr → List IpAddr → List IpAddr
  | _, result, [] => result
  | buckets, result, ip :: ips =>
    match Memo.consult m.bucket m.matchIp buckets ip with
    | (true, buckets) => m.filterIpsLoop buckets (result ++ [ip]) ips
    | (false, buckets) => m.filterIpsLoop buckets result ips

def filterIps (m : HeuristicIPMatcher) (ips : List IpAddr) : List IpAddr :=
  match ips with
  | [] => []
  | [ip] => if m.matchIp ip then [ip] else []
  | ips =>
    if !m.heuristicV4 && !m.heuristicV6 then ips.filter m.matchIp else m.filterIpsLoop ∅ [] ips

end HeuristicIPMatcher

structure HeuristicMultiIPMatcher where
  matchers : List HeuristicIPMatcher

namespace HeuristicMultiIPMatcher

def matchIp (m : HeuristicMultiIPMatcher) (ip : IpAddr) : Bool := m.matchers.any (·.matchIp ip)

def anyMatch (m : HeuristicMultiIPMatcher) (ips : List IpAddr) : Bool :=
  m.matchers.any (·.anyMatch ips)

def «matches» (m : HeuristicMultiIPMatcher) (ips : List IpAddr) : Bool :=
  m.matchers.all (·.matches ips)

def filterIps (m : HeuristicMultiIPMatcher) (ips : List IpAddr) : List IpAddr :=
  ips.filter m.matchIp

end HeuristicMultiIPMatcher

structure CidrRule where
  cidr : Option Cidr
  reverseMatch : Bool

inductive IpRule
  | geoip
  | custom (rule : CidrRule)
  | none

inductive IPMatcher
  | heuristic (m : HeuristicIPMatcher)
  | multi (m : HeuristicMultiIPMatcher)

namespace IPMatcher

def matchIp : IPMatcher → IpAddr → Bool
  | .heuristic m => m.matchIp
  | .multi m => m.matchIp

def anyMatch : IPMatcher → List IpAddr → Bool
  | .heuristic m => m.anyMatch
  | .multi m => m.anyMatch

def «matches» : IPMatcher → List IpAddr → Bool
  | .heuristic m => m.matches
  | .multi m => m.matches

def filterIps : IPMatcher → List IpAddr → List IpAddr
  | .heuristic m => m.filterIps
  | .multi m => m.filterIps

end IPMatcher

inductive BuildIPMatcherError
  | emptyRules

def customCidrs (reverse : Bool) (rules : List IpRule) : List Cidr :=
  rules.filterMap fun
    | .custom rule => if rule.reverseMatch = reverse then rule.cidr else none
    | _ => none

def geoMatchers (rules : List IpRule) : List HeuristicIPMatcher :=
  rules.filterMap fun
    | .geoip => some (.fromCidrs [])
    | _ => none

/-- The sets of the rules: the entries to match, those not to match, and one for
each geoip rule. -/
def subMatchers (rules : List IpRule) : List HeuristicIPMatcher :=
  let posCustom := customCidrs false rules
  let negCustom := customCidrs true rules
  (if posCustom.isEmpty then [] else [.fromCidrs posCustom]) ++
    (if negCustom.isEmpty then [] else [{ HeuristicIPMatcher.fromCidrs negCustom with
      reverse := true }]) ++
    geoMatchers rules

def buildOptimizedIpMatcher (rules : List IpRule) : Except BuildIPMatcherError IPMatcher :=
  if rules.isEmpty then .error .emptyRules
  else
    match subMatchers rules with
    | [] => .error .emptyRules
    | [m] => .ok (.heuristic m)
    | subs => .ok (.multi ⟨subs⟩)

variable {w : Nat}

theorem toNat_fromBeBytes_div (hl : 8 * octets.length = w) (hk : k ≤ octets.length) :
    (fromBeBytes w octets).toNat / 2 ^ (w - 8 * k) = beNat (octets.take k) := by
  have hlt := beNat_lt octets
  have ha := beNat_append (octets.take k) (octets.drop k)
  have hd := beNat_lt (octets.drop k)
  rw [take_append_drop] at ha
  rw [show (256 : Nat) = 2 ^ 8 from rfl, ← pow_mul] at hlt ha hd
  rw [length_drop] at ha hd
  have hw : w - 8 * k = 8 * (octets.length - k) := by omega
  rw [fromBeBytes, BitVec.toNat_ofNat, ← hl, Nat.mod_eq_of_lt hlt, hl, hw, ha,
    mul_comm, Nat.mul_add_div (Nat.two_pow_pos _), Nat.div_eq_of_lt hd, add_zero]

theorem div_eq_of_take_eq (hx : 8 * x.length = w)
    (hy : 8 * y.length = w) (hk : 8 * k ≤ w) (ht : x.take k = y.take k) :
    (fromBeBytes w x).toNat / 2 ^ (w - 8 * k) = (fromBeBytes w y).toNat / 2 ^ (w - 8 * k) := by
  rw [toNat_fromBeBytes_div hx (by omega), toNat_fromBeBytes_div hy (by omega), ht]

variable {p : Nat}

theorem IpCidr.has_congr {net : IpCidr w} {v v' : BitVec w} (hp : net.prefixLen ≤ p)
    (hpw : p ≤ w) (h : v.toNat / 2 ^ (w - p) = v'.toNat / 2 ^ (w - p)) :
    net.Has v ↔ net.Has v' := by
  have hpo : 2 ^ (w - net.prefixLen) = 2 ^ (w - p) * 2 ^ (p - net.prefixLen) := by
    rw [← pow_add]
    congr 1
    omega
  rw [net.has_iff_div, net.has_iff_div, hpo, ← Nat.div_div_eq_div_mul, ← Nat.div_div_eq_div_mul,
    ← Nat.div_div_eq_div_mul, h]

theorem IPSet.LongestOf.prefixLen_le {longest : Nat} {nets : List (IpCidr w)}
    (h : IPSet.LongestOf nets longest) (hl : longest ≤ p) (hp : p < matchAll) :
    ∀ net ∈ nets, net.prefixLen ≤ p := by
  cases h with
  | none hni => simp [hni]
  | all => exact absurd hl (by omega)
  | some _ _ hn => exact fun net hm => (hn net hm).2.trans hl

theorem IPSet.familyContains_congr (hw : w < matchAll) (hpw : p ≤ w)
    {nets : List (IpCidr w)} (hl : longest nets ≤ p) {v v' : BitVec w}
    (h : v.toNat / 2 ^ (w - p) = v'.toNat / 2 ^ (w - p)) :
    familyContains (mergeSortedRanges (nets.map IpCidr.range)) (longest nets) v =
      familyContains (mergeSortedRanges (nets.map IpCidr.range)) (longest nets) v' := by
  have hle := (longestOf hw nets).prefixLen_le hl (by omega)
  rw [Bool.eq_iff_iff, familyContains_iff hw, familyContains_iff hw]
  refine exists_congr fun net => and_congr_right fun hm => ?_
  exact IpCidr.has_congr (hle net hm) hpw h

namespace HeuristicIPMatcher

def Built (m : HeuristicIPMatcher) : Prop := ∃ cidrs, m.ipset = IPSet.fromCidrs cidrs

variable {m : HeuristicIPMatcher}

theorem bucket_eq_some (h : m.bucket ip = some k) : prefixKey ip = k ∧ match ip with
      | .v4 _ => m.ipset.max4 ≤ 24
      | .v6 _ => m.ipset.max6 ≤ 64 := by
  cases ip with
  | v4 ip => simpa [bucket, heuristicV4, and_comm] using h
  | v6 ip => simpa [bucket, heuristicV6, and_comm] using h

theorem Built.matchIp_congr (hm : m.Built) (x y : IpAddr) (k : Bytes)
    (hx : m.bucket x = some k) (hy : m.bucket y = some k) : m.matchIp x = m.matchIp y := by
  obtain ⟨c, hs⟩ := hm
  obtain ⟨hkx, hl⟩ := bucket_eq_some hx
  obtain ⟨hky, -⟩ := bucket_eq_some hy
  have hk := hkx.trans hky.symm
  rw [IPSet.fromCidrs, IPSet.foldl_addCidr] at hs
  cases x with
  | v4 x =>
    cases y with
    | v4 y =>
      have ht : x.octets.take 3 = y.octets.take 3 := by
        simpa [prefixKey, prefixKeyV4] using hk
      have hd := div_eq_of_take_eq (w := 32) (by rw [x.length_octets]) (by rw [y.length_octets])
        (by decide) ht
      simp only [hs] at hl
      simp [matchIp, matchAddr, IPSet.containsV4, hs, IPSet.familyContains_congr (by decide) (by decide) hl hd]
    | v6 y => simp [prefixKey, prefixKeyV4, prefixKeyV6] at hk
  | v6 x =>
    cases y with
    | v4 y => simp [prefixKey, prefixKeyV4, prefixKeyV6] at hk
    | v6 y =>
      have ht : x.octets.take 8 = y.octets.take 8 := by
        simpa [prefixKey, prefixKeyV6] using hk
      have hd := div_eq_of_take_eq (w := 128) (by rw [x.length_octets])
        (by rw [y.length_octets]) (by decide) ht
      simp only [hs] at hl
      simp [matchIp, matchAddr, IPSet.containsV6, hs, IPSet.familyContains_congr (by decide) (by decide) hl hd]

section

variable (hm : m.Built) (hs : Memo.Sound m.bucket m.matchIp seen)

include hm hs

theorem Built.consult (ip : IpAddr) :
    ∃ seen', Memo.consult m.bucket m.matchIp seen ip = (m.matchIp ip, seen') ∧
      Memo.Sound m.bucket m.matchIp seen' := by
  obtain ⟨ha, hn⟩ := hs.consult hm.matchIp_congr ip
  exact ⟨_, Prod.ext ha rfl, hn⟩

theorem Built.anyMatchLoop_eq (ips : List IpAddr) :
    m.anyMatchLoop seen ips = ips.any m.matchIp := by
  induction ips generalizing seen with
  | nil => rfl
  | cons ip ips ih =>
    obtain ⟨seen', hc, hn⟩ := hm.consult hs ip
    rw [anyMatchLoop, hc]
    cases hip : m.matchIp ip with
    | true => simp [hip]
    | false => simpa [hip] using ih hn

theorem Built.matchesLoop_eq (ips : List IpAddr) : m.matchesLoop seen ips = ips.all m.matchIp := by
  induction ips generalizing seen with
  | nil => rfl
  | cons ip ips ih =>
    obtain ⟨seen', hc, hn⟩ := hm.consult hs ip
    rw [matchesLoop, hc]
    cases hip : m.matchIp ip with
    | true => simpa [hip] using ih hn
    | false => simp [hip]

theorem Built.filterIpsLoop_eq (res ips : List IpAddr) :
    m.filterIpsLoop seen res ips = res ++ ips.filter m.matchIp := by
  induction ips generalizing seen res with
  | nil => simp [filterIpsLoop]
  | cons ip ips ih =>
    obtain ⟨seen', hc, hn⟩ := hm.consult hs ip
    rw [filterIpsLoop, hc]
    cases hip : m.matchIp ip with
    | true => simpa [hip] using ih hn (res ++ [ip])
    | false => simpa [hip] using ih hn res

end

theorem Built.anyMatch_eq (hm : m.Built) (ips : List IpAddr) :
    m.anyMatch ips = ips.any m.matchIp := by
  unfold anyMatch
  split
  · rfl
  · simp
  · split
    · rfl
    · exact hm.anyMatchLoop_eq Memo.sound_empty ips

theorem Built.matches_eq (hm : m.Built) (ips : List IpAddr) :
    m.matches ips = (!ips.isEmpty && ips.all m.matchIp) := by
  unfold «matches»
  split
  · rfl
  · simp
  case h_3 hn _ =>
    have hne : ips.isEmpty = false := by simpa using hn
    split
    · simp [hne]
    · simp [hne, hm.matchesLoop_eq Memo.sound_empty ips]

theorem Built.filterIps_eq (hm : m.Built) (ips : List IpAddr) :
    m.filterIps ips = ips.filter m.matchIp := by
  unfold filterIps
  split
  · rfl
  · simp [filter_cons]
  · split
    · rfl
    · exact hm.filterIpsLoop_eq Memo.sound_empty [] ips

end HeuristicIPMatcher

theorem built_of_mem_subMatchers (h : m ∈ subMatchers rules) : m.Built := by
  simp only [subMatchers, mem_append] at h
  rcases h with (h | h) | h
  · split at h
    · cases h
    · obtain rfl := mem_singleton.mp h
      exact ⟨_, rfl⟩
  · split at h
    · cases h
    · obtain rfl := mem_singleton.mp h
      exact ⟨_, rfl⟩
  · obtain ⟨rule, -, hr⟩ := mem_filterMap.mp h
    cases rule with
    | geoip =>
      cases hr
      exact ⟨_, rfl⟩
    | custom | none => cases hr

theorem buildOptimizedIpMatcher_cases (h : buildOptimizedIpMatcher rules = .ok matcher) :
    (∃ m, m.Built ∧ matcher = .heuristic m) ∨
      ∃ subs, subs ≠ [] ∧ (∀ m ∈ subs, m.Built) ∧ matcher = .multi ⟨subs⟩ := by
  have hb : ∀ m ∈ subMatchers rules, m.Built := fun m hm => built_of_mem_subMatchers hm
  unfold buildOptimizedIpMatcher at h
  split at h
  · cases h
  split at h
  · cases h
  case h_2 m hs =>
    cases h
    exact .inl ⟨m, hb m (by simp [hs]), rfl⟩
  case h_3 hne _ =>
    cases h
    exact .inr ⟨_, hne, hb, rfl⟩

namespace IPMatcher

/-- The three batch operations say what matching the addresses one by one says. -/
structure Agrees (matcher : IPMatcher) (ips : List IpAddr) : Prop where
  any_iff : matcher.anyMatch ips = true ↔ ∃ ip ∈ ips, matcher.matchIp ip = true
  all_iff : matcher.matches ips = true ↔ ips ≠ [] ∧ ∀ ip ∈ ips, matcher.matchIp ip = true
  filter_eq : matcher.filterIps ips = ips.filter matcher.matchIp

/-- Of several sets, either none matches some address of the list or each one
matches them all. -/
def SetsConcur (ips : List IpAddr) : IPMatcher → Prop
  | .heuristic _ => True
  | .multi m => (∃ ip ∈ ips, ∀ sub ∈ m.matchers, sub.matchIp ip = false) ∨
    ∀ sub ∈ m.matchers, ∀ ip ∈ ips, sub.matchIp ip = true

theorem agrees_heuristic (hm : m.Built) (ips : List IpAddr) : (heuristic m).Agrees ips where
  any_iff := by simp [anyMatch, matchIp, hm.anyMatch_eq]
  all_iff := by simp [«matches», matchIp, hm.matches_eq]
  filter_eq := hm.filterIps_eq ips

variable {subs : List HeuristicIPMatcher}

theorem anyMatch_multi_iff (hs : ∀ m ∈ subs, m.Built) (ips : List IpAddr) :
    (multi ⟨subs⟩).anyMatch ips = true ↔ ∃ ip ∈ ips, (multi ⟨subs⟩).matchIp ip = true := by
  simp only [anyMatch, matchIp, HeuristicMultiIPMatcher.anyMatch, HeuristicMultiIPMatcher.matchIp,
    any_eq_true]
  constructor
  · rintro ⟨m, hm, ha⟩
    rw [(hs m hm).anyMatch_eq, any_eq_true] at ha
    obtain ⟨ip, hip, hma⟩ := ha
    exact ⟨ip, hip, m, hm, hma⟩
  · rintro ⟨ip, hip, m, hm, hma⟩
    refine ⟨m, hm, ?_⟩
    rw [(hs m hm).anyMatch_eq, any_eq_true]
    exact ⟨ip, hip, hma⟩

theorem matches_multi_iff (hne : subs ≠ []) (hs : ∀ m ∈ subs, m.Built) (ips : List IpAddr) :
    (multi ⟨subs⟩).matches ips = true ↔ ips ≠ [] ∧ ∀ m ∈ subs, ∀ ip ∈ ips, m.matchIp ip = true := by
  have hsu : ∀ m ∈ subs, (m.matches ips = true ↔ ips ≠ [] ∧ ∀ ip ∈ ips, m.matchIp ip = true) :=
    fun m hm => by simp [(hs m hm).matches_eq]
  simp only [«matches», HeuristicMultiIPMatcher.matches, all_eq_true]
  obtain ⟨first, hf⟩ := exists_mem_of_ne_nil subs hne
  constructor
  · intro h
    exact ⟨((hsu first hf).mp (h first hf)).1, fun m hm => ((hsu m hm).mp (h m hm)).2⟩
  · rintro ⟨hi, h⟩ m hm
    exact (hsu m hm).mpr ⟨hi, h m hm⟩

theorem agrees_multi_iff (hne : subs ≠ []) (hs : ∀ m ∈ subs, m.Built) (ips : List IpAddr) :
    (multi ⟨subs⟩).Agrees ips ↔ (multi ⟨subs⟩).SetsConcur ips := by
  have hma : ∀ ip, (multi ⟨subs⟩).matchIp ip = true ↔ ∃ m ∈ subs, m.matchIp ip = true := by
    intro ip
    simp [matchIp, HeuristicMultiIPMatcher.matchIp]
  obtain ⟨first, hf⟩ := exists_mem_of_ne_nil subs hne
  constructor
  · rintro ⟨-, hall, -⟩
    rw [matches_multi_iff hne hs] at hall
    by_cases hmi : ∃ ip ∈ ips, ∀ m ∈ subs, m.matchIp ip = false
    · exact .inl hmi
    refine .inr fun m hm ip hip => ?_
    push Not at hmi
    have hi : ips ≠ [] := ne_nil_of_mem hip
    refine (hall.mpr ⟨hi, fun ip hip => (hma ip).mpr ?_⟩).2 m hm ip hip
    obtain ⟨m, hm, hmt⟩ := hmi ip hip
    exact ⟨m, hm, by simpa using hmt⟩
  · intro hc
    refine ⟨anyMatch_multi_iff hs ips, ?_, rfl⟩
    rw [matches_multi_iff hne hs]
    refine and_congr_right fun _ => ?_
    rcases hc with ⟨ip, hip, hmi⟩ | he
    · constructor
      · intro h
        have := h first hf ip hip
        simp [hmi first hf] at this
      · intro h
        obtain ⟨m, hm, hmt⟩ := (hma ip).mp (h ip hip)
        simp [hmi m hm] at hmt
    · exact ⟨fun _ ip hip => (hma ip).mpr ⟨first, hf, he first hf ip hip⟩, fun _ => he⟩

end IPMatcher

/-- A matcher agrees on a batch with its answers for single addresses exactly when
its sets concur on the batch. -/
theorem agrees_iff_setsConcur (h : buildOptimizedIpMatcher rules = .ok matcher)
    (ips : List IpAddr) : matcher.Agrees ips ↔ matcher.SetsConcur ips := by
  rcases buildOptimizedIpMatcher_cases h with ⟨m, hm, rfl⟩ | ⟨subs, hne, hsubs, rfl⟩
  · exact iff_of_true (IPMatcher.agrees_heuristic hm ips) trivial
  · exact IPMatcher.agrees_multi_iff hne hsubs ips

def tenOrPublic : List IpRule :=
  [.custom ⟨some ⟨[10, 0, 0, 0], 8⟩, false⟩, .custom ⟨some ⟨[192, 168, 0, 0], 16⟩, true⟩]

/-- A single address that the matcher matches is refused as a batch of one. -/
theorem matched_address_refused : ∃ matcher, buildOptimizedIpMatcher tenOrPublic = .ok matcher ∧
    matcher.matchIp (.v4 ⟨[8, 8, 8, 8], rfl⟩) = true ∧
    matcher.matches [.v4 ⟨[8, 8, 8, 8], rfl⟩] = false :=
  ⟨_, rfl, by decide, by decide⟩

theorem agrees_iff_setsConcur_ten : ∃ matcher, buildOptimizedIpMatcher tenOrPublic = .ok matcher ∧
    matcher.SetsConcur [.v4 ⟨[10, 0, 0, 1], rfl⟩] ∧ matcher.Agrees [.v4 ⟨[10, 0, 0, 1], rfl⟩] :=
  have hconcur : IPMatcher.SetsConcur [.v4 ⟨[10, 0, 0, 1], rfl⟩]
      (.multi ⟨subMatchers tenOrPublic⟩) := .inr (by decide)
  have hbuild : buildOptimizedIpMatcher tenOrPublic = .ok (.multi ⟨subMatchers tenOrPublic⟩) := rfl
  ⟨_, hbuild, hconcur, (agrees_iff_setsConcur hbuild _).mpr hconcur⟩

end XrayCore.Geodata
