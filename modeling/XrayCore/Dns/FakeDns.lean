import XrayCore.Dns.FakeIp
import XrayCore.Dns.Record
import XrayCore.Lib.Lru

/-!
# Fake addresses for domains

A holder gives each domain an address of a pool. The clock says where in the pool the search
for a free address starts. It ends at the first free one, or at the first address of the
pool when it gets there, free or not.

`none` is a panic: `1 << rooms` does not fit its type, and the build checks for that.
-/

namespace XrayCore.Dns

open Lib Net List

structure FakeDnsPool where
  ipPool : String
  lruSize : UInt64

structure Holder where
  domainToIp : Lru String IpAddr
  ipRange : IpNet
  config : FakeDnsPool

namespace Holder

theorem unbounded_pos : 0 < 2 ^ 64 - 1 := by decide

def withConfig (conf : FakeDnsPool) : Holder :=
  ⟨.empty (2 ^ 64 - 1) unbounded_pos, .v4 (.new 0 0 0 0) 32, conf⟩

theorem capacity_pos (lruSize : UInt64) : 0 < max lruSize.toNat 1 :=
  one_pos.trans_le (le_max_right ..)

def initializeWith (parse : String → Except String IpNet) (h : Holder) (ipPoolCidr : String)
    (lruSize : UInt64) : Except DnsError Holder :=
  match parse ipPoolCidr with
  | .error msg => .error (.invalidFakeDnsCidr msg)
  | .ok ipRange =>
    let rooms := subnetRooms ipRange
    if rooms < 32 ∧ lruSize ≥ 1 <<< UInt64.ofNat rooms then
      .error (.lruBiggerThanSubnet lruSize.toNat rooms)
    else
      .ok { h with
        ipRange := ipRange
        domainToIp := .empty (max lruSize.toNat 1) (capacity_pos lruSize) }

def initializeFromConfig (parse : String → Except String IpNet) (h : Holder) :
    Except DnsError Holder :=
  h.initializeWith parse h.config.ipPool h.config.lruSize

def isIpInPool (h : Holder) (ip : IpAddr) : Bool := h.ipRange.contains ip

def rooms (h : Holder) : Nat := subnetRooms h.ipRange

def occupied (h : Holder) (ip : IpAddr) : Bool := h.domainToIp.entries.any (·.2 = ip)

def probe (h : Holder) (ts : UInt64) : IpAddr :=
  if h.occupied (tsToIp h.ipRange ts) then
    if tsToIp h.ipRange (next h.ipRange ts) = h.ipRange.network then h.ipRange.network
    else h.probe (next h.ipRange ts)
  else tsToIp h.ipRange ts
termination_by span h.ipRange - ts.toNat % span h.ipRange
decreasing_by exact next_decreases ‹_›

def getFakeIpForDomain (overflowChecks : Bool) (h : Holder) (domain : String) (now : UInt64) :
    Option (List IpAddr × Holder) :=
  match h.domainToIp.get domain with
  | some (ip, domainToIp) => some ([ip], { h with domainToIp := domainToIp })
  | none =>
    if overflowChecks ∧ 64 ≤ h.rooms then none
    else
      let ip := h.probe (now &&& mask h.rooms)
      some ([ip], { h with domainToIp := h.domainToIp.put domain ip })

def getDomainFromFakeDns (h : Holder) (ip : IpAddr) : Option String :=
  if h.isIpInPool ip then (h.domainToIp.entries.find? (·.2 = ip)).map (·.1) else none

end Holder

inductive Call
  | getFakeIpForDomain (domain : String) (now : UInt64)
  | getDomainFromFakeDns (ip : IpAddr)

structure Used where
  holder : Holder
  given : List (String × IpAddr)

def Call.run (overflowChecks : Bool) (u : Used) : Call → Option Used
  | .getFakeIpForDomain domain now =>
    match u.holder.getFakeIpForDomain overflowChecks domain now with
    | some (ips, holder) => some ⟨holder, ips.map (domain, ·) ++ u.given⟩
    | none => none
  | .getDomainFromFakeDns _ => some u

namespace Used

def entries (u : Used) : List (String × IpAddr) := u.holder.domainToIp.entries

def Distinct (u : Used) : Prop := ∀ e ∈ u.entries, ∀ e' ∈ u.entries, e.2 = e'.2 → e.1 = e'.1

/-- The domain that was last given an address is found by it while it is cached. -/
def FindsLast (u : Used) : Prop :=
  ∀ domain ip, u.given.find? (·.2 = ip) = some (domain, ip) → (domain, ip) ∈ u.entries →
    u.holder.getDomainFromFakeDns ip = some domain

structure Bijective (u : Used) : Prop where
  inPool : ∀ e ∈ u.given, u.holder.isIpInPool e.2 = true
  distinct : u.Distinct
  findsLast : u.FindsLast

end Used

/-- No call panics, and between the calls the domains and their addresses correspond. -/
def Keeps (overflowChecks : Bool) : List Call → Used → Prop
  | [], u => u.Bijective
  | call :: calls, u => u.Bijective ∧
    ∃ u', call.run overflowChecks u = some u' ∧ Keeps overflowChecks calls u'

def Holder.HasFree (h : Holder) (ts : UInt64) : Prop :=
  ∃ ts' : UInt64, ts.toNat ≤ ts'.toNat ∧ ts'.toNat < span h.ipRange ∧
    h.occupied (tsToIp h.ipRange ts') = false

/-- The shift is in range, and there is a free address from the clock's on, or the first one is free
or that of the domain the new one displaces. -/
def Holder.HasRoom (overflowChecks : Bool) (h : Holder) (domain : String) (now : UInt64) : Prop :=
  ¬(overflowChecks ∧ 64 ≤ h.rooms) ∧ (h.HasFree (now &&& mask h.rooms) ∨
      ∀ e ∈ h.domainToIp.kept domain, e.2 ≠ h.ipRange.network)

def Call.Safe (overflowChecks : Bool) (h : Holder) : Call → Prop
  | .getFakeIpForDomain domain now =>
    (∃ ip, (domain, ip) ∈ h.domainToIp.entries) ∨ h.HasRoom overflowChecks domain now
  | .getDomainFromFakeDns _ => True

def SafeRun (overflowChecks : Bool) : List Call → Used → Prop
  | [], _ => True
  | call :: calls, u => call.Safe overflowChecks u.holder ∧
    ∀ u', call.run overflowChecks u = some u' → SafeRun overflowChecks calls u'

namespace Holder

variable {h : Holder} {ts : UInt64}

theorem exists_probe (hts : ts.toNat < span h.ipRange) :
    ∃ ts' : UInt64, ts'.toNat < span h.ipRange ∧ h.probe ts = tsToIp h.ipRange ts' := by
  fun_induction probe h ts with
  | case1 ts _ _ => exact ⟨0, span_pos _, tsToIp_zero.symm⟩
  | case2 ts _ _ ih => exact ih (toNat_next .. ▸ Nat.mod_lt _ (span_pos _))
  | case3 ts _ => exact ⟨ts, hts, rfl⟩

theorem hasFree_iff_next (hts : ts.toNat < span h.ipRange)
    (ho : h.occupied (tsToIp h.ipRange ts) = true) :
    h.HasFree ts ↔ tsToIp h.ipRange (next h.ipRange ts) ≠ h.ipRange.network ∧
      h.HasFree (next h.ipRange ts) := by
  rw [Ne, tsToIp_next_eq_network_iff hts]
  constructor
  · rintro ⟨ts', hle, hlt, hf⟩
    have hne : ts.toNat ≠ ts'.toNat := by
      intro heq
      rw [← UInt64.toNat_inj.mp heq, ho] at hf
      cases hf
    refine ⟨by omega, ts', ?_, hlt, hf⟩
    rw [toNat_next, Nat.mod_eq_of_lt (by omega)]
    omega
  · rintro ⟨hne, ts', hle, hlt, hf⟩
    rw [toNat_next, Nat.mod_eq_of_lt (by omega)] at hle
    exact ⟨ts', by omega, hlt, hf⟩

theorem probe_spec (hts : ts.toNat < span h.ipRange) :
    (h.HasFree ts ∧ h.occupied (h.probe ts) = false) ∨
      (¬h.HasFree ts ∧ h.probe ts = h.ipRange.network) := by
  fun_induction probe h ts with
  | case1 ts ho hn =>
    rw [hasFree_iff_next hts ho]
    exact .inr ⟨fun hf => hf.1 hn, rfl⟩
  | case2 ts ho hn ih =>
    rw [hasFree_iff_next hts ho, and_iff_right hn]
    exact ih (toNat_next .. ▸ Nat.mod_lt _ (span_pos _))
  | case3 ts hf =>
    have hf := Bool.eq_false_of_not_eq_true hf
    exact .inl ⟨⟨ts, le_refl _, hts, hf⟩, hf⟩

end Holder

namespace Used

variable {u u' : Used} {overflowChecks : Bool} {domain : String} {ip : IpAddr} {now : UInt64}

/-- What a call does if it gives the address: found or searched for, it is then the one
used last. -/
def give (u : Used) (domain : String) (ip : IpAddr) : Used :=
  ⟨{ u.holder with domainToIp := u.holder.domainToIp.put domain ip }, (domain, ip) :: u.given⟩

structure Traced (u : Used) : Prop where
  given : ∀ e ∈ u.entries, e ∈ u.given
  inPool : ∀ e ∈ u.given, u.holder.isIpInPool e.2 = true
  recent : ∀ e, u.given.find? (·.2 = e.2) = some e → e ∈ u.entries →
    u.entries.find? (·.2 = e.2) = some e

theorem Traced.give (h : u.Traced) (hip : u.holder.isIpInPool ip = true) :
    (u.give domain ip).Traced where
  given := by
    rintro e he
    obtain rfl | he := mem_cons.mp he
    · exact mem_cons_self
    · exact mem_cons_of_mem _ (h.given e ((Lru.kept_sublist ..).subset he))
  inPool := by
    rintro e he
    obtain rfl | he := mem_cons.mp he
    · exact hip
    · exact h.inPool e he
  recent := by
    intro e hf hm
    change List.find? _ (_ :: u.holder.domainToIp.kept domain) = _
    change List.find? _ (_ :: u.given) = _ at hf
    rw [List.find?_cons] at hf ⊢
    split at hf
    next => exact hf
    next hne =>
      -- the entry is not the new one, so it stayed and was the first before
      obtain rfl | hm := mem_cons.mp hm
      · simp at hne
      · have hs := u.holder.domainToIp.kept_sublist domain
        exact Lru.find?_of_sublist hs (Lru.nodup_entries _) hm (h.recent e hf (hs.subset hm))

theorem Traced.findsLast (h : u.Traced) : u.FindsLast := by
  intro d ip hf hm
  have hp : u.holder.isIpInPool ip = true := h.inPool _ (h.given _ hm)
  have he := h.recent (d, ip) hf hm
  rw [Holder.getDomainFromFakeDns, if_pos hp]
  exact congrArg (Option.map (·.1)) he

theorem Traced.bijective_iff (h : u.Traced) : u.Bijective ↔ u.Distinct :=
  ⟨Bijective.distinct, fun hd => ⟨h.inPool, hd, h.findsLast⟩⟩

theorem Distinct.give_iff (h : u.Distinct) :
    (u.give domain ip).Distinct ↔ ∀ e ∈ u.holder.domainToIp.kept domain, e.2 ≠ ip := by
  constructor
  · rintro hd e he rfl
    exact Lru.ne_of_mem_kept he (hd e (mem_cons_of_mem _ he) _ mem_cons_self rfl)
  intro hne e he e' he' heq
  obtain rfl | he := mem_cons.mp he
  · obtain rfl | he' := mem_cons.mp he'
    · rfl
    · exact absurd heq.symm (hne e' he')
  obtain rfl | he' := mem_cons.mp he'
  · exact absurd heq (hne e he)
  · have hs := (u.holder.domainToIp.kept_sublist domain).subset
    exact h e (hs he) e' (hs he') heq

theorem run_of_hit (hg : u.holder.domainToIp.get domain = some (ip, domainToIp)) :
    (Call.getFakeIpForDomain domain now).run overflowChecks u = some (u.give domain ip) := by
  obtain ⟨-, rfl⟩ := Lru.get_eq_some hg
  simp [Call.run, Holder.getFakeIpForDomain, hg, give]

theorem run_of_miss (hg : u.holder.domainToIp.get domain = none) :
    (Call.getFakeIpForDomain domain now).run overflowChecks u =
      if overflowChecks ∧ 64 ≤ u.holder.rooms then none
      else some (u.give domain (u.holder.probe (now &&& mask u.holder.rooms))) := by
  rw [Call.run, Holder.getFakeIpForDomain, hg]
  dsimp only
  split
  next h =>
    split at h
    next => cases h
    next hc =>
      obtain ⟨rfl, rfl⟩ := Prod.mk.inj (Option.some.inj h)
      rw [if_neg hc]
      rfl
  next h =>
    split at h
    next hc => rw [if_pos hc]
    next => cases h

theorem toNat_offset_lt (h : Holder) (now : UInt64) :
    (now &&& mask h.rooms).toNat < span h.ipRange := by
  rw [Holder.rooms, toNat_and_mask]
  exact Nat.mod_lt _ (span_pos _)

theorem probe_inPool (h : Holder) (now : UInt64) :
    h.isIpInPool (h.probe (now &&& mask h.rooms)) = true := by
  obtain ⟨ts, hts, heq⟩ := Holder.exists_probe (toNat_offset_lt h now)
  rw [heq]
  exact contains_tsToIp hts

theorem Traced.run (h : u.Traced) {call : Call} (hr : call.run overflowChecks u = some u') :
    u'.Traced := by
  cases call with
  | getDomainFromFakeDns ip => exact Option.some.inj hr ▸ h
  | getFakeIpForDomain d now =>
    cases hg : u.holder.domainToIp.get d with
    | some r =>
      rw [run_of_hit hg] at hr
      exact Option.some.inj hr ▸ h.give (h.inPool _ (h.given _ (Lru.get_eq_some hg).1))
    | none =>
      rw [run_of_miss hg] at hr
      obtain ⟨-, hr⟩ := Option.ite_none_left_eq_some.mp hr
      exact Option.some.inj hr ▸ h.give (probe_inPool ..)

theorem ne_of_not_occupied {h : Holder} (hf : h.occupied ip = false) :
    ∀ e ∈ h.domainToIp.kept domain, e.2 ≠ ip := by
  intro e he
  have hn := any_eq_false.mp hf e ((Lru.kept_sublist ..).subset he)
  simpa using hn

theorem Distinct.give_probe_iff (h : u.Distinct) :
    (u.give domain (u.holder.probe (now &&& mask u.holder.rooms))).Distinct ↔
      u.holder.HasFree (now &&& mask u.holder.rooms) ∨
        ∀ e ∈ u.holder.domainToIp.kept domain, e.2 ≠ u.holder.ipRange.network := by
  rw [h.give_iff]
  obtain ⟨hf, hip⟩ | ⟨hf, hip⟩ := Holder.probe_spec (toNat_offset_lt u.holder now)
  · exact iff_of_true (ne_of_not_occupied hip) (.inl hf)
  · rw [hip, or_iff_right hf]

theorem Distinct.run_iff (h : u.Distinct) (call : Call) :
    (∃ u', call.run overflowChecks u = some u' ∧ u'.Distinct) ↔
      call.Safe overflowChecks u.holder := by
  cases call with
  | getDomainFromFakeDns ip => exact iff_of_true ⟨u, rfl, h⟩ trivial
  | getFakeIpForDomain d now =>
    cases hg : u.holder.domainToIp.get d with
    | some r =>
      have hm := (Lru.get_eq_some hg).1
      refine iff_of_true ⟨_, run_of_hit hg, h.give_iff.mpr ?_⟩ (.inl ⟨r.1, hm⟩)
      intro e he heq
      exact Lru.ne_of_mem_kept he (h e ((Lru.kept_sublist ..).subset he) _ hm heq)
    | none =>
      have hmiss : ¬∃ ip, (d, ip) ∈ u.holder.domainToIp.entries := by
        rintro ⟨ip, hm⟩
        exact Lru.get_eq_none hg _ hm rfl
      rw [run_of_miss hg, Call.Safe, or_iff_right hmiss, Holder.HasRoom, ← h.give_probe_iff]
      by_cases hc : overflowChecks ∧ 64 ≤ u.holder.rooms <;> simp [hc]

end Used

theorem Keeps.bijective (h : Keeps overflowChecks calls u) : u.Bijective := by
  cases calls with
  | nil => exact h
  | cons call calls => exact h.1

theorem keeps_iff_safeRun (calls : List Call) (ht : u.Traced) (hd : u.Distinct) :
    Keeps overflowChecks calls u ↔ SafeRun overflowChecks calls u := by
  induction calls generalizing u with
  | nil => exact iff_of_true (ht.bijective_iff.mpr hd) trivial
  | cons call calls ih =>
    rw [Keeps, SafeRun, ht.bijective_iff, and_iff_right hd, ← hd.run_iff]
    constructor
    · rintro ⟨u', hr, hk⟩
      have hd' := hk.bijective.distinct
      refine ⟨⟨u', hr, hd'⟩, ?_⟩
      rintro u'' hr'
      obtain rfl : u' = u'' := Option.some.inj (hr.symm.trans hr')
      exact (ih (ht.run hr) hd').mp hk
    · rintro ⟨⟨u', hr, hd'⟩, hs⟩
      exact ⟨u', hr, (ih (ht.run hr) hd').mpr (hs u' hr)⟩

namespace Holder

theorem entries_of_initialize {parse : String → Except String IpNet} {h h' : Holder}
    (hi : h.initializeFromConfig parse = .ok h') : h'.domainToIp.entries = [] := by
  unfold initializeFromConfig initializeWith at hi
  split at hi
  next => cases hi
  next =>
    dsimp only at hi
    split at hi
    next => cases hi
    next =>
      obtain rfl := Except.ok.inj hi
      rfl

/-- After any calls on an initialised holder: no panic, addresses of the pool only, and the
domains and their addresses correspond, exactly if each new domain finds room. -/
theorem keeps_bijection_iff {parse : String → Except String IpNet} {conf : FakeDnsPool}
    {h : Holder} (hinit : (withConfig conf).initializeFromConfig parse = .ok h)
    (overflowChecks : Bool) (calls : List Call) :
    Keeps overflowChecks calls ⟨h, []⟩ ↔ SafeRun overflowChecks calls ⟨h, []⟩ := by
  have hempty := entries_of_initialize hinit
  refine keeps_iff_safeRun calls ⟨?_, ?_, ?_⟩ ?_
  · simp [Used.entries, hempty]
  · simp
  · simp
  · simp [Used.Distinct, Used.entries, hempty]

def four : Except DnsError Holder :=
  (withConfig ⟨"10.0.0.0/30", 3⟩).initializeFromConfig fun _ => .ok (.v4 (.new 10 0 0 0) 30)

def wide : Except DnsError Holder :=
  (withConfig ⟨"fc00::/64", 3⟩).initializeFromConfig fun _ =>
    .ok (.v6 (.ofOctets fun i => if i = 0 then 0xfc else 0) 64)

/-- The search starts at the last address and ends at the first, and both are occupied. With 64 bits
behind the prefix the first call panics, or the second gives the address of the first. -/
theorem address_given_twice : (∃ h, four = .ok h ∧
      ([.getFakeIpForDomain "a.com" 0, .getFakeIpForDomain "b.com" 3,
          .getFakeIpForDomain "c.com" 3].foldlM (Call.run true) ⟨h, []⟩).map Used.entries =
        some [("c.com", .v4 (.new 10 0 0 0)), ("b.com", .v4 (.new 10 0 0 3)),
          ("a.com", .v4 (.new 10 0 0 0))]) ∧ (∃ h, wide = .ok h ∧
      ((Call.getFakeIpForDomain "a.com" 0).run true ⟨h, []⟩).map Used.entries = none ∧
      ([.getFakeIpForDomain "a.com" 1, .getFakeIpForDomain "b.com" 2].foldlM (Call.run false)
          ⟨h, []⟩).map Used.entries =
        some [("b.com", h.ipRange.network), ("a.com", h.ipRange.network)]) :=
  ⟨⟨_, rfl, by decide +kernel⟩, ⟨_, rfl, by decide +kernel, by decide +kernel⟩⟩

/-- The second domain starts its search at the address of the first. -/
theorem keeps_bijection_next_address : ∃ h, four = .ok h ∧
      Keeps true [.getFakeIpForDomain "a.com" 2, .getFakeIpForDomain "b.com" 2] ⟨h, []⟩ := by
  obtain ⟨h, hfour⟩ : ∃ h, four = .ok h := ⟨_, rfl⟩
  refine ⟨h, hfour, (keeps_bijection_iff hfour true _).mpr ?_⟩
  obtain rfl := Except.ok.inj hfour
  refine ⟨?_, ?_⟩
  · exact .inr ⟨by decide, .inl ⟨2, by decide, by decide, by decide⟩⟩
  · intro u' hrun
    obtain rfl := Option.some.inj hrun
    exact ⟨.inr ⟨by decide, .inl ⟨3, by decide, by decide, by decide +kernel⟩⟩, fun _ _ => trivial⟩

end Holder

end XrayCore.Dns
