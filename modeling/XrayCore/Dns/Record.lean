import XrayCore.Net.Address

/-!
# Cached records

A record holds the addresses of one family. What a query gets out of the records of a domain
is their addresses, the smallest remaining time in whole seconds, negative if a record has
expired, and an error.
-/

namespace XrayCore.Dns

open Net

inductive FeatureError
  | domainNotFound (domain : String)
  | serverError (msg : String)
  | timeout
  | emptyResponse
  | rcode (code : UInt16)
  | other (msg : String)
  deriving DecidableEq

inductive DnsError
  | recordNotFound
  | emptyResponse
  | rCodeError (rcode : UInt16)
  | invalidQueryStrategy (strategy : Int)
  | noQueryStrategy (server : String)
  | invalidClientIpLength (length : Nat)
  | invalidStaticHostsIP (ip : String)
  | invalidFakeDnsSetting
  | invalidFakeDnsCidr (msg : String)
  | lruBiggerThanSubnet (lru rooms : Nat)
  | noFakeDnsEngine
  | features (err : FeatureError)
  | notImplemented (what : String)
  | wireFormat (msg : String)
  | skipDnsServer (server : String)
  | systemResolve (msg : String)
  deriving DecidableEq

def FeatureError.message : FeatureError → String
  | domainNotFound domain => s!"domain not found: {domain}"
  | serverError msg => s!"DNS server error: {msg}"
  | timeout => "DNS timeout"
  | emptyResponse => "empty response"
  | rcode code => s!"rcode: {code}"
  | other msg => s!"DNS resolution failed: {msg}"

namespace DnsError

def message : DnsError → String
  | recordNotFound => "record not found"
  | emptyResponse => "empty response"
  | rCodeError rcode => s!"dns rcode error: {rcode}"
  | invalidQueryStrategy strategy => s!"unexpected query strategy: {strategy}"
  | noQueryStrategy server => s!"no query strategy available for {server}"
  | invalidClientIpLength length => s!"unexpected client ip length: {length}"
  | invalidStaticHostsIP ip => s!"invalid ip address in static hosts: {ip}"
  | invalidFakeDnsSetting => "invalid fake dns setting"
  | invalidFakeDnsCidr msg => s!"unable to parse cidr for fake dns ip assignment: {msg}"
  | lruBiggerThanSubnet lru rooms => s!"lru size {lru} is bigger than subnet size {rooms}"
  | noFakeDnsEngine => "unable to locate a fake dns engine"
  | features err => err.message
  | notImplemented what => s!"not implemented: {what}"
  | wireFormat msg => s!"dns wire format error: {msg}"
  | skipDnsServer server => s!"skipped DNS server {server}"
  | systemResolve msg => s!"system dns resolution failed: {msg}"

def discriminant : DnsError → Nat
  | recordNotFound => 0
  | emptyResponse => 1
  | rCodeError _ => 2
  | invalidQueryStrategy _ => 3
  | noQueryStrategy _ => 4
  | invalidClientIpLength _ => 5
  | invalidStaticHostsIP _ => 6
  | invalidFakeDnsSetting => 7
  | invalidFakeDnsCidr _ => 8
  | lruBiggerThanSubnet .. => 9
  | noFakeDnsEngine => 10
  | features _ => 11
  | notImplemented _ => 12
  | wireFormat _ => 13
  | skipDnsServer _ => 14
  | systemResolve _ => 15

def fromRcode (rcode : UInt16) : DnsError := if rcode = 0 then emptyResponse else rCodeError rcode

end DnsError

abbrev Instant := Int

def second : Int := 1000000000

structure IpRecord where
  ips : List IpAddr
  expire : Instant
  rcode : UInt16
  deriving DecidableEq

structure Record where
  a : Option IpRecord
  aaaa : Option IpRecord
  deriving DecidableEq

structure IpOption where
  ipv4Enable : Bool
  ipv6Enable : Bool
  deriving DecidableEq

inductive Family
  | v4
  | v6
  deriving DecidableEq

def Record.get (rec : Record) : Family → Option IpRecord
  | .v4 => rec.a
  | .v6 => rec.aaaa

def IpOption.enables (option : IpOption) : Family → Bool
  | .v4 => option.ipv4Enable
  | .v6 => option.ipv6Enable

def fqdn (domain : String) : String :=
  if domain.toList.getLast? = some '.' then domain else domain ++ "."

section Merge

-- `as_secs_f64().ceil()` of a duration in nanoseconds
variable (ceilSecs : Nat → Nat)

def rawTtlSeconds (expire now : Instant) : Int :=
  if now ≤ expire then min (ceilSecs (expire - now).toNat) 0x7fffffff
  else -min (ceilSecs (now - expire).toNat) 0x7fffffff

def recordIps (rec : Option IpRecord) (now : Instant) : List IpAddr × Int × Option DnsError :=
  match rec with
  | none => ([], 0, some .recordNotFound)
  | some r =>
    let err := if r.rcode ≠ 0 then some (.fromRcode r.rcode)
      else if r.ips = [] then some .emptyResponse
      else none
    (r.ips, rawTtlSeconds ceilSecs r.expire now, err)

def mergeEnd (allIps : List IpAddr) (rTtl : Int) (errs : List DnsError) :
    List IpAddr × Int × Option DnsError :=
  if allIps ≠ [] then (allIps, rTtl, none)
  else
    match errs with
    | [] => ([], rTtl, none)
    | e :: rest =>
      if rest.all (·.discriminant = e.discriminant) then ([], rTtl, some e)
      else ([], rTtl, some (.systemResolve ("; ".intercalate (errs.map (·.message)))))

def mergeLoop (mergeReq : Bool) (now : Instant) :
    List (Bool × Option IpRecord) → List IpAddr → Int → List DnsError →
      List IpAddr × Int × Option DnsError
  | [], allIps, rTtl, errs => mergeEnd allIps rTtl errs
  | (false, _) :: families, allIps, rTtl, errs => mergeLoop mergeReq now families allIps rTtl errs
  | (true, rec) :: families, allIps, rTtl, errs =>
    let (ips, ttl, err) := recordIps ceilSecs rec now
    if !mergeReq || err = some .recordNotFound then (ips, ttl, err)
    else
      mergeLoop mergeReq now families (allIps ++ ips) (if ttl < rTtl then ttl else rTtl)
        (errs ++ err.toList)

def mergeRecords (option : IpOption) (rec4 rec6 : Option IpRecord) (now : Instant) :
    List IpAddr × Int × Option DnsError :=
  mergeLoop ceilSecs (option.ipv4Enable && option.ipv6Enable) now
    [(option.ipv4Enable, rec4), (option.ipv6Enable, rec6)] [] 600 []

variable {ceilSecs} {mergeReq : Bool} {now : Instant}

theorem mergeEnd_ttl (allIps : List IpAddr) (rTtl : Int) (errs : List DnsError) :
    (mergeEnd allIps rTtl errs).2.1 = rTtl := by
  unfold mergeEnd
  split
  · rfl
  · split
    · rfl
    · split <;> rfl

theorem mergeLoop_ttl_le (families : List (Bool × Option IpRecord)) (allIps : List IpAddr)
    (rTtl : Int) (errs : List DnsError)
    (h : (mergeLoop ceilSecs true now families allIps rTtl errs).2.2 ≠ some .recordNotFound) :
    (mergeLoop ceilSecs true now families allIps rTtl errs).2.1 ≤ rTtl ∧
      ∀ r, (true, some r) ∈ families → (mergeLoop ceilSecs true now families allIps rTtl errs).2.1 ≤
          rawTtlSeconds ceilSecs r.expire now := by
  induction families generalizing allIps rTtl errs with
  | nil => simp [mergeLoop, mergeEnd_ttl]
  | cons f families ih =>
    obtain ⟨e, rec⟩ := f
    cases e with
    | false => simpa [mergeLoop] using ih allIps rTtl errs h
    | true =>
      simp only [mergeLoop, Bool.not_true, Bool.false_or, decide_eq_true_eq] at h ⊢
      split at h
      next hn => exact absurd hn h
      next hf =>
        rw [if_neg hf]
        obtain ⟨hle, hall⟩ := ih _ _ _ h
        have hm : (if (recordIps ceilSecs rec now).2.1 < rTtl
            then (recordIps ceilSecs rec now).2.1 else rTtl) ≤ rTtl := by
          split <;> omega
        refine ⟨hle.trans hm, ?_⟩
        rintro r hr
        obtain heq | hr := List.mem_cons.mp hr
        · obtain rfl : some r = rec := (Prod.mk.inj heq).2
          have hre : (recordIps ceilSecs (some r) now).2.1 =
              rawTtlSeconds ceilSecs r.expire now := rfl
          refine hle.trans ?_
          rw [hre]
          split <;> omega
        · exact hall r hr

theorem mergeRecords_ttl_le {option : IpOption} {rec : Record} {family : Family} {r : IpRecord}
    (hf : (mergeRecords ceilSecs option rec.a rec.aaaa now).2.2 ≠ some .recordNotFound)
    (he : option.enables family = true) (hr : rec.get family = some r) :
    (mergeRecords ceilSecs option rec.a rec.aaaa now).2.1 ≤
      rawTtlSeconds ceilSecs r.expire now := by
  obtain ⟨i, ie⟩ := option
  obtain ⟨a, aaaa⟩ := rec
  cases family with
  | v4 =>
    obtain rfl : a = some r := hr
    obtain rfl : i = true := he
    cases ie with
    | false => exact le_of_eq rfl
    | true => exact (mergeLoop_ttl_le _ _ _ _ hf).2 r (by simp)
  | v6 =>
    obtain rfl : aaaa = some r := hr
    obtain rfl : ie = true := he
    cases i with
    | false => exact le_of_eq rfl
    | true => exact (mergeLoop_ttl_le _ _ _ _ hf).2 r (by simp)

end Merge

end XrayCore.Dns
