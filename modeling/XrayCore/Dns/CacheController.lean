import Mathlib.Data.List.AList
import XrayCore.Dns.Record

/-!
# The cache of a name server

A query answers from the cache while the records are fresh, or for a time after that if the server
is set to serve stale records. A cleanup beside the queries collects the keys of expired records
under one lock and removes the records under another.
-/

namespace XrayCore.Dns

open List

open Net

structure Floats where
  ceilSecs : Nat → Nat
  /-- `(reduction as f64) > (high as f64) * SHRINK_RATIO_THRESHOLD`. -/
  exceedsRatio : Nat → Nat → Bool

/-- The seconds are rounded, but not below whole seconds that a double holds, and not to
zero. -/
structure Floats.Lawful (floats : Floats) : Prop where
  pos : ∀ nanos, 0 < nanos → 0 < floats.ceilSecs nanos
  le : ∀ secs nanos, secs < 2 ^ 53 → secs * 1000000000 ≤ nanos → secs ≤ floats.ceilSecs nanos

def asI32 (n : Int) : Int := n.bmod (2 ^ 32)

abbrev Ips := AList fun _ : String => Record

structure CacheController where
  disableCache : Bool
  serveStale : Bool
  serveExpiredTtlSecs : Int
  ips : Ips
  highWatermark : Nat

namespace CacheController

/-- `none` is a panic: the negation overflows and the build checks for that. -/
def new (overflowChecks disableCache serveStale : Bool) (serveExpiredTtl : UInt32) :
    Option CacheController :=
  let ttl := asI32 serveExpiredTtl.toNat
  if overflowChecks ∧ ttl = -0x80000000 then none
  else some ⟨disableCache, serveStale, asI32 (-ttl), ∅, 0⟩

def findRecords (c : CacheController) (key : String) : Option Record := c.ips.lookup key

def upsert (c : CacheController) (key : String) (isV4 : Bool) (record : IpRecord) :
    CacheController :=
  if c.disableCache then c
  else
    let entry := (c.ips.lookup key).getD ⟨none, none⟩
    let entry :=
      if isV4 then { entry with a := some record } else { entry with aaaa := some record }
    { c with ips := c.ips.insert key entry }

def staleLoop (ceilSecs : Nat → Nat) (now : Instant) :
    List (Bool × Option IpRecord) → List IpAddr → Int → Option (List IpAddr × Int)
  | [], allIps, ttl => if allIps = [] then none else some (allIps, ttl)
  | (false, _) :: families, allIps, ttl => staleLoop ceilSecs now families allIps ttl
  | (true, none) :: _, _, _ => none
  | (true, some r) :: families, allIps, ttl =>
    if r.rcode ≠ 0 ∨ r.ips = [] then none
    else
      staleLoop ceilSecs now families (allIps ++ r.ips)
        (min ttl (rawTtlSeconds ceilSecs r.expire now))

def staleResult (ceilSecs : Nat → Nat) (rec : Record) (option : IpOption) (now : Instant) :
    Option (List IpAddr × Int) :=
  staleLoop ceilSecs now [(option.ipv4Enable, rec.a), (option.ipv6Enable, rec.aaaa)] []
    0x7fffffff

def queryCached (ceilSecs : Nat → Nat) (c : CacheController) (domain : String)
    (option : IpOption) (now : Instant) : Option (Except DnsError (List IpAddr × Nat)) :=
  if c.disableCache then none
  else
    match c.findRecords (fqdn domain) with
    | none => none
    | some rec =>
      let (ips, ttl, err) := mergeRecords ceilSecs option rec.a rec.aaaa now
      if err = some .recordNotFound then none
      else if 0 < ttl then
        match err with
        | none => some (.ok (ips, ttl.toNat))
        | some e => some (.error e)
      else if c.serveStale ∧ (c.serveExpiredTtlSecs = 0 ∨ c.serveExpiredTtlSecs < ttl) then
        (staleResult ceilSecs rec option now).map fun (sips, _) => .ok (sips, 1)
      else none

def effectiveNow (c : CacheController) (now : Instant) : Instant :=
  if c.serveStale ∧ c.serveExpiredTtlSecs ≠ 0 then now - c.serveExpiredTtlSecs.natAbs * second
  else now

def expired (time : Instant) (rec : Option IpRecord) : Bool := rec.any (·.expire < time)

def unexpired (time : Instant) (rec : Option IpRecord) : Option IpRecord :=
  if expired time rec then none else rec

def collectExpiredKeys (c : CacheController) (now : Instant) : List String :=
  if c.ips.entries = [] then []
  else
    (c.ips.entries.filter fun e =>
      expired (c.effectiveNow now) e.2.a || expired (c.effectiveNow now) e.2.aaaa).map (·.1)

def removeExpired (time : Instant) (ips : Ips) (key : String) : Ips :=
  match ips.lookup key with
  | none => ips
  | some rec =>
    if expired time rec.a || expired time rec.aaaa then
      let rec' : Record := ⟨unexpired time rec.a, unexpired time rec.aaaa⟩
      if rec'.a.isNone && rec'.aaaa.isNone then ips.erase key else ips.insert key rec'
    else ips

/-- The keys are checked again, at the time of the collection. Shrinking keeps the entries. -/
def cleanupAndMaybeShrink (floats : Floats) (c : CacheController) (expiredKeys : List String)
    (now : Instant) : Bool × CacheController :=
  let high := max c.highWatermark c.ips.entries.length
  let ips := expiredKeys.foldl (removeExpired (c.effectiveNow now)) c.ips
  let lenAfter := ips.entries.length
  if lenAfter = 0 then
    if 512 ≤ high then (true, { c with ips := ∅, highWatermark := 0 })
    else (false, { c with ips := ips, highWatermark := high })
  else
    let reduction := high - lenAfter
    (reduction > 10240 && floats.exceedsRatio reduction high,
      { c with ips := ips, highWatermark := high })

inductive Update
  | upsert (key : String) (isV4 : Bool) (record : IpRecord)
  | cleanup (expiredKeys : List String) (now : Instant)

def Update.run (floats : Floats) (c : CacheController) : Update → CacheController
  | .upsert key isV4 record => c.upsert key isV4 record
  | .cleanup expiredKeys now => (c.cleanupAndMaybeShrink floats expiredKeys now).2

/-- `run_cleanup`, with the updates between its two locks. -/
def runCleanup (floats : Floats) (c : CacheController) (updates : List Update) (now : Instant) :
    (Bool × Bool) × CacheController :=
  let expired := c.collectExpiredKeys now
  let hasExpired := !expired.isEmpty
  let c := updates.foldl (Update.run floats) c
  let (shrunk, c) := c.cleanupAndMaybeShrink floats expired now
  ((hasExpired, shrunk), c)

def find (c : CacheController) (key : String) (family : Family) : Option IpRecord :=
  (c.findRecords key).bind (·.get family)

structure Servable (ceilSecs : Nat → Nat) (c : CacheController) (now : Instant) (domain : String)
    (family : Family) (r : IpRecord) : Prop where
  found : c.find (fqdn domain) family = some r
  answers : ∃ option : IpOption, option.enables family = true ∧
    (c.queryCached ceilSecs domain option now).isSome = true

/-- The removal, at a time that is not before the time of the cleanup, takes no record that a
query would answer from. -/
def KeepsServable (floats : Floats) (c : CacheController) : Prop :=
  ∀ (updates : List Update) (now time : Instant), now ≤ time → ∀ domain family r,
    (updates.foldl (Update.run floats) c).Servable floats.ceilSecs time domain family r →
      (c.runCleanup floats updates now).2.find (fqdn domain) family = some r

section Removal

variable {time : Instant} {ips : Ips} {key : String} {family : Family}

def recordIn (ips : Ips) (key : String) (family : Family) : Option IpRecord :=
  (ips.lookup key).bind (·.get family)

theorem recordIn_insert_self (rec : Record) :
    recordIn (ips.insert key rec) key family = rec.get family := by
  simp [recordIn]

theorem recordIn_removeExpired_of_ne (h : key' ≠ key) :
    recordIn (removeExpired time ips key) key' family = recordIn ips key' family := by
  unfold removeExpired recordIn
  split
  · rfl
  dsimp only
  split
  · split
    · rw [AList.lookup_erase_ne h]
    · rw [AList.lookup_insert_ne h]
  · rfl

theorem recordIn_removeExpired_self : recordIn (removeExpired time ips key) key family =
      unexpired time (recordIn ips key family) := by
  unfold removeExpired
  cases hr : ips.lookup key with
  | none => simp [recordIn, hr, unexpired]
  | some rec =>
    have hold : recordIn ips key family = rec.get family := by simp [recordIn, hr]
    dsimp only
    split
    next =>
      split
      next hn =>
        have hg : unexpired time (rec.get family) = none := by
          rw [Bool.and_eq_true, Option.isNone_iff_eq_none, Option.isNone_iff_eq_none] at hn
          cases family with
          | v4 => exact hn.1
          | v6 => exact hn.2
        rw [hold, hg]
        simp [recordIn]
      next =>
        rw [recordIn_insert_self, hold]
        cases family <;> rfl
    next hf =>
      rw [Bool.or_eq_true, not_or] at hf
      rw [hold, unexpired, if_neg]
      cases family with
      | v4 => exact hf.1
      | v6 => exact hf.2

theorem unexpired_unexpired (rec : Option IpRecord) :
    unexpired time (unexpired time rec) = unexpired time rec := by
  by_cases h : expired time rec = true
  · have hn : unexpired time rec = none := if_pos h
    rw [hn]
    rfl
  · have hsome : unexpired time rec = rec := if_neg h
    rw [hsome, hsome]

theorem recordIn_foldl_removeExpired (keys : List String) :
    recordIn (keys.foldl (removeExpired time) ips) key family =
      if key ∈ keys then unexpired time (recordIn ips key family) else recordIn ips key family := by
  induction keys generalizing ips with
  | nil => rfl
  | cons key' keys ih =>
    rw [foldl_cons, ih]
    obtain rfl | hne := eq_or_ne key key'
    · simp [recordIn_removeExpired_self, unexpired_unexpired]
    · simp [recordIn_removeExpired_of_ne hne, hne]

theorem find_cleanupAndMaybeShrink (floats : Floats) (c : CacheController) (keys : List String)
    (now : Instant) (key : String) (family : Family) :
    (c.cleanupAndMaybeShrink floats keys now).2.find key family =
      if key ∈ keys then unexpired (c.effectiveNow now) (c.find key family)
      else c.find key family := by
  refine Eq.trans ?_ (recordIn_foldl_removeExpired keys)
  unfold cleanupAndMaybeShrink
  dsimp only
  split
  next he =>
    split
    next =>
      have hi : keys.foldl (removeExpired (c.effectiveNow now)) c.ips = ∅ :=
        AList.ext (length_eq_zero_iff.mp he)
      rw [hi]
      rfl
    next => rfl
  next => rfl

end Removal

section Served

variable {floats : Floats} {c : CacheController} {now time : Instant} {domain : String}
  {family : Family} {r : IpRecord}

theorem Servable.spec (h : c.Servable floats.ceilSecs now domain family r) :
    c.disableCache = false ∧ (0 < rawTtlSeconds floats.ceilSecs r.expire now ∨
      c.serveStale = true ∧ (c.serveExpiredTtlSecs = 0 ∨
        c.serveExpiredTtlSecs < rawTtlSeconds floats.ceilSecs r.expire now)) := by
  obtain ⟨hf, o, he, ha⟩ := h
  unfold find at hf
  unfold queryCached at ha
  cases hr : c.findRecords (fqdn domain) with
  | none => simp [hr] at hf
  | some rec =>
    rw [hr, Option.bind_some] at hf
    rw [hr] at ha
    split at ha
    next => cases ha
    next hc =>
      refine ⟨Bool.eq_false_of_not_eq_true hc, ?_⟩
      dsimp only at ha
      split at ha
      next => cases ha
      next her =>
        have hle := mergeRecords_ttl_le her he hf
        split at ha
        next hfr => exact .inl (hfr.trans_le hle)
        next =>
          split at ha
          next hs =>
            exact .inr ⟨hs.1, hs.2.imp_right fun hlt => hlt.trans_le hle⟩
          next => cases ha

theorem rawTtlSeconds_le (hl : floats.Lawful) {expire now : Int} {secs : Nat}
    (hs : secs < 2 ^ 31) (h : expire + secs * second < now) :
    rawTtlSeconds floats.ceilSecs expire now ≤ -secs ∧
      rawTtlSeconds floats.ceilSecs expire now < 0 := by
  rw [second] at h
  have hpo : 0 < floats.ceilSecs (now - expire).toNat := hl.pos _ (by omega)
  have hle : secs ≤ floats.ceilSecs (now - expire).toNat := hl.le _ _ (by omega) (by omega)
  have hp : ¬now ≤ expire := by omega
  rw [rawTtlSeconds, if_neg hp]
  omega

theorem effectiveNow_le : c.effectiveNow now ≤ now := by
  unfold effectiveNow
  split
  · exact Int.sub_le_self _ (Int.mul_nonneg (Int.natCast_nonneg _) (by decide))
  · exact Int.le_refl now

theorem not_servable_of_expired (hl : floats.Lawful) (hle : now ≤ time) (hse : c.serveStale = true →
      c.serveExpiredTtlSecs ≠ 0 ∧ -0x80000000 < c.serveExpiredTtlSecs)
    (he : r.expire < c.effectiveNow now) : ¬c.Servable floats.ceilSecs time domain family r := by
  intro hsr
  have hp : ∀ secs : Nat, secs < 2 ^ 31 → r.expire < now - secs * second →
      rawTtlSeconds floats.ceilSecs r.expire time ≤ -secs ∧
        rawTtlSeconds floats.ceilSecs r.expire time < 0 := by
    intro secs hsc hlt
    exact rawTtlSeconds_le hl hsc ((Int.add_lt_of_lt_sub_right hlt).trans_le hle)
  have hn : rawTtlSeconds floats.ceilSecs r.expire time < 0 :=
    (hp 0 (by decide) (by simpa using he.trans_le effectiveNow_le)).2
  obtain ⟨-, hf | ⟨hs, hg⟩⟩ := hsr.spec
  · omega
  obtain ⟨hne, hlo⟩ := hse hs
  -- the grace is above a negative time, so it was stored as a negative number
  rw [effectiveNow, if_pos ⟨hs, hne⟩] at he
  obtain ⟨ho, -⟩ := hp c.serveExpiredTtlSecs.natAbs (by omega) he
  omega

end Served

def settings (c : CacheController) : Bool × Bool × Int :=
  (c.disableCache, c.serveStale, c.serveExpiredTtlSecs)

section Updates

variable (floats : Floats) (c : CacheController)

theorem settings_cleanup (expiredKeys : List String) (now : Instant) :
    (c.cleanupAndMaybeShrink floats expiredKeys now).2.settings = c.settings := by
  unfold cleanupAndMaybeShrink
  dsimp only
  split
  · split <;> rfl
  · rfl

theorem settings_upsert (key : String) (isV4 : Bool) (record : IpRecord) :
    (c.upsert key isV4 record).settings = c.settings := by
  unfold upsert
  split <;> rfl

theorem settings_foldl (updates : List Update) :
    (updates.foldl (Update.run floats) c).settings = c.settings := by
  induction updates generalizing c with
  | nil => rfl
  | cons u updates ih =>
    rw [foldl_cons, ih]
    cases u with
    | upsert key isV4 r => exact settings_upsert c key isV4 r
    | cleanup ek now => exact settings_cleanup floats c ek now

end Updates

theorem asI32_eq (n : Int) : asI32 n = if n % 0x100000000 < 0x80000000 then n % 0x100000000
      else n % 0x100000000 - 0x100000000 :=
  Int.bmod_def n (2 ^ 32)

theorem asI32_neg_asI32 (n : Nat) (hn : n < 2 ^ 32) :
    (asI32 (-asI32 n) = 0 ↔ n = 0) ∧ (asI32 (-asI32 n) = -0x80000000 ↔ n = 2 ^ 31) ∧
      -0x80000000 ≤ asI32 (-asI32 n) := by
  rw [asI32_eq, asI32_eq]
  split <;> split <;> omega

/-- A new controller: of the grace only the zero and the smallest number are not negated. -/
structure Configured (c : CacheController) (disableCache serveStale : Bool)
    (serveExpiredTtl : UInt32) : Prop where
  disableCache : c.disableCache = disableCache
  serveStale : c.serveStale = serveStale
  zero_iff : c.serveExpiredTtlSecs = 0 ↔ serveExpiredTtl = 0
  min_iff : c.serveExpiredTtlSecs = -0x80000000 ↔ serveExpiredTtl = 0x80000000
  le : -0x80000000 ≤ c.serveExpiredTtlSecs

theorem configured_of_new {overflowChecks disableCache serveStale : Bool}
    {serveExpiredTtl : UInt32} {c : CacheController}
    (hnew : new overflowChecks disableCache serveStale serveExpiredTtl = some c) :
    c.Configured disableCache serveStale serveExpiredTtl := by
  obtain ⟨-, hnew⟩ := Option.ite_none_left_eq_some.mp hnew
  obtain rfl := Option.some.inj hnew
  obtain ⟨hz, hm, hle⟩ := asI32_neg_asI32 serveExpiredTtl.toNat serveExpiredTtl.toNat_lt
  have hs : (0x80000000 : UInt32).toNat = 2 ^ 31 := by decide
  rw [← hs, UInt32.toNat_inj] at hm
  have hn : serveExpiredTtl.toNat = 0 ↔ serveExpiredTtl = 0 := by
    rw [← UInt32.toNat_inj, UInt32.toNat_zero]
  rw [hn] at hz
  refine ⟨rfl, rfl, ?_, ?_, ?_⟩ <;> dsimp only
  · exact hz
  · exact hm
  · exact hle

section Settings

variable {floats : Floats} {c : CacheController}

theorem keepsServable (hl : floats.Lawful) (hst : c.disableCache = false → c.serveStale = true →
      c.serveExpiredTtlSecs ≠ 0 ∧ -0x80000000 < c.serveExpiredTtlSecs) :
    KeepsServable floats c := by
  intro u now time hle d f r hse
  have hs := settings_foldl floats c u
  simp only [settings, Prod.mk.injEq] at hs
  rw [← hs.1, ← hs.2.1, ← hs.2.2] at hst
  have hk : unexpired ((u.foldl (Update.run floats) c).effectiveNow now) (some r) = some r := by
    refine if_neg fun he => ?_
    exact not_servable_of_expired hl hle (hst hse.spec.1) (of_decide_eq_true he) hse
  have hf := find_cleanupAndMaybeShrink floats (u.foldl (Update.run floats) c)
    (c.collectExpiredKeys now) now (fqdn d) f
  rw [hse.found, hk, ite_self] at hf
  exact hf

def longExpired : IpRecord := ⟨[.v4 (.new 10 0 0 1)], -0x80000000 * second - 1, 0⟩

theorem ttl_longExpired (ceilSecs : Nat → Nat) : rawTtlSeconds ceilSecs longExpired.expire 0 ≤ 0 ∧
      -0x80000000 < rawTtlSeconds ceilSecs longExpired.expire 0 := by
  have hp : ¬(0 : Int) ≤ longExpired.expire := by decide
  rw [rawTtlSeconds, if_neg hp]
  omega

theorem mergeRecords_longExpired (ceilSecs : Nat → Nat) :
    mergeRecords ceilSecs ⟨true, false⟩ (some longExpired) none 0 =
      (longExpired.ips, rawTtlSeconds ceilSecs longExpired.expire 0, none) := rfl

theorem staleResult_longExpired (ceilSecs : Nat → Nat) :
    staleResult ceilSecs ⟨some longExpired, none⟩ ⟨true, false⟩ 0 =
      some (longExpired.ips, min 0x7fffffff (rawTtlSeconds ceilSecs longExpired.expire 0)) := rfl

theorem queryCached_longExpired (hc : c.disableCache = false) (hs : c.serveStale = true)
    (hg : c.serveExpiredTtlSecs = 0 ∨ c.serveExpiredTtlSecs = -0x80000000)
    (hf : c.findRecords (fqdn "a.") = some ⟨some longExpired, none⟩) :
    c.queryCached floats.ceilSecs "a." ⟨true, false⟩ 0 = some (.ok (longExpired.ips, 1)) := by
  obtain ⟨hn, hl⟩ := ttl_longExpired floats.ceilSecs
  have hserves : c.serveStale = true ∧ (c.serveExpiredTtlSecs = 0 ∨
      c.serveExpiredTtlSecs < rawTtlSeconds floats.ceilSecs longExpired.expire 0) :=
    ⟨hs, hg.imp_right fun hm => hm.trans_lt hl⟩
  unfold queryCached
  rw [hc, hf]
  dsimp only
  rw [mergeRecords_longExpired, staleResult_longExpired, if_neg (by decide), if_neg nofun,
    if_neg (Int.not_lt.mpr hn), if_pos hserves]
  rfl

theorem not_keepsServable (hca : c.disableCache = false) (hs : c.serveStale = true)
    (hg : c.serveExpiredTtlSecs = 0 ∨ c.serveExpiredTtlSecs = -0x80000000) :
    ¬KeepsServable floats { c with ips := .singleton "a." ⟨some longExpired, none⟩ } := by
  intro hk
  generalize hc : { c with ips := .singleton "a." ⟨some longExpired, none⟩ } = c' at hk
  have hi : c'.ips = .singleton "a." ⟨some longExpired, none⟩ := by rw [← hc]
  obtain ⟨hca, hs, hg⟩ : c'.disableCache = false ∧ c'.serveStale = true ∧
      (c'.serveExpiredTtlSecs = 0 ∨ c'.serveExpiredTtlSecs = -0x80000000) := by
    rw [← hc]
    exact ⟨hca, hs, hg⟩
  have hf : c'.findRecords (fqdn "a.") = some ⟨some longExpired, none⟩ := by
    rw [findRecords, hi]
    rfl
  have hse : c'.Servable floats.ceilSecs 0 "a." .v4 longExpired :=
    ⟨by rw [find, hf]; rfl, ⟨true, false⟩, rfl, by
      rw [queryCached_longExpired hca hs hg hf]; rfl⟩
  have he : expired (c'.effectiveNow 0) (some longExpired) = true := by
    unfold effectiveNow
    obtain hg | hg := hg
    · rw [hg, if_neg (by simp)]
      decide
    · rw [hg, if_pos ⟨hs, by decide⟩]
      decide
  have hke := hk [] 0 0 (Int.le_refl 0) _ _ _ hse
  have hky : fqdn "a." ∈ c'.collectExpiredKeys 0 := by
    rw [collectExpiredKeys, hi, if_neg (by decide), mem_map]
    exact ⟨⟨"a.", some longExpired, none⟩,
      mem_filter.mpr ⟨mem_singleton_self _, by rw [he]; rfl⟩, rfl⟩
  have hfi := find_cleanupAndMaybeShrink floats c' (c'.collectExpiredKeys 0) 0 (fqdn "a.") .v4
  rw [if_pos hky, hse.found, unexpired, if_pos he] at hfi
  cases hfi.symm.trans hke

end Settings

/-- The cleanup keeps what can be served, in every state and with all updates between its locks,
exactly if the cache is not in use, nothing stale is served, or the grace is limited and its
negation is another number. -/
theorem keeps_servable_iff {floats : Floats} (hlaws : floats.Lawful)
    {overflowChecks disableCache serveStale : Bool} {serveExpiredTtl : UInt32}
    {c : CacheController}
    (hnew : new overflowChecks disableCache serveStale serveExpiredTtl = some c) :
    (∀ ips high, KeepsServable floats { c with ips := ips, highWatermark := high }) ↔
      disableCache = true ∨ serveStale = false ∨
        serveExpiredTtl ≠ 0 ∧ serveExpiredTtl ≠ 0x80000000 := by
  have hconf := configured_of_new hnew
  rw [← hconf.disableCache, ← hconf.serveStale, Ne, Ne, ← hconf.zero_iff, ← hconf.min_iff]
  constructor
  · intro hkeeps
    by_contra hnot
    simp only [not_or, Bool.not_eq_true, Bool.not_eq_false, not_and_or, not_not] at hnot
    obtain ⟨hcache, hstale, hgrace⟩ := hnot
    exact not_keepsServable hcache hstale hgrace (hkeeps _ _)
  · intro hsettings ips high
    refine keepsServable hlaws fun hcache hstale => ?_
    have hle := hconf.le
    obtain hcache' | hstale' | hgrace := hsettings
    · exact absurd (hcache'.symm.trans hcache) (by decide)
    · exact absurd (hstale'.symm.trans hstale) (by decide)
    · exact ⟨hgrace.1, lt_of_le_of_ne hle (Ne.symm hgrace.2)⟩

def unrounded : Floats :=
  ⟨fun nanos => (nanos + 999999999) / 1000000000, fun reduction high => 65 * high < 100 * reduction⟩

theorem unrounded_lawful : unrounded.Lawful where
  pos nanos hp := by
    change 0 < (nanos + 999999999) / 1000000000
    omega
  le secs nanos _ hle := by
    change secs ≤ (nanos + 999999999) / 1000000000
    omega

def atTen : IpRecord := ⟨[.v4 (.new 10 0 0 1)], 10 * second, 0⟩

/-- Without a limit, one second after a record has expired a query answers from it and the cleanup
removes it. With the smallest `i32` that is so after so many seconds. -/
theorem removes_servable : (∃ c ∈ new true false true 0,
      ((c.upsert "a.com." true atTen).queryCached unrounded.ceilSecs "a.com" ⟨true, false⟩
        (11 * second)).isSome = true ∧
      ((c.upsert "a.com." true atTen).runCleanup unrounded [] (11 * second)).2.find "a.com." .v4 =
        none) ∧ (∃ c ∈ new false false true 0x80000000,
      ((c.upsert "a.com." true atTen).queryCached unrounded.ceilSecs "a.com" ⟨true, false⟩
        (0x8000000b * second)).isSome = true ∧
      ((c.upsert "a.com." true atTen).runCleanup unrounded [] (0x8000000b * second)).2.find "a.com."
        .v4 = none) := by
  decide +kernel

/-- A grace of one minute. -/
theorem keeps_servable_one_minute : ∃ c, new true false true 60 = some c ∧
      ∀ ips high, KeepsServable unrounded { c with ips := ips, highWatermark := high } := by
  obtain ⟨c, hnew⟩ := Option.isSome_iff_exists.mp
    (by decide +kernel : (new true false true 60).isSome = true)
  exact ⟨c, hnew, (keeps_servable_iff unrounded_lawful hnew).mpr (.inr (.inr (by decide)))⟩

end CacheController

end XrayCore.Dns
