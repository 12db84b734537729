import XrayCore.Lib.BigEndian
import XrayCore.Lib.TwoPools

/-!
# AuthIDs of VMess

A VMess request starts with 16 bytes that decrypt, under the key of one user, to a timestamp, four
random bytes and a checksum. The server tries its users, checks the timestamp against its clock, up
to 120 s either way, and asks a filter of two pools that rotate every 120 s. So the clock accepts an
AuthID for up to 241 s, and the filter remembers it for 120 s.
-/

namespace XrayCore.Vmess

open Lib

abbrev MapFilter (α : Type) := TwoPools α

namespace MapFilter

def new {α : Type} (intervalSecs now : Nat) : MapFilter α :=
  TwoPools.new (intervalSecs * second) now

def check {α : Type} [DecidableEq α] (filter : MapFilter α) (now : Nat) (value : α) :
    Bool × MapFilter α :=
  TwoPools.check filter now value

end MapFilter

/-- What comes from libraries: the key derivation, AES-128 on a block and the checksum. -/
structure AuthLibrary where
  kdf16 : Bytes → String → Bytes
  aesDecrypt : Bytes → Bytes → Bytes
  crc32 : Bytes → UInt32

structure AuthIDDecoderItem where
  decoderKey : Bytes
  aesKey : Bytes

def AuthIDDecoderItem.new (lib : AuthLibrary) (decoderKey : Bytes) : AuthIDDecoderItem :=
  ⟨decoderKey, lib.kdf16 decoderKey "AES Auth ID Encryption"⟩

def AuthIDDecoderItem.decode (lib : AuthLibrary) (item : AuthIDDecoderItem) (authId : Bytes) :
    Int × UInt32 × Int × Bytes :=
  let data := lib.aesDecrypt item.aesKey authId
  ((u64At data 0).toBitVec.toInt, u32At data 12, (u32At data 8).toBitVec.toInt, data)

inductive AuthIDMatchError
  | negativeTime
  | invalidTime
  | replay
  | notFound
  deriving DecidableEq, Repr

structure AuthIDDecoderHolder where
  items : List Bytes
  replayFilter : MapFilter Bytes

namespace AuthIDDecoderHolder

/-- The loop of `match_auth_id`: the first user under whose key the checksum is right
decides. `now` are the seconds of the wall clock, `filterNow` is the monotonic clock. -/
def matchItems (lib : AuthLibrary) (authId : Bytes) (now : Int) (filterNow : Nat)
    (filter : MapFilter Bytes) : List Bytes → Except AuthIDMatchError Bytes × MapFilter Bytes
  | [] => (.error .notFound, filter)
  | key :: items =>
    let (t, crc, _, decrypted) := (AuthIDDecoderItem.new lib key).decode lib authId
    if lib.crc32 (decrypted.take 12) ≠ crc then matchItems lib authId now filterNow filter items
    else if t < 0 then (.error .negativeTime, filter)
    else if 120 < (t - now).natAbs then (.error .invalidTime, filter)
    else
      let (fresh, filter) := filter.check filterNow authId
      if !fresh then (.error .replay, filter) else (.ok key, filter)

def matchAuthId (lib : AuthLibrary) (holder : AuthIDDecoderHolder) (authId : Bytes) (now : Int)
    (filterNow : Nat) : Except AuthIDMatchError Bytes × AuthIDDecoderHolder :=
  let r := matchItems lib authId now filterNow holder.replayFilter holder.items
  (r.1, { holder with replayFilter := r.2 })

/-- The user whose key the AuthID was made with, if its timestamp is accepted: what
`match_auth_id` decides before it asks the filter. -/
def candidate (lib : AuthLibrary) (authId : Bytes) (now : Int) : List Bytes → Option Bytes
  | [] => none
  | key :: items =>
    let (t, crc, _, decrypted) := (AuthIDDecoderItem.new lib key).decode lib authId
    if lib.crc32 (decrypted.take 12) ≠ crc then candidate lib authId now items
    else if t < 0 ∨ 120 < (t - now).natAbs then none
    else some key

theorem matchItems_eq (lib : AuthLibrary) (authId : Bytes) (now : Int) (filterNow : Nat)
    (filter : MapFilter Bytes) (items : List Bytes) : match candidate lib authId now items with
    | none => (matchItems lib authId now filterNow filter items).2 = filter ∧
        (matchItems lib authId now filterNow filter items).1.toOption = none
    | some key => matchItems lib authId now filterNow filter items =
        (if (filter.check filterNow authId).1 then .ok key else .error .replay,
          (filter.check filterNow authId).2) := by
  induction items with
  | nil => exact ⟨rfl, rfl⟩
  | cons key items ih =>
    simp only [candidate, matchItems]
    generalize (AuthIDDecoderItem.new lib key).decode lib authId = decoded
    obtain ⟨t, crc, _, d⟩ := decoded
    by_cases hc : lib.crc32 (d.take 12) = crc
    · by_cases hn : t < 0
      · simp [hc, hn, Except.toOption]
      · by_cases hold : 120 < (t - now).natAbs
        · simp [hc, hn, hold, Except.toOption]
        · cases hf : (filter.check filterNow authId).1 <;> simp [hc, hn, hold]
    · simp only [ne_eq, hc, not_false_eq_true, if_true]
      exact ih

end AuthIDDecoderHolder

/-- One call: the AuthID, the users at that time in any order, and the times at which the
timestamp is checked and at which the filter is asked. -/
structure AuthCall where
  authId : Bytes
  users : List Bytes
  checkedAt : Nat
  reachedAt : Nat

namespace AuthReplay

abbrev Server := Gate Bytes Bytes

def authInterval : Nat := 120 * second

def Server.new (start : Nat) : Server := ⟨MapFilter.new 120 start, []⟩

section

variable (lib : AuthLibrary) (boot : Nat)

def wallSeconds (t : Nat) : Int := ((boot + t) / second : Nat)

def step (s : Server) (c : AuthCall) : Server :=
  let holder : AuthIDDecoderHolder := ⟨c.users, s.filter⟩
  match holder.matchAuthId lib c.authId (wallSeconds boot c.checkedAt) c.reachedAt with
  | (.ok _, holder) => ⟨holder.replayFilter, (c.reachedAt, c.authId) :: s.accepted⟩
  | (.error _, holder) => ⟨holder.replayFilter, s.accepted⟩

def reaching (c : AuthCall) : Option Bytes :=
  (AuthIDDecoderHolder.candidate lib c.authId (wallSeconds boot c.checkedAt) c.users).map
    fun _ => c.authId

def NoReplay (s : Server) : Prop := s.Once id

/-- An accepted AuthID that comes again with a timestamp still accepted comes within 120 s. -/
def Timely (s : Server) (c : AuthCall) : Prop :=
  s.Timely id authInterval c.reachedAt (reaching lib boot c)

instance (s : Server) : Decidable (NoReplay s) := inferInstanceAs (Decidable (Gate.Once _ _))

instance (s : Server) (c : AuthCall) : Decidable (Timely lib boot s c) :=
  inferInstanceAs (Decidable (Gate.Timely _ _ _ _ _))

variable {lib} {boot}

theorem step_eq_letIn (s : Server) (c : AuthCall) :
    step lib boot s c = s.letIn id c.reachedAt (reaching lib boot c) := by
  have hm := AuthIDDecoderHolder.matchItems_eq lib c.authId (wallSeconds boot c.checkedAt)
    c.reachedAt s.filter c.users
  unfold reaching step AuthIDDecoderHolder.matchAuthId
  dsimp only
  cases hc : AuthIDDecoderHolder.candidate lib c.authId (wallSeconds boot c.checkedAt) c.users
  with
  | none =>
    rw [hc] at hm
    obtain ⟨hf, hr⟩ := hm
    split
    · next heq =>
      obtain ⟨hok, -⟩ := Prod.mk.inj heq
      rw [hok] at hr
      cases hr
    · next heq =>
      obtain ⟨-, rfl⟩ := Prod.mk.inj heq
      simp [hf, Gate.letIn]
  | some key =>
    rw [hc] at hm
    rw [hm]
    cases hfr : (s.filter.check c.reachedAt c.authId).1 <;>
      simp [hfr, MapFilter.check, Gate.letIn]

/-- If every accepted AuthID that comes again does so within 120 s, none is accepted
twice. -/
theorem accepted_once (start : Nat) (calls : List AuthCall)
    (hclock : (start :: calls.map AuthCall.reachedAt).Pairwise (· ≤ ·))
    (hok : Guarded (step lib boot) (Timely lib boot) (Server.new start) calls) :
    Throughout (step lib boot) NoReplay (Server.new start) calls :=
  Gate.once_of_guarded step_eq_letIn (fun _ _ h => h) hclock hok (.new (by decide))

end

def clearLibrary : AuthLibrary := ⟨fun key _ => key, fun _ block => block, fun _ => 0⟩

def authIdOf (random : UInt32) : Bytes := be64 1000 ++ be32 random ++ be32 0

def promptly (random : UInt32) (t : Nat) : AuthCall := ⟨authIdOf random, [[7]], t, t⟩

/-- The filter is made at 760.1 s. The AuthID comes at 880 s, 120 s before its time, another one
rotates the pools at 880.1 s, and at 1000.1 s the first is accepted again. -/
theorem accepted_after_two_rotations :
    ¬NoReplay (runs (step clearLibrary 0) (Server.new 760100000000)
      [promptly 1 880000000000, promptly 2 880100000000, promptly 1 1000100000000]) := by
  decide +kernel

/-- The same AuthID 0.1 s earlier, 120 s after the first time, is refused. -/
theorem accepted_once_at_two_minutes :
    Throughout (step clearLibrary 0) NoReplay (Server.new 760100000000)
      [promptly 1 880000000000, promptly 2 880100000000, promptly 1 1000000000000] :=
  accepted_once _ _ (by decide +kernel) (by decide +kernel)

end AuthReplay

end XrayCore.Vmess
