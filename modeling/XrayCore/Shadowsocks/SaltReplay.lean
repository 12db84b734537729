import XrayCore.Shadowsocks.Inbound

/-!
# Replayed requests

A server over a sequence of connections, in the order in which they reach the salt filter. The wall
clock is the monotonic clock plus a constant; a connection may spend any time between the check of
its timestamp and the filter.

The filter remembers a salt for 60 s; a timestamp is accepted for up to 61 s, at a check before the
variable header has come. So a replay that reaches the filter late enough can succeed.
-/

namespace XrayCore.Shadowsocks

open Lib Crypto

/-- A connection: its bytes, and the times at which its timestamp is checked and at which
it reaches the filter. -/
structure Attempt where
  conn : Bytes
  checkedAt : Nat
  reachedAt : Nat

/-- What an attacker can repeat of a request: the salt and the two headers. -/
def Request.carried (r : Request) : Bytes × Bytes × Bytes :=
  (r.salt, r.headers.fixedPlain, r.headers.variablePlain)

def secondsAt (boot t : Nat) : UInt64 := UInt64.ofNat ((boot + t) / second)

namespace SaltReplay

abbrev Server := Gate Bytes Request

def Server.new (start : Nat) : Server := Gate.new REPLAY_WINDOW start

section

variable (L : Library) (inbound : Inbound) (boot : Nat)

def requestOf (a : Attempt) : Except SsError Request :=
  inbound.readRequest L (secondsAt boot a.checkedAt) a.conn

def step (s : Server) (a : Attempt) : Server :=
  match inbound.handleConn L s.filter a.conn (secondsAt boot a.checkedAt) a.reachedAt,
      requestOf L inbound boot a with
  | (.ok _, replay), .ok r => ⟨replay, (a.reachedAt, r) :: s.accepted⟩
  | (_, replay), _ => ⟨replay, s.accepted⟩

def NoReplay (s : Server) : Prop := s.Once Request.carried

/-- An attempt that repeats a completed request reaches the filter within 60 s of it. -/
def Timely (s : Server) (a : Attempt) : Prop :=
  s.Timely Request.carried REPLAY_WINDOW a.reachedAt (requestOf L inbound boot a).toOption

instance (s : Server) : Decidable (NoReplay s) := inferInstanceAs (Decidable (Gate.Once _ _))

instance (s : Server) (a : Attempt) : Decidable (Timely L inbound boot s a) :=
  inferInstanceAs (Decidable (Gate.Timely _ _ _ _ _))

variable {L} {inbound} {boot}

theorem step_eq_letIn (s : Server) (a : Attempt) : step L inbound boot s a =
      s.letIn Request.salt a.reachedAt (requestOf L inbound boot a).toOption := by
  unfold step Inbound.handleConn
  cases hr : requestOf L inbound boot a with
  | error e =>
    rw [requestOf] at hr
    simp [hr, Except.toOption, Gate.letIn]
  | ok r =>
    rw [requestOf] at hr
    cases hf : (s.filter.check a.reachedAt r.salt).1 <;>
      simp [hr, hf, SaltReplayFilter.check, Except.toOption, Gate.letIn]

/-- If every repetition of a completed request reaches the filter within 60 s of it, no
request completes twice. -/
theorem completes_once (start : Nat) (attempts : List Attempt)
    (hclock : (start :: attempts.map Attempt.reachedAt).Pairwise (· ≤ ·))
    (hok : Guarded (step L inbound boot) (Timely L inbound boot) (Server.new start) attempts) :
    Throughout (step L inbound boot) NoReplay (Server.new start) attempts := by
  -- requests that carry the same have the same salt
  have hkey : ∀ r r' : Request, r.carried = r'.carried → r.salt = r'.salt :=
    fun _ _ h => congrArg Prod.fst h
  exact Gate.once_of_guarded step_eq_letIn hkey hclock hok (.new (by decide))

end

def requestWire (salt : UInt8) : Bytes :=
  List.replicate 16 salt ++ (0 :: (be64 1000 ++ be16 9)) ++ zeroTag ++
    ([1, 1, 2, 3, 4] ++ be16 80 ++ be16 0) ++ zeroTag

def promptly (salt : UInt8) (t : Nat) : Attempt := ⟨requestWire salt, t, t⟩

def oneUser : Inbound := .single (List.replicate 16 7) .aes128Gcm "user"

/-- The filter is made at 910.6 s. The request comes at 970.5 s, another one rotates the pools at
970.6 s, and the first one comes again at 1030.6 s, in time by a clock that shows 1030, when a
second rotation drops the salt. -/
theorem replayed_after_two_rotations :
    ¬NoReplay (runs (step Library.clear oneUser 0) (Server.new 910600000000)
      [promptly 1 970500000000, promptly 2 970600000000, promptly 1 1030600000000]) := by
  decide +kernel

/-- The same replay 0.1 s earlier, 60 s after the request, is refused. -/
theorem completes_once_at_sixty_seconds :
    Throughout (step Library.clear oneUser 0) NoReplay (Server.new 910600000000)
      [promptly 1 970500000000, promptly 2 970600000000, promptly 1 1030500000000] := by
  exact completes_once _ _ (by decide +kernel) (by decide +kernel)

end SaltReplay

end XrayCore.Shadowsocks
