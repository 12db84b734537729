import XrayCore.Lib.BigEndian
import XrayCore.Lib.Transducer
import Mathlib.Data.Int.Bitwise

/-!
# Vision padding

VLESS Vision wraps content in blocks with a five-byte header and padding behind the content; the
first block follows the user's id. The decoder keeps four counters between the calls. Numbers are
the source's `i32` as integers, with the casts that can wrap written out.
-/

namespace XrayCore.Vless.Vision

open Lib List

def COMMAND_PADDING_CONTINUE : UInt8 := 0

def COMMAND_PADDING_END : UInt8 := 1

def COMMAND_PADDING_DIRECT : UInt8 := 2

def BUF_SIZE : Int := 2048

def asI32 (n : Int) : Int := n.bmod (2 ^ 32)

/-- `random_range(0..n)` when the generator comes up with `draw`; it panics on an
empty range. -/
def randomRange (draw : Nat) (n : UInt32) : Option Int :=
  if n = 0 then none else some (draw % n.toNat : Nat)

structure PaddingCall where
  content : Option Bytes
  command : UInt8
  longPadding : Bool
  seed : Fin 4 → UInt32
  draw : Nat

namespace PaddingCall

def payload (call : PaddingCall) : Bytes := call.content.getD []

def contentLen (call : PaddingCall) : Int := asI32 call.payload.length

def drawnLen (call : PaddingCall) : Option Int :=
  if call.contentLen < asI32 (call.seed 0).toNat ∧ call.longPadding then
    (randomRange call.draw (call.seed 1)).map fun n =>
      asI32 (asI32 (asI32 n + asI32 (call.seed 2).toNat) - call.contentLen)
  else (randomRange call.draw (call.seed 3)).map asI32

def paddingLen (call : PaddingCall) : Option Int :=
  call.drawnLen.map fun paddingLen =>
    let cap := BUF_SIZE - 21 - call.contentLen
    let paddingLen := if paddingLen > cap then cap else paddingLen
    if paddingLen < 0 then 0 else paddingLen

end PaddingCall

/-- One block on the wire, with the user's id in front while it has not been sent. -/
def xtlsPadding (call : PaddingCall) (userUuid : Option Bytes) : Option (Bytes × Option Bytes) :=
  call.paddingLen.map fun (paddingLen : Int) =>
    (userUuid.getD [] ++
      [call.command, UInt8.ofInt (call.contentLen >>> (8 : Nat)), UInt8.ofInt call.contentLen,
        UInt8.ofInt (paddingLen >>> (8 : Nat)), UInt8.ofInt paddingLen] ++
      call.payload ++ replicate paddingLen.toNat 0, none)

def padAll : Option Bytes → List PaddingCall → Option Bytes
  | _, [] => some []
  | userUuid, call :: calls => do
    let (block, userUuid) ← xtlsPadding call userUuid
    let rest ← padAll userUuid calls
    some (block ++ rest)

@[ext] structure DirectionState where
  remainingCommand : Int
  remainingContent : Int
  remainingPadding : Int
  currentCommand : Int
  deriving DecidableEq, Repr

namespace DirectionState

def Initial (s : DirectionState) : Prop :=
  s.remainingCommand = -1 ∧ s.remainingContent = -1 ∧ s.remainingPadding = -1

instance (s : DirectionState) : Decidable s.Initial := inferInstanceAs (Decidable (_ ∧ _))

def header (s : DirectionState) (data : UInt8) : DirectionState :=
  let s' :=
    if s.remainingCommand = 5 then { s with currentCommand := data.toNat }
    else if s.remainingCommand = 4 then { s with remainingContent := (data.toNat <<< 8 : Nat) }
    else if s.remainingCommand = 3 then
      { s with remainingContent := Int.lor s.remainingContent data.toNat }
    else if s.remainingCommand = 2 then { s with remainingPadding := (data.toNat <<< 8 : Nat) }
    else if s.remainingCommand = 1 then
      { s with remainingPadding := Int.lor s.remainingPadding data.toNat }
    else s
  { s' with remainingCommand := s.remainingCommand - 1 }

/-- How much of what is left belongs to a counter; `none` where the cast of the length is negative
and the arithmetic after it overflows. -/
def taken (remaining : Int) (left : Nat) : Option Nat :=
  let len := min remaining (asI32 left)
  if len < 0 then none else some len.toNat

def pass (s : DirectionState) (left : Bytes) : Option (DirectionState × Bytes × Bytes) :=
  if s.remainingCommand > 0 then
    match left with
    | [] => none
    | data :: left => some (s.header data, left, [])
  else if s.remainingContent > 0 then
    (taken s.remainingContent left.length).map fun (len : Nat) =>
      ({ s with remainingContent := s.remainingContent - len }, left.drop len, left.take len)
  else
    (taken s.remainingPadding left.length).map fun (len : Nat) =>
      ({ s with remainingPadding := s.remainingPadding - len }, left.drop len, [])

def Complete (s : DirectionState) : Prop :=
  s.remainingCommand ≤ 0 ∧ s.remainingContent ≤ 0 ∧ s.remainingPadding ≤ 0

instance (s : DirectionState) : Decidable s.Complete := inferInstanceAs (Decidable (_ ∧ _))

def reset (s : DirectionState) : DirectionState := ⟨-1, -1, -1, s.currentCommand⟩

/-- The loop over what is left of a chunk: the state behind it and the content.
`none` when the index arithmetic fails, or the passes allowed are used up. -/
def loop : Nat → DirectionState → Bytes → Option (DirectionState × Bytes)
  | _, s, [] => some (s, [])
  | 0, _, _ :: _ => none
  | fuel + 1, s, left@(_ :: _) =>
    match s.pass left with
    | none => none
    | some (s, left, out) =>
      if s.Complete then
        if s.currentCommand = COMMAND_PADDING_CONTINUE.toNat then
          (loop fuel { s with remainingCommand := 5 } left).map fun r => (r.1, out ++ r.2)
        else some (s.reset, out ++ left)
      else (loop fuel s left).map fun r => (r.1, out ++ r.2)

end DirectionState

open DirectionState

def xtlsUnpadding (fuel : Nat) (userUuid : Bytes) (s : DirectionState) (buf : Bytes) :
    Option (DirectionState × Bytes) :=
  if s.Initial then
    if buf.length ≥ 21 ∧ userUuid.length = 16 ∧ buf.take 16 = userUuid then
      loop fuel { s with remainingCommand := 5 } (buf.drop 16)
    else some (s, buf)
  else loop fuel s buf

def unpadAll (fuel : Nat) (userUuid : Bytes) :
    DirectionState → List Bytes → Option (DirectionState × Bytes) :=
  Transducer.runAll (xtlsUnpadding fuel userUuid)

def loopPasses : Nat → DirectionState → Bytes → List (DirectionState × Bytes)
  | _, _, [] => []
  | 0, _, _ :: _ => []
  | fuel + 1, s, left@(_ :: _) =>
    (s, left) ::
      match s.pass left with
      | none => []
      | some (s, left, _) =>
        if s.Complete then
          if s.currentCommand = COMMAND_PADDING_CONTINUE.toNat then
            loopPasses fuel { s with remainingCommand := 5 } left
          else []
        else loopPasses fuel s left

def callPasses (fuel : Nat) (userUuid : Bytes) (s : DirectionState) (buf : Bytes) :
    List (DirectionState × Bytes) :=
  if s.Initial then
    if buf.length ≥ 21 ∧ userUuid.length = 16 ∧ buf.take 16 = userUuid then
      loopPasses fuel { s with remainingCommand := 5 } (buf.drop 16)
    else []
  else loopPasses fuel s buf

def allPasses (fuel : Nat) (userUuid : Bytes) :
    DirectionState → List Bytes → List (DirectionState × Bytes)
  | _, [] => []
  | s, buf :: chunks =>
    callPasses fuel userUuid s buf ++ match xtlsUnpadding fuel userUuid s buf with
      | none => []
      | some (s, _) => allPasses fuel userUuid s chunks

def Consumes (p : DirectionState × Bytes) : Prop :=
  ∃ s left out, p.1.pass p.2 = some (s, left, out) ∧ left.length < p.2.length

namespace DirectionState

def finish (s : DirectionState) : DirectionState :=
  if s.Complete then
    if s.currentCommand = COMMAND_PADDING_CONTINUE.toNat then { s with remainingCommand := 5 }
    else s.reset
  else s

def readByte (s : DirectionState) (data : UInt8) : DirectionState × Bytes :=
  if s.remainingCommand > 0 then (s.header data, [])
  else if s.remainingContent > 0 then
    ({ s with remainingContent := s.remainingContent - 1 }, [data])
  else ({ s with remainingPadding := s.remainingPadding - 1 }, [])

def machine : Transducer DirectionState UInt8 where
  step s data := ((s.readByte data).1.finish, (s.readByte data).2)
  halted s := decide s.Initial

def Live (s : DirectionState) : Prop :=
  0 < s.remainingCommand ∨ 0 < s.remainingContent ∨ 0 < s.remainingPadding

theorem not_complete_iff (s : DirectionState) : ¬s.Complete ↔ s.Live := by
  simp [Complete, Live]
  omega

variable {s : DirectionState}

theorem Live.not_initial (h : s.Live) : ¬s.Initial := by
  simp only [Live, Initial] at *
  omega

theorem Live.running (h : s.Live) : machine.halted s = false := decide_eq_false h.not_initial

theorem initial_reset (s : DirectionState) : s.reset.Initial := ⟨rfl, rfl, rfl⟩

theorem finish_of_live (h : s.Live) : s.finish = s := if_neg ((not_complete_iff s).mpr h)

theorem finish_continue (h : s.Complete) (hc : s.currentCommand = COMMAND_PADDING_CONTINUE.toNat) :
    s.finish = { s with remainingCommand := 5 } := by
  rw [finish, if_pos h, if_pos hc]

theorem finish_last (h : s.Complete)
    (hl : s.currentCommand ≠ COMMAND_PADDING_CONTINUE.toNat) : s.finish = s.reset := by
  rw [finish, if_pos h, if_neg hl]

theorem live_finish (h : machine.halted s.finish = false) : s.finish.Live := by
  by_cases hl : s.Live
  · rwa [finish_of_live hl]
  have hc : s.Complete := by rwa [← not_complete_iff, not_not] at hl
  by_cases hco : s.currentCommand = COMMAND_PADDING_CONTINUE.toNat
  · rw [finish_continue hc hco]
    exact .inl (by simp)
  · rw [finish_last hc hco] at h
    exact absurd s.initial_reset (of_decide_eq_false h)

theorem live_step (s : DirectionState) (data : UInt8)
    (h : machine.halted (machine.step s data).1 = false) : (machine.step s data).1.Live :=
  live_finish h

theorem reaches_byte (s : DirectionState) (data : UInt8) :
    machine.Reaches s [data] (s.readByte data).1.finish (s.readByte data).2 :=
  .last s data

variable {w : Bytes}

theorem reaches_counted (g : Int → DirectionState) (emit : UInt8 → Bytes)
    (hb : ∀ n data, 0 < n → (g n).readByte data = (g (n - 1), emit data))
    (hl : ∀ n, 0 < n → (g n).Live) (hne : w ≠ []) {n : Int} (hle : w.length ≤ n) :
    machine.Reaches (g n) w (g (n - w.length)).finish (w.flatMap emit) := by
  induction w generalizing n with
  | nil => exact absurd rfl hne
  | cons data w ih =>
    rw [length_cons] at hle ⊢
    have hf := reaches_byte (g n) data
    rw [hb n data (by omega)] at hf
    cases w with
    | nil => simpa using hf
    | cons next w =>
      have hg := hl (n - 1) (by rw [length_cons] at hle; omega)
      have hrest := ih (cons_ne_nil next w) (n := n - 1) (by omega)
      rw [finish_of_live hg] at hf
      have hc : n - ((next :: w).length + 1 : Nat) = n - 1 - (next :: w).length := by omega
      rw [hc]
      exact hf.append hg.running hrest

theorem reaches_content (hc : s.remainingCommand ≤ 0)
    (hne : w ≠ []) (hle : (w.length : Int) ≤ s.remainingContent) :
    machine.Reaches s w
      { s with remainingContent := s.remainingContent - w.length }.finish w := by
  have h := reaches_counted (fun n => { s with remainingContent := n }) ([·])
    (fun n data hn => by simp [readByte, hn, Int.not_lt.mpr hc]) (fun n hn => .inr (.inl hn))
    hne hle
  simpa using h

theorem reaches_padding (hc : s.remainingCommand ≤ 0) (hco : s.remainingContent ≤ 0) (hne : w ≠ [])
    (hle : (w.length : Int) ≤ s.remainingPadding) :
    machine.Reaches s w
      { s with remainingPadding := s.remainingPadding - w.length }.finish [] := by
  have h := reaches_counted (fun n => { s with remainingPadding := n }) (fun _ => [])
    (fun n data hn => by simp [readByte, Int.not_lt.mpr hc, Int.not_lt.mpr hco])
    (fun n hn => .inr (.inr hn)) hne hle
  rwa [flatMap_eq_nil_iff.mpr fun _ _ => rfl] at h

theorem taken_eq (hp : 0 < remaining) (hl : left < 2 ^ 31) :
    taken remaining left = some (min remaining.toNat left) := by
  have hc : asI32 left = left := by
    rw [asI32, Int.bmod_eq_of_le (by omega) (by omega)]
  have hm : (min remaining left).toNat = min remaining.toNat left := by omega
  simp only [taken, hc, hm]
  exact if_neg (by omega)

variable {left : Bytes}

theorem Live.pass (h : s.Live) (hne : left ≠ []) (hl : left.length < 2 ^ 31) :
    ∃ s' w rest out, s.pass left = some (s', rest, out) ∧ left = w ++ rest ∧ w ≠ [] ∧
      machine.Reaches s w s'.finish out := by
  unfold DirectionState.pass
  have hle := length_pos_iff.mpr hne
  split
  · next hc =>
    obtain ⟨data, left, rfl⟩ := exists_cons_of_ne_nil hne
    have hb := reaches_byte s data
    simp only [readByte, if_pos hc] at hb
    exact ⟨_, [data], left, [], rfl, rfl, cons_ne_nil _ _, hb⟩
  · next hc =>
    split
    · next hco =>
      rw [taken_eq hco hl]
      set n := min s.remainingContent.toNat left.length with hn
      have ht : (left.take n).length = n := length_take_of_le (by omega)
      have hno : left.take n ≠ [] := length_pos_iff.mp (by omega)
      have hr := reaches_content (Int.not_lt.mp hc) hno (by omega)
      rw [ht] at hr
      exact ⟨_, left.take n, left.drop n, left.take n, rfl, (take_append_drop n left).symm, hno, hr⟩
    · next hco =>
      have hp : 0 < s.remainingPadding := by
        simp only [Live] at h
        omega
      rw [taken_eq hp hl]
      set n := min s.remainingPadding.toNat left.length with hn
      have ht : (left.take n).length = n := length_take_of_le (by omega)
      have hno : left.take n ≠ [] := length_pos_iff.mp (by omega)
      have hr := reaches_padding (Int.not_lt.mp hc) (Int.not_lt.mp hco) hno (by omega)
      rw [ht] at hr
      exact ⟨_, left.take n, left.drop n, [], rfl, (take_append_drop n left).symm, hno, hr⟩

theorem branch_finish (s : DirectionState) (goOn stop : DirectionState → β) : (if s.Complete then
        if s.currentCommand = COMMAND_PADDING_CONTINUE.toNat then
          goOn { s with remainingCommand := 5 }
        else stop s.reset
      else goOn s) = if machine.halted s.finish then stop s.finish else goOn s.finish := by
  by_cases hl : s.Live
  · simp [finish_of_live hl, hl.running, (not_complete_iff s).mpr hl]
  have hc : s.Complete := by rwa [← not_complete_iff, not_not] at hl
  by_cases hco : s.currentCommand = COMMAND_PADDING_CONTINUE.toNat
  · have hn : { s with remainingCommand := 5 }.Live := .inl (by simp)
    rw [finish_continue hc hco, hn.running, if_pos hc, if_pos hco]
    rfl
  · have hh : machine.halted s.reset = true := decide_eq_true s.initial_reset
    simp [finish_last hc hco, hh, hc, hco]

variable {out : Bytes}

theorem loop_succ (hne : left ≠ []) (hp : s.pass left = some (s', rest, out)) (fuel : Nat) :
    loop (fuel + 1) s left = if machine.halted s'.finish then some (s'.finish, out ++ rest)
      else (loop fuel s'.finish rest).map fun r => (r.1, out ++ r.2) := by
  obtain ⟨data, left, rfl⟩ := exists_cons_of_ne_nil hne
  simp only [loop, hp]
  exact branch_finish s' (fun s => (loop fuel s rest).map fun r => (r.1, out ++ r.2))
    fun s => some (s, out ++ rest)

theorem Live.loop (h : s.Live) (hl : left.length < 2 ^ 31) (hf : left.length ≤ fuel) :
    loop fuel s left = some (machine.feed s left) := by
  induction fuel generalizing s left with
  | zero =>
    obtain rfl : left = [] := length_eq_zero_iff.mp (by omega)
    rfl
  | succ fuel ih =>
    rcases eq_nil_or_concat' left with rfl | ⟨_, _, hc⟩
    · rfl
    have hne : left ≠ [] := by simp [hc]
    obtain ⟨s', w, rest, out, hp, rfl, hw, hr⟩ := h.pass hne hl
    have hle := length_pos_iff.mpr hw
    rw [length_append] at hl hf
    rw [loop_succ hne hp, hr.feed_append]
    cases hh : machine.halted s'.finish with
    | true => rfl
    | false =>
      rw [ih (live_finish hh) (by omega) (by omega)]
      rfl

theorem lor_byte (hi lo : UInt8) :
    Int.lor ((hi.toNat <<< 8 : Nat) : Int) lo.toNat = (hi.toNat * 256 + lo.toNat : Nat) := by
  have hor : hi.toNat <<< 8 + lo.toNat = hi.toNat <<< 8 ||| lo.toNat :=
    Nat.shiftLeft_add_eq_or_of_lt lo.toNat_lt hi.toNat
  rw [Nat.shiftLeft_eq] at hor
  exact congrArg Int.ofNat (by rw [Nat.shiftLeft_eq, ← hor])

variable {m : Int}

theorem reaches_headerByte (hk : 0 < k) (hh : header ⟨k, c, p, m⟩ data = ⟨k', c', p', m'⟩) :
    machine.Reaches ⟨k, c, p, m⟩ [data] (finish ⟨k', c', p', m'⟩) [] := by
  have hb := reaches_byte ⟨k, c, p, m⟩ data
  rwa [readByte, if_pos hk, hh] at hb

theorem reaches_headerByte_cons
    (hk : 0 < k) (hh : header ⟨k, c, p, m⟩ data = ⟨k', c', p', m'⟩) (hk' : 0 < k')
    (hrest : machine.Reaches ⟨k', c', p', m'⟩ w s out) :
    machine.Reaches ⟨k, c, p, m⟩ (data :: w) s out := by
  have hl : Live ⟨k', c', p', m'⟩ := .inl hk'
  have hb := reaches_headerByte hk hh
  rw [finish_of_live hl] at hb
  exact hb.append hl.running hrest

theorem reaches_header (hs : s.remainingCommand = 5)
    (cmd contentHi contentLo paddingHi paddingLo : UInt8) :
    machine.Reaches s [cmd, contentHi, contentLo, paddingHi, paddingLo]
      (finish ⟨0, (contentHi.toNat * 256 + contentLo.toNat : Nat),
        (paddingHi.toNat * 256 + paddingLo.toNat : Nat), cmd.toNat⟩) [] := by
  obtain ⟨_, c, p, cu⟩ := s
  cases hs
  have hf : header ⟨5, c, p, cu⟩ cmd = ⟨4, c, p, cmd.toNat⟩ := rfl
  have hfo : header ⟨4, c, p, cmd.toNat⟩ contentHi =
      ⟨3, (contentHi.toNat <<< 8 : Nat), p, cmd.toNat⟩ := rfl
  have ht : header ⟨3, (contentHi.toNat <<< 8 : Nat), p, cmd.toNat⟩ contentLo =
      ⟨2, (contentHi.toNat * 256 + contentLo.toNat : Nat), p, cmd.toNat⟩ := by
    rw [← lor_byte]
    rfl
  have htw : ∀ c : Int, header ⟨2, c, p, cmd.toNat⟩ paddingHi =
      ⟨1, c, (paddingHi.toNat <<< 8 : Nat), cmd.toNat⟩ := fun _ => rfl
  have ho : ∀ c : Int, header ⟨1, c, (paddingHi.toNat <<< 8 : Nat), cmd.toNat⟩ paddingLo =
        ⟨0, c, (paddingHi.toNat * 256 + paddingLo.toNat : Nat), cmd.toNat⟩ := by
    intro c
    rw [← lor_byte]
    rfl
  exact reaches_headerByte_cons (by decide) hf (by decide) <|
    reaches_headerByte_cons (by decide) hfo (by decide) <|
    reaches_headerByte_cons (by decide) ht (by decide) <|
    reaches_headerByte_cons (by decide) (htw _) (by decide) <|
    reaches_headerByte (by decide) (ho _)

theorem reaches_body (h : machine.Reaches s w (finish ⟨0, pl.length, pad.length, m⟩) out) :
    machine.Reaches s (w ++ pl ++ pad) (finish ⟨0, 0, 0, m⟩) (out ++ pl) := by
  have hc : machine.Reaches s (w ++ pl) (finish ⟨0, 0, pad.length, m⟩) (out ++ pl) := by
    cases pl with
    | nil => simpa using h
    | cons data pl =>
      have hl : Live ⟨0, (data :: pl).length, pad.length, m⟩ :=
        .inr (.inl (Int.natCast_pos.mpr (Nat.succ_pos _)))
      have hb := reaches_content (s := ⟨0, (data :: pl).length, pad.length, m⟩) le_rfl
        (cons_ne_nil data pl) le_rfl
      rw [Int.sub_self] at hb
      exact h.append hl.running hb
  cases pad with
  | nil => simpa using hc
  | cons data pad =>
    have hl : Live ⟨0, 0, (data :: pad).length, m⟩ :=
      .inr (.inr (Int.natCast_pos.mpr (Nat.succ_pos _)))
    have hp := reaches_padding (s := ⟨0, 0, (data :: pad).length, m⟩) le_rfl le_rfl
      (cons_ne_nil data pad) le_rfl
    simpa using hc.append hl.running hp

end DirectionState

def block (command : UInt8) (payload : Bytes) (padding : Nat) : Bytes :=
  [command] ++ be16 (UInt16.ofNat payload.length) ++ be16 (UInt16.ofNat padding) ++ payload ++
    replicate padding 0

theorem toNat_be16 (h : n ≤ 65535) : (UInt8.ofNat ((UInt16.ofNat n).toNat / 256)).toNat * 256 +
      (UInt8.ofNat (UInt16.ofNat n).toNat).toNat = n := by
  simp
  omega

def paddedBlock (command : UInt8) (payload padding : Bytes) : Bytes :=
  [command] ++ be16 (UInt16.ofNat payload.length) ++ be16 (UInt16.ofNat padding.length) ++
    payload ++ padding

variable {s : DirectionState}

theorem reaches_paddedBlock (hs : s.remainingCommand = 5) (cmd : UInt8)
    (hp : payload.length ≤ 65535) (hpa : padding.length ≤ 65535) :
    machine.Reaches s (paddedBlock cmd payload padding) (finish ⟨0, 0, 0, cmd.toNat⟩) payload := by
  have hh := reaches_header hs cmd (UInt8.ofNat ((UInt16.ofNat payload.length).toNat / 256))
    (UInt8.ofNat (UInt16.ofNat payload.length).toNat)
    (UInt8.ofNat ((UInt16.ofNat padding.length).toNat / 256))
    (UInt8.ofNat (UInt16.ofNat padding.length).toNat)
  rw [toNat_be16 hp, toNat_be16 hpa] at hh
  exact reaches_body hh

theorem reaches_block (hs : s.remainingCommand = 5) (cmd : UInt8)
    (hp : payload.length ≤ 65535) (hpa : padding ≤ 65535) :
    machine.Reaches s (block cmd payload padding) (finish ⟨0, 0, 0, cmd.toNat⟩) payload := by
  have hb : block cmd payload padding = paddedBlock cmd payload (replicate padding 0) := by
    rw [paddedBlock, length_replicate]
    rfl
  rw [hb]
  exact reaches_paddedBlock hs cmd hp (by rwa [length_replicate])

namespace PaddingCall

theorem contentLen_eq {call : PaddingCall} (h : call.payload.length ≤ 65535) :
    call.contentLen = call.payload.length := by
  rw [contentLen, asI32, Int.bmod_eq_of_le (by omega) (by omega)]

theorem paddingLen_bounds {call : PaddingCall} (hl : 0 ≤ call.contentLen) {n : Int}
    (h : call.paddingLen = some n) : 0 ≤ n ∧ n ≤ 2027 := by
  obtain ⟨d, -, rfl⟩ := Option.map_eq_some_iff.mp h
  simp [BUF_SIZE]
  omega

end PaddingCall

theorem ofInt_natCast (n : Nat) : UInt8.ofInt n = UInt8.ofNat n := by
  apply UInt8.toNat_inj.mp
  simp [UInt8.ofInt]
  omega

theorem xtlsPadding_of_paddingLen {call : PaddingCall} (hl : call.payload.length ≤ 65535) {n : Int}
    (h : call.paddingLen = some n) (uuid : Option Bytes) : ∃ pad : Nat, pad ≤ 65535 ∧ n = pad ∧
      xtlsPadding call uuid = some (uuid.getD [] ++ block call.command call.payload pad, none) := by
  have hc := call.contentLen_eq hl
  obtain ⟨hp, hle⟩ := PaddingCall.paddingLen_bounds (by omega) h
  obtain ⟨pad, rfl⟩ := Int.eq_ofNat_of_zero_le hp
  refine ⟨pad, by omega, rfl, ?_⟩
  have hb : ∀ n : Nat, n ≤ 65535 →
      be16 (UInt16.ofNat n) = [UInt8.ofInt ((n : Int) >>> (8 : Nat)), UInt8.ofInt n] := by
    intro n hn
    have hsize : (UInt16.ofNat n).toNat = n := UInt16.toNat_ofNat_of_lt' (Nat.lt_succ_of_le hn)
    rw [be16, hsize, Int.shiftRight_eq_div_pow, ofInt_natCast, ← ofInt_natCast (n / 256)]
    rfl
  simp [xtlsPadding, h, block, hc, hb _ hl, hb pad (by omega)]

theorem xtlsPadding_eq {call : PaddingCall} (hl : call.payload.length ≤ 65535)
    {uuid : Option Bytes} {r : Bytes × Option Bytes} (h : xtlsPadding call uuid = some r) :
    ∃ pad ≤ 65535, r = (uuid.getD [] ++ block call.command call.payload pad, none) := by
  obtain ⟨n, hn, -⟩ := Option.map_eq_some_iff.mp h
  obtain ⟨pad, hle, -, hx⟩ := xtlsPadding_of_paddingLen hl hn uuid
  exact ⟨pad, hle, Option.some.inj (h.symm.trans hx)⟩

theorem padAll_some (uuid : Bytes) (call : PaddingCall) (calls : List PaddingCall) :
    padAll (some uuid) (call :: calls) = (padAll none (call :: calls)).map (uuid ++ ·) := by
  have hu : xtlsPadding call (some uuid) =
      (xtlsPadding call none).map fun r => (uuid ++ r.1, r.2) := by
    simp [xtlsPadding, Function.comp_def]
  rw [padAll, padAll, hu]
  cases xtlsPadding call none with
  | none => rfl
  | some r => simp

theorem padAll_cons
    (hl : call.payload.length ≤ 65535) (h : padAll none (call :: calls) = some wire) :
    ∃ pad ≤ 65535, ∃ rest, padAll none calls = some rest ∧
      wire = block call.command call.payload pad ++ rest := by
  rw [padAll] at h
  obtain ⟨⟨b, uu⟩, hb, hc⟩ := Option.bind_eq_some_iff.mp h
  obtain ⟨rest, hrest, hw⟩ := Option.bind_eq_some_iff.mp hc
  obtain ⟨pad, hp, heq⟩ := xtlsPadding_eq hl hb
  obtain ⟨rfl, rfl⟩ := Prod.mk.inj heq
  exact ⟨pad, hp, rest, hrest, (Option.some.inj hw).symm⟩

theorem reaches_padAll (hf : ∀ call ∈ front, call.command = COMMAND_PADDING_CONTINUE)
    (hfi : final.command ≠ COMMAND_PADDING_CONTINUE)
    (hle : ∀ call ∈ front ++ [final], call.payload.length ≤ 65535)
    (h : padAll none (front ++ [final]) = some wire) (hs : s.remainingCommand = 5) :
    machine.Reaches s wire ⟨-1, -1, -1, final.command.toNat⟩
      ((front ++ [final]).flatMap PaddingCall.payload) := by
  induction front generalizing s wire with
  | nil =>
    obtain ⟨p, hp, rest, hrest, rfl⟩ := padAll_cons (hle final (by simp)) h
    cases hrest
    have hb := reaches_block hs final.command (hle final (by simp)) hp
    have hl : (final.command.toNat : Int) ≠ COMMAND_PADDING_CONTINUE.toNat := by
      rw [Ne, Int.natCast_inj, UInt8.toNat_inj]
      exact hfi
    rw [finish_last ⟨le_rfl, le_rfl, le_rfl⟩ hl] at hb
    simpa [reset] using hb
  | cons call front ih =>
    obtain ⟨p, hp, rest, hrest, rfl⟩ := padAll_cons (hle call (by simp)) h
    have hb := reaches_block hs call.command (hle call (by simp)) hp
    rw [hf call mem_cons_self, finish_continue ⟨le_rfl, le_rfl, le_rfl⟩ rfl] at hb
    have ht := ih (forall_mem_cons.mp hf).2
      (forall_mem_cons.mp hle).2 hrest
      (s := ⟨5, 0, 0, COMMAND_PADDING_CONTINUE.toNat⟩) rfl
    rw [hf call mem_cons_self]
    exact hb.append rfl ht

variable {left : Bytes}

theorem consumes_of_live (h : s.Live) (hne : left ≠ [])
    (hl : left.length < 2 ^ 31) : Consumes (s, left) := by
  obtain ⟨s', w, rest, out, hp, rfl, hw, -⟩ := h.pass hne hl
  have := length_pos_iff.mpr hw
  exact ⟨s', rest, out, hp, by rw [length_append]; omega⟩

theorem loopPasses_succ (hne : left ≠ [])
    (hp : s.pass left = some (s', rest, out)) (fuel : Nat) : loopPasses (fuel + 1) s left =
      (s, left) :: if machine.halted s'.finish then [] else loopPasses fuel s'.finish rest := by
  obtain ⟨data, left, rfl⟩ := exists_cons_of_ne_nil hne
  simp only [loopPasses, hp]
  exact congrArg _ (branch_finish s' (fun s => loopPasses fuel s rest) fun _ => [])

theorem consumes_loopPasses (h : s.Live)
    (hl : left.length < 2 ^ 31) (fuel : Nat) : ∀ p ∈ loopPasses fuel s left, Consumes p := by
  induction fuel generalizing s left with
  | zero => cases left <;> simp [loopPasses]
  | succ fuel ih =>
    cases left with
    | nil => simp [loopPasses]
    | cons data left =>
      have hne := cons_ne_nil data left
      obtain ⟨s', w, rest, out, hpa, hs, hw, -⟩ := h.pass hne hl
      have hrest : rest.length < 2 ^ 31 := by
        rw [hs, length_append] at hl
        omega
      rw [loopPasses_succ hne hpa]
      intro p hp
      rcases mem_cons.mp hp with rfl | hp
      · exact consumes_of_live h hne hl
      cases hh : machine.halted s'.finish with
      | true => simp [hh] at hp
      | false =>
        simp only [hh, Bool.false_eq_true, if_false] at hp
        exact ih (live_finish hh) hrest p hp

variable {buf userUuid : Bytes} {fuel : Nat}

theorem waits_or_live (h : s.Initial ∨ s.Live) (hb : buf.length < 2 ^ 31) (hf : buf.length ≤ fuel)
    (hc : xtlsUnpadding fuel userUuid s buf = some r) : r.1.Initial ∨ r.1.Live := by
  have hl : ∀ {s : DirectionState} {left : Bytes}, s.Live → left.length ≤ buf.length →
      loop fuel s left = some r → r.1.Initial ∨ r.1.Live := by
    intro s left hli hle hl
    rw [hli.loop (by omega) (by omega)] at hl
    cases hl
    cases hh : machine.halted (machine.feed s left).1 with
    | true => exact .inl (of_decide_eq_true hh)
    | false => exact .inr (Transducer.feed_invariant live_step hli left hh)
  unfold xtlsUnpadding at hc
  split at hc
  · next hi =>
    split at hc
    · exact hl (.inl (by simp)) (by simp) hc
    · cases hc
      exact .inl hi
  · next ho => exact hl (h.resolve_left ho) le_rfl hc

theorem consumes_callPasses (h : s.Initial ∨ s.Live)
    (hb : buf.length < 2 ^ 31) (fuel : Nat) (uuid : Bytes) :
    ∀ p ∈ callPasses fuel uuid s buf, Consumes p := by
  unfold callPasses
  split
  · split
    · refine consumes_loopPasses (.inl (by simp)) ?_ fuel
      rw [length_drop]
      omega
    · simp
  · next ho => exact consumes_loopPasses (h.resolve_left ho) hb fuel

theorem consumes_allPasses (hs : ∀ c ∈ cs, c.length < 2 ^ 31) (hf : ∀ c ∈ cs, c.length ≤ fuel)
    (h : s.Initial ∨ s.Live) : ∀ p ∈ allPasses fuel userUuid s cs, Consumes p := by
  induction cs generalizing s with
  | nil => simp [allPasses]
  | cons buf cs ih =>
    rw [forall_mem_cons] at hs hf
    intro p hp
    rcases mem_append.mp hp with hp | hp
    · exact consumes_callPasses h hs.1 fuel userUuid p hp
    cases hc : xtlsUnpadding fuel userUuid s buf with
    | none => simp [hc] at hp
    | some r =>
      simp only [hc] at hp
      exact ih hs.2 hf.2 (waits_or_live h hs.1 hf.1 hc) p hp

theorem xtlsUnpadding_live (h : s.Live)
    (hb : buf.length < 2 ^ 31) (hf : buf.length ≤ fuel) (uuid : Bytes) :
    xtlsUnpadding fuel uuid s buf = some (machine.feed s buf) := by
  rw [xtlsUnpadding, if_neg h.not_initial, h.loop hb hf]

theorem unpadAll_first (hs : s.Initial)
    (hu : userUuid.length = 16) (hb : 5 ≤ buf.length) (fuel : Nat) (chunks : List Bytes) :
    unpadAll fuel userUuid s ((userUuid ++ buf) :: chunks) =
      unpadAll fuel userUuid { s with remainingCommand := 5 } (buf :: chunks) := by
  have hl : { s with remainingCommand := 5 }.Live := .inl (by simp)
  have hf : xtlsUnpadding fuel userUuid s (userUuid ++ buf) =
      xtlsUnpadding fuel userUuid { s with remainingCommand := 5 } buf := by
    rw [xtlsUnpadding, if_pos hs, if_pos, xtlsUnpadding, if_neg hl.not_initial, drop_left' hu]
    refine ⟨?_, hu, take_left' hu⟩
    rw [length_append]
    omega
  simp [unpadAll, Transducer.runAll, hf]

theorem exists_first_chunk (hu : uuid.length = 16) (hne : blocks ≠ []) {last : Bytes}
    (hcu : (init ++ [last]).flatten = uuid ++ blocks ++ raw)
    (hf : ∀ c ∈ (init ++ [last]).head?, 21 ≤ c.length)
    (hl : init.flatten.length < (uuid ++ blocks).length) :
    ∃ buf chunks init' last', init ++ [last] = (uuid ++ buf) :: chunks ∧ 5 ≤ buf.length ∧
      buf :: chunks = init' ++ [last'] ∧ init'.flatten ++ last' = blocks ++ raw ∧
      init'.flatten.length < blocks.length := by
  rw [append_assoc] at hcu
  have ht : ∀ c rest : Bytes, 21 ≤ c.length → c ++ rest = uuid ++ (blocks ++ raw) →
      ∃ buf, c = uuid ++ buf ∧ 5 ≤ buf.length ∧ buf ++ rest = blocks ++ raw := by
    intro c rest hc heq
    obtain ⟨buf, rfl⟩ : uuid <+: c :=
      prefix_of_prefix_length_le ⟨_, heq.symm⟩ (prefix_append c rest) (by omega)
    rw [append_assoc, append_cancel_left_eq] at heq
    rw [length_append] at hc
    exact ⟨buf, rfl, by omega, heq⟩
  cases init with
  | nil =>
    obtain ⟨buf, rfl, hb, hrest⟩ := ht last [] (hf last rfl) (by simpa using hcu)
    exact ⟨buf, [], [], buf, rfl, hb, rfl, by simpa using hrest, length_pos_iff.mpr hne⟩
  | cons c init =>
    obtain ⟨buf, rfl, hb, hrest⟩ := ht c (init ++ [last]).flatten (hf c rfl) hcu
    refine ⟨buf, init ++ [last], buf :: init, last, rfl, hb, rfl, by simpa using hrest, ?_⟩
    simp only [flatten_cons, length_append] at hl ⊢
    omega

/-- Blocks cut into chunks in any way decode to their contents and to the raw bytes behind them;
only the last command stays, and every pass of the loop consumes something. Chunks are reads into 16
KB, far below the length at which its cast wraps. -/
theorem roundTrip {userUuid : Bytes} (huuid : userUuid.length = 16) {front : List PaddingCall}
    {final : PaddingCall} (hfront : ∀ call ∈ front, call.command = COMMAND_PADDING_CONTINUE)
    (hfinal : final.command = COMMAND_PADDING_END ∨ final.command = COMMAND_PADDING_DIRECT)
    (hlen : ∀ call ∈ front ++ [final], call.payload.length ≤ 65535) {wire : Bytes}
    (hwire : padAll (some userUuid) (front ++ [final]) = some wire) {raw : Bytes}
    {init : List Bytes} {last : Bytes} (hcut : (init ++ [last]).flatten = wire ++ raw)
    (hfirst : ∀ c ∈ (init ++ [last]).head?, 21 ≤ c.length)
    (hlast : init.flatten.length < wire.length)
    (hsmall : ∀ c ∈ init ++ [last], c.length < 2 ^ 31) {fuel : Nat}
    (hfuel : ∀ c ∈ init ++ [last], c.length ≤ fuel) {s : DirectionState} (hs : s.Initial) :
    unpadAll fuel userUuid s (init ++ [last]) = some (⟨-1, -1, -1, final.command.toNat⟩,
          (front ++ [final]).flatMap PaddingCall.payload ++ raw) ∧
      ∀ p ∈ allPasses fuel userUuid s (init ++ [last]), Consumes p := by
  refine ⟨?_, consumes_allPasses hsmall hfuel (.inl hs)⟩
  obtain ⟨blocks, hblocks, rfl⟩ : ∃ blocks, padAll none (front ++ [final]) = some blocks ∧
      userUuid ++ blocks = wire := by
    cases front <;> exact Option.map_eq_some_iff.mp (padAll_some userUuid _ _ ▸ hwire)
  have hcommand : final.command ≠ COMMAND_PADDING_CONTINUE := by
    rcases hfinal with h | h <;> rw [h] <;> decide
  have hreach :=
    reaches_padAll hfront hcommand hlen hblocks (s := { s with remainingCommand := 5 }) rfl
  obtain ⟨buf, chunks, init', last', hchunks, hbuf, hsplit, hcut', hlast'⟩ :=
    exists_first_chunk huuid hreach.ne_nil hcut hfirst hlast
  rw [hchunks, unpadAll_first hs huuid hbuf, hsplit]
  -- what is left of the first chunk is no longer than it was
  have hle : ∀ n, (∀ c ∈ init ++ [last], c.length ≤ n) → ∀ c ∈ init' ++ [last'], c.length ≤ n := by
    intro n hn
    rw [hchunks, forall_mem_cons, length_append] at hn
    rw [← hsplit, forall_mem_cons]
    exact ⟨by omega, hn.2⟩
  refine hreach.runAll rfl (.inl (by simp)) (fun s => Live.running) live_step (fun s hs c hc => ?_)
    hcut' hlast'
  have hc31 := hle (2 ^ 31 - 1) (fun c hc => Nat.le_sub_one_of_lt (hsmall c hc)) c hc
  exact xtlsUnpadding_live hs (by omega) (hle fuel hfuel c hc) userUuid

def someUuid : Bytes := (range 16).map UInt8.ofNat

def firstCall : PaddingCall := ⟨some [97, 98], COMMAND_PADDING_CONTINUE, false, fun _ => 2, 1⟩

def lastCall : PaddingCall := ⟨none, COMMAND_PADDING_END, false, fun _ => 2, 1⟩

theorem padAll_twoCalls : padAll (some someUuid) [firstCall, lastCall] =
    some (someUuid ++ [0, 0, 2, 0, 1, 97, 98, 0, 1, 0, 0, 0, 1, 0]) := by
  decide +kernel

/-- The two blocks and the raw byte `z`, cut inside the content and inside the second
header. -/
theorem roundTrip_twoCalls : unpadAll 30 someUuid ⟨-1, -1, -1, 0⟩
      [someUuid ++ [0, 0, 2, 0, 1, 97], [98, 0, 1, 0], [0, 0, 1, 0, 122]] =
        some (⟨-1, -1, -1, 1⟩, [97, 98, 122]) :=
  (@roundTrip someUuid rfl [firstCall] lastCall (by decide) (by decide) (by decide) _
    padAll_twoCalls [122] [someUuid ++ [0, 0, 2, 0, 1, 97], [98, 0, 1, 0]] [0, 0, 1, 0, 122] rfl
    (by decide) (by decide) (by decide) 30 (by decide) ⟨-1, -1, -1, 0⟩ ⟨rfl, rfl, rfl⟩).1

end XrayCore.Vless.Vision
