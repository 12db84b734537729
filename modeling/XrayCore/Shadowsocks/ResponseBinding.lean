import XrayCore.Shadowsocks.ResponseReader
import XrayCore.Shadowsocks.StreamWrites

/-!
# To which request a response belongs

A response carries the salt of the request it answers. The client does not compare for
equality: it refuses a response only if the salt in it is greater than its own, byte by
byte from the left. A response to a request with a smaller salt is delivered.
-/

namespace XrayCore.Shadowsocks

open Lib Crypto List Library

namespace ResponseKey

variable (L : Library) (k : ResponseKey)

def responseAead (w : List Stamped) : AeadCipher :=
  L.sessionAead k.kind k.psk (bytes (w.take k.kind.saltSize))

def fixedPart (w : List Stamped) : List Stamped :=
  (w.drop k.kind.saltSize).take (k.fixedLen + 16)

def behindFixed (w : List Stamped) : List Stamped :=
  (w.drop k.kind.saltSize).drop (k.fixedLen + 16)

structure HasHeader (w : List Stamped) (plain : Bytes) : Prop where
  salt_le : k.kind.saltSize ≤ w.length
  fixed_le : k.fixedLen + 16 ≤ (w.drop k.kind.saltSize).length
  opens : openWire (k.responseAead L w) (leBytes 12 0) (bytes (k.fixedPart w)) = .ok plain

structure Current (plain : Bytes) (now : UInt64) : Prop where
  length : plain.length = k.fixedLen
  serverType : byteAt plain 0 = 1
  epoch : SSStream.absDiff now (u64At plain 1) ≤ 30

def echo (plain : Bytes) : Bytes := (plain.drop 9).take k.kind.saltSize

def firstLen (plain : Bytes) : Nat := (u16At plain (9 + k.kind.saltSize)).toNat

def FirstOpens (w : List Stamped) (plain : Bytes) : Prop :=
  k.firstLen plain + 16 ≤ (k.behindFixed w).length ∧
    ∃ m, openWire (k.responseAead L w) (leBytes 12 1)
      (bytes ((k.behindFixed w).take (k.firstLen plain + 16))) = .ok m

def Bound (w : List Stamped) : Prop :=
  ∃ plain, k.HasHeader L w plain ∧ k.Current plain (clock (k.fixedPart w)) ∧
    k.echo plain = k.requestSalt

/-- A response to a request with a smaller salt, with its first payload. -/
def Foreign (w : List Stamped) : Prop :=
  ∃ plain, k.HasHeader L w plain ∧ k.Current plain (clock (k.fixedPart w)) ∧
    k.echo plain < k.requestSalt ∧ k.FirstOpens L w plain

variable {L k} {w : List Stamped} {plain : Bytes} {now : UInt64}

theorem checkFixed_eq_ok_iff : SSStream.checkFixed k.fixedLen k.requestSalt plain now = .ok len ↔
      k.Current plain now ∧ ¬k.requestSalt < k.echo plain ∧ k.firstLen plain = len := by
  have hs : k.fixedLen - 11 = k.kind.saltSize := by
    rw [fixedLen]
    omega
  unfold SSStream.checkFixed
  dsimp only
  rw [hs]
  split_ifs with hl htype he hlt
  · exact ⟨nofun, fun h => absurd h.1.length hl⟩
  · exact ⟨nofun, fun h => absurd h.1.serverType htype⟩
  · exact ⟨nofun, fun h => absurd h.1.epoch (not_le.mpr he)⟩
  · exact ⟨nofun, fun h => absurd hlt h.2.1⟩
  · rw [Except.ok.injEq]
    exact ⟨fun h => ⟨⟨not_not.mp hl, not_not.mp htype, not_lt.mp he⟩, hlt, h⟩, fun h => h.2.2⟩

theorem gives_first_iff : (k.reader L).Gives (.first aead len) w ↔ len + 16 ≤ w.length ∧
        ∃ m, openWire aead (leBytes 12 1) (bytes (w.take (len + 16))) = .ok m := by
  rw [StagedReader.gives_iff]
  simp only [reader, need, step]
  cases openWire aead (leBytes 12 1) (bytes (w.take (len + 16))) with
  | error e | ok m => simp

theorem gives_fixed_iff : (k.reader L).Gives (.fixed aead) w ↔ k.fixedLen + 16 ≤ w.length ∧
        ∃ plain, openWire aead (leBytes 12 0) (bytes (w.take (k.fixedLen + 16))) = .ok plain ∧
          ∃ len, SSStream.checkFixed k.fixedLen k.requestSalt plain
              (clock (w.take (k.fixedLen + 16))) = .ok len ∧
            (k.reader L).Gives (.first aead len) (w.drop (k.fixedLen + 16)) := by
  rw [StagedReader.gives_iff]
  simp only [reader, need, step]
  cases openWire aead (leBytes 12 0) (bytes (w.take (k.fixedLen + 16))) with
  | error e => simp
  | ok plain =>
    cases hc : SSStream.checkFixed k.fixedLen k.requestSalt plain
        (clock (w.take (k.fixedLen + 16))) with
    | error e | ok len => simp [hc]

theorem gives_salt_iff : (k.reader L).Gives .salt w ↔ k.kind.saltSize ≤ w.length ∧
        (k.reader L).Gives (.fixed (k.responseAead L w)) (w.drop k.kind.saltSize) :=
  StagedReader.gives_iff

theorem gives_response_iff : (k.reader L).Gives .salt w ↔
      ∃ plain, k.HasHeader L w plain ∧ k.Current plain (clock (k.fixedPart w)) ∧
        ¬k.requestSalt < k.echo plain ∧ k.FirstOpens L w plain := by
  rw [gives_salt_iff, gives_fixed_iff]
  constructor
  · rintro ⟨hs, hf, plain, ho, len, hch, hfi⟩
    obtain ⟨hc, hle, rfl⟩ := checkFixed_eq_ok_iff.mp hch
    exact ⟨plain, ⟨hs, hf, ho⟩, hc, hle, gives_first_iff.mp hfi⟩
  · rintro ⟨plain, ⟨hs, hf, ho⟩, hc, hle, hfi⟩
    exact ⟨hs, hf, plain, ho, _, checkFixed_eq_ok_iff.mpr ⟨hc, hle, rfl⟩, gives_first_iff.mpr hfi⟩

theorem eq_or_lt_of_not_lt {a b : Bytes} (h : ¬a < b) : b = a ∨ b < a := by
  by_contra hne
  rw [not_or] at hne
  exact hne.1 (List.le_antisymm h hne.2)

/-- The client delivers something only of a response to its own request, exactly if the
response is not a foreign one. -/
theorem delivers_bound_iff {s : SSStream} (hs : k.Refines .salt s)
    (pieces : List (UInt64 × Bytes)) :
    ((s.pump L [] pieces).1 ≠ [] → k.Bound L (stamped pieces)) ↔ ¬k.Foreign L (stamped pieces) := by
  have hgives : (s.pump L [] pieces).1 ≠ [] ↔ (k.reader L).Gives .salt (stamped pieces) := by
    rw [← (follows_pump_nil hs pieces).fst_eq]
    exact StagedReader.read_ne_nil_iff
  rw [hgives, gives_response_iff]
  constructor
  · rintro hbound ⟨plain, hheader, hcurrent, hlt, hfirst⟩
    obtain ⟨plain', hheader', -, hecho⟩ :=
      hbound ⟨plain, hheader, hcurrent, List.lt_asymm hlt, hfirst⟩
    obtain rfl : plain = plain' := Except.ok.inj (hheader.opens.symm.trans hheader'.opens)
    exact List.lt_irrefl _ (hecho ▸ hlt)
  · rintro hforeign ⟨plain, hheader, hcurrent, hle, hfirst⟩
    obtain hecho | hlt := eq_or_lt_of_not_lt hle
    · exact ⟨plain, hheader, hcurrent, hecho⟩
    · exact absurd ⟨plain, hheader, hcurrent, hlt, hfirst⟩ hforeign

def demoPsk : Bytes := List.replicate 16 7

theorem length_onesTarget : (Net.asBytes "a").length ≤ 255 := by decide

def onesDial : Dial where
  psk := demoPsk
  kind := .aes128Gcm
  target := "a"
  port := 80
  draw := ⟨0, fun _ => 1, 1000⟩
  length_target := length_onesTarget

def onesKey : ResponseKey := ⟨demoPsk, .aes128Gcm, onesDial.salt⟩

def saltOf (b : UInt8) : PendingServer2022 := ⟨demoPsk, .aes128Gcm, List.replicate 16 b⟩

def answerDraw : Draw := ⟨0, fun _ => 9, 1000⟩

def answerTo (b : UInt8) : List (UInt64 × Bytes) :=
  [(1000, (saltOf b).head clear answerDraw [4, 5, 6])]

theorem eq_of_hasHeader (h : onesKey.HasHeader clear (stamped (answerTo b)) plain) :
    plain = (saltOf b).fixedHeader answerDraw 3 :=
  Except.ok.inj (h.opens.symm.trans rfl)

/-- The answer to a request with a salt of zeros is delivered for the request with a salt of
ones. -/
theorem delivers_answer_to_smaller_salt :
    ((onesDial.stream clear).pump clear [] (answerTo 0)).1 = [[4, 5, 6]] ∧
      ¬onesKey.Bound clear (stamped (answerTo 0)) := by
  refine ⟨by decide +kernel, ?_⟩
  rintro ⟨plain, hheader, -, hecho⟩
  rw [eq_of_hasHeader hheader] at hecho
  exact absurd hecho (by decide)

/-- The answer to the request itself is delivered, and it is bound to it. -/
theorem delivers_bound_own_answer :
    ((onesDial.stream clear).pump clear [] (answerTo 1)).1 = [[4, 5, 6]] ∧
      onesKey.Bound clear (stamped (answerTo 1)) := by
  have hdelivers : ((onesDial.stream clear).pump clear [] (answerTo 1)).1 = [[4, 5, 6]] := by
    decide +kernel
  have hs : onesKey.Refines .salt (onesDial.stream clear) := .salt rfl rfl rfl rfl
  refine ⟨hdelivers, (delivers_bound_iff hs (answerTo 1)).mpr ?_ ?_⟩
  · rintro ⟨plain, hheader, -, hlt, -⟩
    rw [eq_of_hasHeader hheader] at hlt
    exact absurd hlt (by decide)
  · rw [hdelivers]
    exact cons_ne_nil _ _

end ResponseKey

end XrayCore.Shadowsocks
