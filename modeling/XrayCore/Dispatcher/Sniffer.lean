import XrayCore.Net.Address

/-!
# The set of sniffers

A sniffer that has found nothing yet may find something in the next packet, so it stays in the set.
Which ones stay is noted as positions in the set, but `retain_at` takes each position from behind
the one before.
-/

namespace XrayCore.Dispatcher

open Lib List
open Net (Network)

inductive Sniffed (R : Type)
  | hit (result : R)
  | notThis
  | noClue
  | needMoreData
  | failed
  deriving DecidableEq

structure ProtocolSniffer (R : Type) where
  sniff : Bytes → Sniffed R
  metadataOnly : Bool
  network : Network

inductive SniffError
  | noClue
  | needMoreData
  | unknownContent
  deriving DecidableEq

/-- Every position is one of `Iterator::nth` on what is left. -/
def retainAt : List α → List Nat → List α
  | _, [] => []
  | sniffers, i :: indices => sniffers[i]?.toList ++ retainAt (sniffers.drop (i + 1)) indices

section

variable (payload : Bytes) (network : Network)

def sniffLoop : List (ProtocolSniffer R) → Nat → List Nat → Option R × Bool × List Nat
  | [], _, pending => (none, false, pending)
  | s :: sniffers, i, pending =>
    if s.metadataOnly || s.network ≠ network then sniffLoop sniffers (i + 1) pending
    else
      match s.sniff payload with
      | .hit result => (some result, false, pending)
      | .noClue => sniffLoop sniffers (i + 1) (pending ++ [i])
      | .needMoreData => (none, true, [i])
      | .notThis | .failed => sniffLoop sniffers (i + 1) pending

def metadataLoop : List (ProtocolSniffer R) → Nat → List Nat → Option R × List Nat
  | [], _, pending => (none, pending)
  | s :: sniffers, i, pending =>
    if s.metadataOnly then
      match s.sniff [] with
      | .hit result => (some result, pending)
      | .noClue => metadataLoop sniffers (i + 1) (pending ++ [i])
      | _ => metadataLoop sniffers (i + 1) pending
    else metadataLoop sniffers (i + 1) (pending ++ [i])

def sniff (sniffers : List (ProtocolSniffer R)) : Except SniffError R × List (ProtocolSniffer R) :=
  match sniffLoop payload network sniffers 0 [] with
  | (some result, _, _) => (.ok result, sniffers)
  | (none, true, pending) => (.error .needMoreData, retainAt sniffers pending)
  | (none, false, []) => (.error .unknownContent, retainAt sniffers [])
  | (none, false, pending) => (.error .noClue, retainAt sniffers pending)

def sniffMetadata (sniffers : List (ProtocolSniffer R)) :
    Except SniffError R × List (ProtocolSniffer R) :=
  match metadataLoop sniffers 0 [] with
  | (some result, _) => (.ok result, sniffers)
  | (none, []) => (.error .unknownContent, retainAt sniffers [])
  | (none, pending) => (.error .noClue, retainAt sniffers pending)

def asked (s : ProtocolSniffer R) : Sniffed R :=
  if s.metadataOnly || s.network ≠ network then .notThis else s.sniff payload

def undecided [DecidableEq R] (sniffers : List (ProtocolSniffer R)) : List (ProtocolSniffer R) :=
  match sniffers.find? fun s => asked payload network s = .needMoreData with
  | some s => [s]
  | none => sniffers.filter fun s => asked payload network s = .noClue

end

def undecidedMetadata [DecidableEq R] (sniffers : List (ProtocolSniffer R)) :
    List (ProtocolSniffer R) :=
  sniffers.filter fun s => !s.metadataOnly || decide (s.sniff [] = .noClue)

def positions (p : α → Bool) : List α → Nat → List Nat
  | [], _ => []
  | a :: l, i => if p a then i :: positions p l (i + 1) else positions p l (i + 1)

theorem length_positions (p : α → Bool) (l : List α) (i : Nat) :
    (positions p l i).length = (l.filter p).length := by
  induction l generalizing i with
  | nil => rfl
  | cons a l ih => by_cases h : p a <;> simp [positions, h, ih]

theorem positions_eq_cons (h : positions p l i = k :: ks) :
    ∃ a, l[k - i]? = some a ∧ i ≤ k ∧ l.filter p = a :: (l.drop (k - i + 1)).filter p ∧
      ks = positions p (l.drop (k - i + 1)) (k + 1) := by
  induction l generalizing i with
  | nil => cases h
  | cons b l ih =>
    by_cases hb : p b
    · simp only [positions, hb, if_true, cons.injEq] at h
      obtain ⟨rfl, rfl⟩ := h
      simp [hb]
    simp only [positions, hb, Bool.false_eq_true, if_false] at h
    obtain ⟨a, hk, hle, hf, hks⟩ := ih h
    have hs : k - i = k - (i + 1) + 1 := by omega
    exact ⟨a, by rw [hs]; simpa using hk, by omega, by rw [hs]; simpa [hb] using hf,
      by rw [hs]; simpa using hks⟩

theorem retainAt_nil (indices : List Nat) : retainAt ([] : List α) indices = [] := by
  induction indices with
  | nil => rfl
  | cons i indices ih => simpa [retainAt] using ih

/-- Positions are taken as they are meant just when there is not a second one. -/
theorem retainAt_positions (p : α → Bool) (l : List α) :
    ((l.filter p).length ≤ 1 → retainAt l (positions p l 0) = l.filter p) ∧
      (l.Nodup → retainAt l (positions p l 0) = l.filter p → (l.filter p).length ≤ 1) := by
  have hl := length_positions p l 0
  rcases h : positions p l 0 with _ | ⟨k, _ | ⟨m, ms⟩⟩ <;> rw [h] at hl
  · rw [eq_nil_of_length_eq_zero hl.symm]
    simp [retainAt]
  · obtain ⟨a, hk, -, hf, -⟩ := positions_eq_cons h
    rw [hf] at hl ⊢
    rw [length_cons, length_cons, add_right_cancel_iff] at hl
    rw [eq_nil_of_length_eq_zero hl.symm]
    simpa [retainAt] using hk
  · obtain ⟨a, hk, -, hf, hks⟩ := positions_eq_cons h
    obtain ⟨b, hm, hle, hf', -⟩ := positions_eq_cons hks.symm
    refine ⟨fun hc => ?_, fun hn heq => ?_⟩
    · rw [← hl] at hc
      simp at hc
    rw [getElem?_drop, Nat.sub_zero] at hm
    rw [hf, hf', retainAt, retainAt, getElem?_drop] at heq
    rw [Nat.sub_zero] at hk
    rw [hk, Option.toList_some, singleton_append, cons.injEq] at heq
    -- the second one is looked for too far behind
    cases hc : l[k + 1 + m]? with
    | none =>
      rw [hc, drop_drop, drop_eq_nil_of_le (by have := getElem?_eq_none_iff.mp hc; omega),
        retainAt_nil] at heq
      cases heq.2
    | some c =>
      rw [hc, Option.toList_some, singleton_append, cons.injEq] at heq
      rw [heq.2.1] at hc
      have := (getElem?_inj (List.getElem?_eq_some_iff.mp hc).1 hn).mp (hc.trans hm.symm)
      omega

variable [DecidableEq R]

theorem sniffLoop_eq {pl : Bytes} {net : Network} {sniffers : List (ProtocolSniffer R)}
    (h : (sniffLoop pl net sniffers i pending).1 = none) :
    let found := sniffers.find? fun s => asked pl net s = .needMoreData
    let kept := (sniffLoop pl net sniffers i pending).2.2
    (∃ k s, sniffers[k]? = some s ∧ found = some s ∧ kept = [i + k]) ∨ found = none ∧
        kept = pending ++ positions (fun s => asked pl net s = .noClue) sniffers i := by
  induction sniffers generalizing i pending with
  | nil => simp [sniffLoop, positions]
  | cons s sniffers ih =>
    have hs : sniffLoop pl net (s :: sniffers) i pending = match asked pl net s with
        | .hit r => (some r, false, pending)
        | .noClue => sniffLoop pl net sniffers (i + 1) (pending ++ [i])
        | .needMoreData => (none, true, [i])
        | .notThis | .failed => sniffLoop pl net sniffers (i + 1) pending := by
      rw [sniffLoop, asked]
      split <;> simp
    rw [hs] at h ⊢
    cases ha : asked pl net s with
    | hit r => simp [ha] at h
    | needMoreData => exact .inl ⟨0, s, by simp [ha]⟩
    | _ =>
      rw [ha] at h
      rcases ih h with ⟨k, t, hk, hf, hkept⟩ | ⟨hf, hkept⟩
      · exact .inl ⟨k + 1, t, by simpa using hk, by simp [ha, hf], by simp [hkept]; omega⟩
      · exact .inr ⟨by simp [ha, hf], by simp [hkept, positions, ha]⟩

theorem metadataLoop_eq {sniffers : List (ProtocolSniffer R)}
    (h : (metadataLoop sniffers i pending).1 = none) : (metadataLoop sniffers i pending).2 =
      pending ++ positions (fun s => !s.metadataOnly || decide (s.sniff [] = .noClue)) sniffers i := by
  induction sniffers generalizing i pending with
  | nil => simp [metadataLoop, positions]
  | cons s sniffers ih =>
    rw [metadataLoop] at h ⊢
    cases hs : s.metadataOnly with
    | false => simp_all [positions]
    | true => cases ha : s.sniff [] <;> simp_all [positions]

/-- Without a hit the set that remains is the right one as long as a single sniffer is to remain;
with two or more of them it is not. -/
theorem remains_iff (payload : Bytes) (network : Network) (sniffers : List (ProtocolSniffer R)) :
    (∀ e rest, sniff payload network sniffers = (.error e, rest) →
      ((undecided payload network sniffers).length ≤ 1 → rest = undecided payload network sniffers) ∧
      (sniffers.Nodup → rest = undecided payload network sniffers →
        (undecided payload network sniffers).length ≤ 1)) ∧
    (∀ e rest, sniffMetadata sniffers = (.error e, rest) →
      ((undecidedMetadata sniffers).length ≤ 1 → rest = undecidedMetadata sniffers) ∧
      (sniffers.Nodup → rest = undecidedMetadata sniffers →
        (undecidedMetadata sniffers).length ≤ 1)) := by
  refine ⟨fun e rest h => ?_, fun e rest h => ?_⟩
  · have hrest : (sniffLoop payload network sniffers 0 []).1 = none ∧
        rest = retainAt sniffers (sniffLoop payload network sniffers 0 []).2.2 := by
      unfold sniff at h
      split at h <;> cases h <;> simp [*]
    rw [hrest.2, undecided]
    rcases sniffLoop_eq hrest.1 with ⟨k, s, hk, hf, hkept⟩ | ⟨hf, hkept⟩
    · rw [hf, hkept]
      simp [retainAt, hk]
    · rw [hf, hkept]
      exact retainAt_positions ..
  · have hrest : (metadataLoop sniffers 0 []).1 = none ∧
        rest = retainAt sniffers (metadataLoop sniffers 0 []).2 := by
      unfold sniffMetadata at h
      split at h <;> cases h <;> simp [*]
    rw [hrest.2, metadataLoop_eq hrest.1]
    exact retainAt_positions ..

def knows (n : UInt8) : ProtocolSniffer UInt8 :=
  ⟨fun payload => if payload = [n] then .hit n else .noClue, false, .tcp⟩

/-- Of three sniffers without a clue the second is not asked again. -/
theorem second_dropped : let sniffers := [knows 1, knows 2, knows 3]
    (sniff [0] .tcp sniffers).1 = .error .noClue ∧ (sniff [2] .tcp sniffers).1 = .ok 2 ∧
      (sniff [2] .tcp (sniff [0] .tcp sniffers).2).1 = .error .noClue :=
  ⟨rfl, rfl, rfl⟩

end XrayCore.Dispatcher
