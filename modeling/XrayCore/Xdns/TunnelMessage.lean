import XrayCore.Xdns.DnsRoundTrip

/-!
# Messages of the tunnel

Queries and responses have one question, answers under the name of the question and records for
the root. The writer spells the name out once and refers each answer to it, so no name is more than
one pointer away from its end, and the size of the message can be told from its parts.
-/

namespace XrayCore.Xdns

open Lib List

variable {α : Type} {labels : List Bytes} {t : Traced}

theorem length_labelBytes (labels : List Bytes) : (labelBytes labels).length = wireLen labels := by
  induction labels with
  | nil => rfl
  | cons l labels ih =>
    simp [labelBytes, wireLen, ih]
    omega

namespace Traced

def Fresh (t : Traced) (labels : List Bytes) : Prop :=
  ∀ suffix, suffix ≠ [] → suffix <:+ labels → t.nameCache (suffixStr suffix) = none

theorem Fresh.pointer? (h : t.Fresh (label :: labels)) : t.pointer? (label :: labels) = none := by
  rw [MessageBuilder.pointer?, h _ (by simp) suffix_rfl]
  rfl

theorem Fresh.pushLabel (h : t.Fresh (label :: labels)) :
    (t.pushLabel label (label :: labels)).Fresh labels := by
  intro s hne hs
  refine (Function.update_of_ne (suffixStr_ne_cons label hne hs) _ _).trans ?_
  exact h s hne (hs.trans (suffix_cons _ _))

theorem writeLabels_fresh (h : t.Fresh ls) :
    (t.writeLabels ls).1.w = t.w ++ labelBytes ls ∧ (t.writeLabels ls).2 = 0 ∧
    ∀ key, (∀ suf, suf ≠ [] → suf <:+ ls → key ≠ suffixStr suf) →
      (t.writeLabels ls).1.nameCache key = t.nameCache key := by
  induction ls generalizing t with
  | nil => exact ⟨rfl, rfl, fun _ _ => rfl⟩
  | cons l ls ih =>
    obtain ⟨hw, hh, hc⟩ := ih h.pushLabel
    simp only [writeLabels, h.pointer?]
    refine ⟨?_, hh, fun key hk => ?_⟩
    · rw [hw, labelBytes, ← append_assoc]
      rfl
    · rw [hc key fun suf hne hs =>
        hk suf hne (hs.trans (suffix_cons _ _))]
      exact Function.update_of_ne (hk _ (by simp) suffix_rfl) _ _

theorem writeLabels_fresh_kept (h : t.Fresh ls) (hne : ls ≠ []) (hp : t.w.length < 0x4000) :
    (t.writeLabels ls).1.pointer? ls = some t.w.length ∧
      (t.writeLabels ls).1.depth (suffixStr ls) = 0 := by
  cases ls with
  | nil => exact absurd rfl hne
  | cons l ls =>
    obtain ⟨-, hh, hc⟩ := writeLabels_fresh h.pushLabel
    have hk := hc (suffixStr (l :: ls)) fun s hne hs heq =>
      suffixStr_ne_cons l hne hs heq.symm
    have hfits : t.w.length &&& 0x3fff = t.w.length := by
      rw [Nat.and_two_pow_sub_one_eq_mod t.w.length 14]
      exact Nat.mod_eq_of_lt hp
    simp only [writeLabels, h.pointer?, Function.update_self, hh, and_true]
    rw [MessageBuilder.pointer?, hk]
    simp [pushLabel, MessageBuilder.pushLabel, hfits]

theorem writeMany_kept (name : α → Name) (tail : α → Bytes)
    (hne : ls ≠ []) (has : ∀ a ∈ as, (name a).labels = ls) (hp : t.pointer? ls = some ptr) :
    (t.writeMany name tail as).1.w = t.w ++ as.flatMap (fun a => pointerBytes ptr ++ tail a) ∧
    (t.writeMany name tail as).2 = List.replicate as.length (t.depth (suffixStr ls) + 1) := by
  induction as generalizing t with
  | nil => simp [writeMany]
  | cons a as ih =>
    obtain ⟨ha, has⟩ := forall_mem_cons.mp has
    have hi : t.writeItem name tail a =
        ((t.push (pointerBytes ptr)).push (tail a), t.depth (suffixStr ls) + 1) := by
      rw [writeItem, ha]
      cases ls with
      | nil => exact absurd rfl hne
      | cons l ls => simp [writeLabels, hp]
    obtain ⟨hw, hh⟩ := ih (t := (t.push (pointerBytes ptr)).push (tail a)) has hp
    simp only [writeMany, hi, hw, hh]
    refine ⟨?_, rfl⟩
    simp [push, MessageBuilder.push]

theorem writeMany_root (name : α → Name) (tail : α → Bytes) (has : ∀ a ∈ as, (name a).labels = []) :
    (t.writeMany name tail as).1.w = t.w ++ as.flatMap (fun a => 0 :: tail a) ∧
    (t.writeMany name tail as).2 = List.replicate as.length 0 := by
  induction as generalizing t with
  | nil => simp [writeMany]
  | cons a as ih =>
    obtain ⟨ha, has⟩ := forall_mem_cons.mp has
    have hi : t.writeItem name tail a = ((t.push [0]).push (tail a), 0) := by
      rw [writeItem, ha]
      rfl
    obtain ⟨hw, hh⟩ := ih (t := (t.push [0]).push (tail a)) has
    simp only [writeMany, hi, hw, hh]
    refine ⟨?_, rfl⟩
    simp [push, MessageBuilder.push]

theorem writeMany_append (t : Traced) (as bs : List α) : t.writeMany name tl (as ++ bs) =
      (((t.writeMany name tl as).1.writeMany name tl bs).1,
        (t.writeMany name tl as).2 ++ ((t.writeMany name tl as).1.writeMany name tl bs).2) := by
  induction as generalizing t with
  | nil => rfl
  | cons a as ih => simp [writeMany, ih]

end Traced

structure TunnelMessage (m : Message) (q : Question) : Prop where
  question : m.question = [q]
  name : q.name.labels ≠ []
  answer : ∀ rr ∈ m.answer, rr.name = q.name
  authority : m.authority = []
  additional : ∀ rr ∈ m.additional, rr.name = Name.root
  fits : m.Fits
  plain : ∀ rr ∈ m.records, rr.PlainCname

def recordsLength (nameLen : Nat) (rrs : List RR) : Nat :=
  (rrs.map fun rr => nameLen + 10 + rr.data.length).sum

theorem length_RR_tail (rr : RR) : rr.tail.length = 10 + rr.data.length := by
  have hh : rr.head.length = 8 := rfl
  simp [RR.tail, hh]
  omega

theorem length_flatMap_tail (front : Bytes) (rrs : List RR) :
    (rrs.flatMap fun rr => front ++ rr.tail).length = recordsLength front.length rrs := by
  rw [length_flatMap, recordsLength]
  congr 1
  refine map_congr_left fun rr _ => ?_
  rw [length_append, length_RR_tail, add_assoc]

theorem TunnelMessage.finish (h : TunnelMessage m q) :
    (Traced.finish m).w = m.header ++ labelBytes q.name.labels ++ q.tail ++
      m.answer.flatMap (fun rr => pointerBytes 12 ++ rr.tail) ++
      m.additional.flatMap (fun rr => [0] ++ rr.tail) ∧ m.pointerDepths =
      0 :: (List.replicate m.answer.length 1 ++ List.replicate m.additional.length 0) := by
  have hf : (Traced.start m).Fresh q.name.labels := fun _ _ _ => rfl
  obtain ⟨hw, hh, -⟩ := Traced.writeLabels_fresh hf
  obtain ⟨hpt, hd⟩ := Traced.writeLabels_fresh_kept hf h.name (show 12 < 0x4000 by decide)
  have hquestion : (Traced.start m).writeMany Question.name Question.tail m.question =
      (((Traced.start m).writeLabels q.name.labels).1.push q.tail, [0]) := by
    rw [h.question, ← hh]
    rfl
  have hr : m.records = m.answer ++ m.additional := by
    rw [Message.records, h.authority, append_nil]
  generalize ((Traced.start m).writeLabels q.name.labels).1 = t1 at hw hpt hd hquestion
  obtain ⟨hwa, hda⟩ := Traced.writeMany_kept RR.name RR.tail (t := t1.push q.tail) h.name
    (fun rr hrr => by rw [h.answer rr hrr]) hpt
  obtain ⟨hwr, hdr⟩ := Traced.writeMany_root RR.name RR.tail
    (t := ((t1.push q.tail).writeMany RR.name RR.tail m.answer).1)
    (fun rr hrr => by rw [h.additional rr hrr]; rfl)
  have hp : (t1.push q.tail).w = m.header ++ labelBytes q.name.labels ++ q.tail := by
    rw [Traced.push, MessageBuilder.push, hw]
    rfl
  have hd' : (t1.push q.tail).depth (suffixStr q.name.labels) = 0 := hd
  constructor
  · rw [Traced.finish, hquestion, hr, Traced.writeMany_append, hwr, hwa, hp]
    rfl
  rw [Message.pointerDepths, hquestion, hr]
  dsimp only
  rw [Traced.writeMany_append, hda, hdr, hd']
  rfl

theorem TunnelMessage.wire (h : TunnelMessage m q) :
    ∃ bytes, m.wireFormat = .ok bytes ∧ messageFromWireFormat bytes = .ok m ∧
      bytes.length = 12 + wireLen q.name.labels + 4 + recordsLength 2 m.answer +
        recordsLength 1 m.additional := by
  obtain ⟨hw, hd⟩ := h.finish
  refine ⟨_, h.fits.wireFormat, ?_, ?_⟩
  · rw [messageFromWireFormat_limited h.plain h.fits.wireFormat, limited_eq_ok, hd]
    simp only [mem_cons, mem_append, mem_replicate]
    rintro d (rfl | ⟨-, rfl⟩ | ⟨-, rfl⟩) <;> decide
  have hh : m.header.length = 12 := rfl
  have ht : q.tail.length = 4 := rfl
  rw [hw]
  simp only [length_append, length_flatMap_tail, length_labelBytes, hh, ht]
  rfl

end XrayCore.Xdns
