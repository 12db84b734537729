import XrayCore.Lib.Placed
import XrayCore.Xdns.Dns

/-!
# Compressed names

`NameAt w pos labels hops e`: the bytes from `pos` on are a name with these labels, a reader follows
`hops` pointers for it, and it ends before `e`. The writer leaves such a name behind at each
position it keeps, so a reader finds the labels again wherever it follows a pointer.
-/

namespace XrayCore.Xdns

open Lib List

variable {w : Bytes} {pos e hops : Nat} {labels : List Bytes}

variable {b : UInt8}

theorem escape_plain (h : isPlain b) : escape b = [b] := if_pos h

theorem escape_other (h : ¬ isPlain b) :
    escape b = [92, 120, hexDigit (b.toNat / 16), hexDigit (b.toNat % 16)] := if_neg h

variable {n : Nat}

theorem hexDigit_inj (hm : m < 16) (hn : n < 16) (h : hexDigit m = hexDigit n) : m = n := by
  have hall : ∀ m < 16, ∀ n < 16, hexDigit m = hexDigit n → m = n := by decide
  exact hall m hm n hn h

theorem escape_append_inj (h : escape a ++ x = escape b ++ y) : a = b ∧ x = y := by
  have ha := a.toNat_lt
  have hb := b.toNat_lt
  have hs : ¬ isPlain 92 := by decide
  by_cases hpa : isPlain a <;> by_cases hpb : isPlain b
  · simpa [escape_plain hpa, escape_plain hpb] using h
  · simp only [escape_plain hpa, escape_other hpb, cons_append, List.cons.injEq] at h
    exact absurd (h.1 ▸ hpa) hs
  · simp only [escape_other hpa, escape_plain hpb, cons_append, List.cons.injEq] at h
    exact absurd (h.1 ▸ hpb) hs
  · simp only [escape_other hpa, escape_other hpb, cons_append, nil_append,
      List.cons.injEq, true_and] at h
    obtain ⟨hh, hl, hxy⟩ := h
    have hh := hexDigit_inj (by omega) (by omega) hh
    have hl := hexDigit_inj (by omega) (by omega) hl
    exact ⟨UInt8.toNat_inj.mp (by omega), hxy⟩

theorem escape_ne_nil (b : UInt8) : escape b ≠ [] := by
  unfold escape
  split <;> simp

theorem flatMap_escape_injective :
    Function.Injective fun label : Bytes => label.flatMap escape := by
  intro x
  induction x with
  | nil =>
    intro y h
    cases y with
    | nil => rfl
    | cons b y => simp [escape_ne_nil] at h
  | cons a x ih =>
    intro y h
    cases y with
    | nil => simp [escape_ne_nil] at h
    | cons b y =>
      obtain ⟨rfl, hrest⟩ := escape_append_inj h
      rw [ih hrest]

theorem dot_notMem_escape (b : UInt8) : 46 ∉ escape b := by
  have hd : ∀ n < 16, hexDigit n ≠ 46 := by decide
  have hb := b.toNat_lt
  by_cases hp : isPlain b
  · rw [escape_plain hp, mem_singleton]
    rintro rfl
    exact absurd hp (by decide)
  · simp [escape_other hp, (hd _ (show b.toNat / 16 < 16 by omega)).symm,
      (hd _ (show b.toNat % 16 < 16 by omega)).symm]

theorem suffixStr_inj (hx : xs ≠ []) (hy : ys ≠ [])
    (h : suffixStr xs = suffixStr ys) : xs = ys := by
  have hs : ∀ zs : List Bytes, zs ≠ [] →
      (suffixStr zs).splitOn 46 = zs.map fun la => la.flatMap escape := by
    intro zs hz
    rw [suffixStr, if_neg hz]
    refine splitOn_intercalate 46 ?_ (by simpa using hz)
    intro l hl
    obtain ⟨la, -, rfl⟩ := mem_map.mp hl
    simp [dot_notMem_escape]
  have hm : xs.map (fun la => la.flatMap escape) = ys.map fun la => la.flatMap escape := by
    rw [← hs xs hx, ← hs ys hy, h]
  exact map_injective_iff.mpr flatMap_escape_injective hm

theorem suffixStr_ne_cons (label : Bytes) (hne : suffix ≠ [])
    (hs : suffix <:+ labels) : suffixStr suffix ≠ suffixStr (label :: labels) := by
  intro heq
  have hl := hs.length_le
  rw [suffixStr_inj hne (by simp) heq, length_cons] at hl
  omega

def pointerBytes (ptr : Nat) : Bytes :=
  [0xc0 ||| UInt8.ofNat (ptr / 256), UInt8.ofNat (ptr % 256)]

inductive NameAt (w : Bytes) : Nat → List Bytes → Nat → Nat → Prop
  | root {pos : Nat} : Placed w pos [0] → NameAt w pos [] 0 (pos + 1)
  | label {pos : Nat} {label : Bytes} {labels : List Bytes} {hops e : Nat} :
    label ≠ [] → label.length ≤ 63 → Placed w pos (UInt8.ofNat label.length :: label) →
      NameAt w (pos + (1 + label.length)) labels hops e → NameAt w pos (label :: labels) hops e
  | pointer {pos ptr : Nat} {labels : List Bytes} {hops e : Nat} :
    ptr < 0x4000 → Placed w pos (pointerBytes ptr) → NameAt w ptr labels hops e →
      NameAt w pos labels (hops + 1) (pos + 2)

theorem NameAt.append (h : NameAt w pos labels hops e) (x : Bytes) :
    NameAt (w ++ x) pos labels hops e := by
  induction h with
  | root hp => exact .root (hp.append (by simp) x)
  | label hne hle hp _ ih => exact .label hne hle (hp.append (by simp) x) ih
  | pointer hlt hp _ ih => exact .pointer hlt (hp.append (by simp [pointerBytes]) x) ih

theorem lengthByte_spec (h : n ≤ 63) :
    UInt8.ofNat n &&& 0xc0 = 0 ∧ (UInt8.ofNat n &&& 0x3f).toNat = n := by
  have hall : ∀ n < 64, UInt8.ofNat n &&& 0xc0 = 0 ∧ (UInt8.ofNat n &&& 0x3f).toNat = n := by
    decide
  exact hall n (by omega)

theorem pointerByte_spec (h : n < 64) :
    (0xc0 ||| UInt8.ofNat n) &&& 0xc0 = 0xc0 ∧ ((0xc0 ||| UInt8.ofNat n) &&& 0x3f).toNat = n := by
  have hall : ∀ n < 64, (0xc0 ||| UInt8.ofNat n) &&& 0xc0 = 0xc0 ∧
      ((0xc0 ||| UInt8.ofNat n) &&& 0x3f).toNat = n := by decide
  exact hall n h

def limited {α : Type} (hops : List Nat) (a : α) : Except DnsError α :=
  if ∀ h ∈ hops, h ≤ COMPRESSION_POINTER_LIMIT then .ok a else .error .tooManyPointers

theorem readNameLoop_nameAt (h : NameAt w pos labels hops e) (front : List Bytes)
    (ptrs seekTo : Nat) (hp : ptrs ≤ COMPRESSION_POINTER_LIMIT) :
    readNameLoop w pos front ptrs seekTo =
      limited [ptrs + hops] () >>= fun _ => Name.new (front ++ labels) >>= fun name =>
        .ok (name, if ptrs > 0 then seekTo else e) := by
  induction h generalizing front ptrs seekTo with
  | root h0 =>
    obtain ⟨h0, -⟩ := placed_cons.mp h0
    rw [readNameLoop, h0]
    simp [limited, hp]
  | @label pos label labels hops e hne hle h0 _ ih =>
    have hln := h0.add_length_le (by simp)
    obtain ⟨h0, hl⟩ := placed_cons.mp h0
    obtain ⟨hk, hsize⟩ := lengthByte_spec hle
    have hpo := length_pos_of_ne_nil hne
    rw [length_cons] at hln
    rw [readNameLoop, h0]
    simp only [hk, hsize, ↓reduceIte]
    rw [if_neg (by omega), if_neg (by omega), hl.take_drop, add_assoc, ih _ _ _ hp,
      append_assoc, singleton_append]
  | @pointer pos ptr labels hops e hlt h0 _ ih =>
    obtain ⟨h0, h1⟩ := placed_cons.mp h0
    obtain ⟨h1, -⟩ := placed_cons.mp h1
    obtain ⟨hk, hh⟩ := pointerByte_spec (show ptr / 256 < 64 by omega)
    have hlo : (UInt8.ofNat (ptr % 256)).toNat = ptr % 256 := by
      rw [UInt8.toNat_ofNat', Nat.mod_mod]
    have hof : ptr / 256 * 256 + ptr % 256 = ptr := by omega
    rw [readNameLoop, h0]
    simp only [hk, h1, hh, hlo, hof, ↓reduceIte]
    rw [if_neg (by decide)]
    by_cases ho : ptrs + 1 > COMPRESSION_POINTER_LIMIT
    · have hno : ¬ ∀ h ∈ [ptrs + (hops + 1)], h ≤ COMPRESSION_POINTER_LIMIT := by
        rw [forall_mem_singleton]
        omega
      rw [if_pos ho, limited, if_neg hno, error_bind]
    · rw [if_neg ho, ih _ _ _ (by omega)]
      have hsu : ptrs + 1 + hops = ptrs + (hops + 1) := by omega
      have hs : (if ptrs > 0 then seekTo else pos + 2) = if ptrs = 0 then pos + 2 else seekTo := by
        split <;> split <;> omega
      simp [hsu, hs, ↓reduceIte]

theorem readName_nameAt (h : NameAt w pos name.labels hops e) :
    readName w pos = limited [hops] (name, e) := by
  rw [readName, readNameLoop_nameAt h _ _ _ (by decide), zero_add, nil_append, Name.new_labels]
  unfold limited
  split <;> simp

theorem nameAt_labelBytes (hv : ∀ label ∈ ls, label ≠ [] ∧ label.length ≤ 63)
    (h : Placed w pos (labelBytes ls)) : NameAt w pos ls 0 (pos + (labelBytes ls).length) := by
  induction ls generalizing pos with
  | nil => exact .root h
  | cons label ls ih =>
    obtain ⟨hl, hv⟩ := forall_mem_cons.mp hv
    obtain ⟨h0, hrest⟩ := placed_append.mp h
    rw [length_cons, add_comm label.length] at hrest
    have hle : (labelBytes (label :: ls)).length = 1 + label.length + (labelBytes ls).length := by
      simp [labelBytes]
      omega
    rw [hle, ← add_assoc]
    exact .label hl.1 hl.2 h0 (ih hv hrest)

/-- The writer, with the number of pointers that a reader follows from each position it keeps. -/
structure Traced extends MessageBuilder where
  depth : Bytes → Nat

namespace Traced

variable {t : Traced}

def push (t : Traced) (bytes : Bytes) : Traced :=
  { t with toMessageBuilder := t.toMessageBuilder.push bytes }

def pushLabel (t : Traced) (label : Bytes) (suffix : List Bytes) : Traced :=
  { t with toMessageBuilder := t.toMessageBuilder.pushLabel label suffix }

def writeLabels (t : Traced) : List Bytes → Traced × Nat
  | [] => (t.push [0], 0)
  | label :: labels =>
    match t.pointer? (label :: labels) with
    | some ptr => (t.push (pointerBytes ptr), t.depth (suffixStr (label :: labels)) + 1)
    | none =>
      let (t, hops) := (t.pushLabel label (label :: labels)).writeLabels labels
      ({ t with depth := Function.update t.depth (suffixStr (label :: labels)) hops }, hops)

@[simp] theorem writeLabels_fst (t : Traced) (labels : List Bytes) :
    (t.writeLabels labels).1.toMessageBuilder = t.toMessageBuilder.writeLabels labels := by
  induction labels generalizing t with
  | nil => rfl
  | cons l labels ih =>
    rw [writeLabels, MessageBuilder.writeLabels]
    cases t.pointer? (l :: labels) with
    | some ptr => rfl
    | none => exact ih _

def Finds (t : Traced) (labels : List Bytes) : Prop :=
  ∀ ptr, t.nameCache (suffixStr labels) = some ptr →
    ∃ e, NameAt t.w ptr labels (t.depth (suffixStr labels)) e

def Sound (t : Traced) : Prop := ∀ labels, labels ≠ [] → t.Finds labels

theorem pointer?_eq_some (h : t.pointer? labels = some ptr) :
    t.nameCache (suffixStr labels) = some ptr ∧ ptr < 0x4000 := by
  obtain ⟨hc, hf⟩ := Option.filter_eq_some_iff.mp h
  have hm : ptr &&& 0x3fff = ptr % 0x4000 := Nat.and_two_pow_sub_one_eq_mod ptr 14
  simp only [decide_eq_true_eq] at hf
  exact ⟨hc, by omega⟩

theorem writeLabels_spec (t : Traced) (hv : ∀ label ∈ ls, label ≠ [] ∧ label.length ≤ 63)
    (hf : ∀ suffix, suffix ≠ [] → suffix <:+ ls → t.Finds suffix) :
    (∃ x, (t.writeLabels ls).1.w = t.w ++ x) ∧
    NameAt (t.writeLabels ls).1.w t.w.length ls (t.writeLabels ls).2 (t.writeLabels ls).1.w.length ∧
    ∀ key, ((t.writeLabels ls).1.nameCache key = t.nameCache key ∧
        (t.writeLabels ls).1.depth key = t.depth key) ∨
      ∃ suffix, suffix ≠ [] ∧ suffix <:+ ls ∧ key = suffixStr suffix ∧
        (t.writeLabels ls).1.Finds suffix := by
  induction ls generalizing t with
  | nil =>
    refine ⟨⟨[0], rfl⟩, ?_, fun key => .inl ⟨rfl, rfl⟩⟩
    have hr : NameAt (t.w ++ [0]) t.w.length [] 0 (t.w.length + 1) := .root (.end t.w [0])
    simpa [writeLabels, push, MessageBuilder.push] using hr
  | cons label ls ih =>
    obtain ⟨hl, hv⟩ := forall_mem_cons.mp hv
    cases hpt : t.pointer? (label :: ls) with
    | some ptr =>
      obtain ⟨hc, hlt⟩ := pointer?_eq_some hpt
      obtain ⟨e, hat⟩ := hf _ (by simp) suffix_rfl ptr hc
      simp only [writeLabels, hpt]
      refine ⟨⟨pointerBytes ptr, rfl⟩, ?_, fun key => .inl ⟨rfl, rfl⟩⟩
      have hn := NameAt.pointer hlt (.end t.w (pointerBytes ptr)) (hat.append _)
      simpa [push, MessageBuilder.push, pointerBytes] using hn
    | none =>
      simp only [writeLabels, hpt]
      generalize ht1 : t.pushLabel label (label :: ls) = t1
      have hw1 : t1.w = t.w ++ UInt8.ofNat label.length :: label := by rw [← ht1]; rfl
      have hc1 : t1.nameCache =
          Function.update t.nameCache (suffixStr (label :: ls)) (some t.w.length) := by
        rw [← ht1]; rfl
      have hd1 : t1.depth = t.depth := by rw [← ht1]; rfl
      -- the suffixes still to be written are shorter than this one, so their keys are others
      have ho : ∀ suffix, suffix ≠ [] → suffix <:+ ls →
          suffixStr suffix ≠ suffixStr (label :: ls) := fun suffix => suffixStr_ne_cons label
      have hf1 : ∀ suffix, suffix ≠ [] → suffix <:+ ls → t1.Finds suffix := by
        intro suffix hne hs ptr hpt
        rw [hc1, Function.update_of_ne (ho suffix hne hs)] at hpt
        obtain ⟨e, hat⟩ := hf suffix hne (hs.trans (suffix_cons _ _)) ptr hpt
        exact ⟨e, by rw [hw1, hd1]; exact hat.append _⟩
      obtain ⟨⟨x, hx⟩, hat, hk⟩ := ih t1 hv hf1
      generalize (t1.writeLabels ls).1 = t2 at hx hat hk ⊢
      generalize (t1.writeLabels ls).2 = n at hat ⊢
      have hw2 : t2.w = t.w ++ ((UInt8.ofNat label.length :: label) ++ x) := by
        rw [hx, hw1, append_assoc]
      have hn : NameAt t2.w t.w.length (label :: ls) n t2.w.length := by
        have hp : Placed t2.w t.w.length (UInt8.ofNat label.length :: label) := by
          rw [hx, hw1]
          exact (Placed.end _ _).append (by simp) x
        refine .label hl.1 hl.2 hp ?_
        rw [hw1, length_append, length_cons, Nat.add_comm label.length] at hat
        exact hat
      refine ⟨⟨_, hw2⟩, hn, fun key => ?_⟩
      by_cases hke : key = suffixStr (label :: ls)
      · refine .inr ⟨label :: ls, by simp, suffix_rfl, hke, fun ptr hpt => ?_⟩
        have hc2 : t2.nameCache (suffixStr (label :: ls)) = some t.w.length := by
          rcases hk (suffixStr (label :: ls)) with h | ⟨suffix, hne, hs, heq, -⟩
          · rw [h.1, hc1, Function.update_self]
          · exact absurd heq.symm (ho suffix hne hs)
        obtain rfl : t.w.length = ptr := Option.some.inj (hc2.symm.trans hpt)
        exact ⟨_, by simpa using hn⟩
      · rcases hk key with h | ⟨suffix, hne, hs, heq, hfi⟩
        · refine .inl ⟨?_, ?_⟩
          · rw [h.1, hc1, Function.update_of_ne hke]
          · simp [Function.update_of_ne hke, h.2, hd1]
        · refine .inr ⟨suffix, hne, hs.trans (suffix_cons _ _), heq, fun ptr hpt => ?_⟩
          obtain ⟨e, hat⟩ := hfi ptr hpt
          exact ⟨e, by simpa [Function.update_of_ne (heq ▸ hke)] using hat⟩

theorem Sound.push (h : t.Sound) (x : Bytes) : (t.push x).Sound := by
  intro l hne ptr hp
  obtain ⟨e, hat⟩ := h l hne ptr hp
  exact ⟨e, hat.append x⟩

theorem Sound.writeLabels (h : t.Sound) (hv : ∀ label ∈ labels, label ≠ [] ∧ label.length ≤ 63) :
    (t.writeLabels labels).1.Sound := by
  obtain ⟨⟨x, hx⟩, -, hk⟩ := t.writeLabels_spec hv fun s hne _ => h s hne
  intro n hne ptr hp
  rcases hk (suffixStr n) with ⟨hc, hd⟩ | ⟨s, hne', -, heq, hf⟩
  · rw [hc] at hp
    obtain ⟨e, hat⟩ := h n hne ptr hp
    exact ⟨e, by rw [hx, hd]; exact hat.append x⟩
  · rw [suffixStr_inj hne hne' heq] at hp ⊢
    exact hf ptr hp

end Traced

end XrayCore.Xdns
