import Mathlib.Data.List.GetD
import Mathlib.Data.List.Infix
import XrayCore.Lib.Chunks
import XrayCore.Xdns.Base32
import XrayCore.Xdns.Dns

/-!
# Domains

Data goes into the labels in front of a domain, as base32. How many bytes a name holds follows
from the limits for the length of a name and of a label.
-/

namespace XrayCore.Xdns

open Lib List Base32 Checked

def TYPE_A : UInt16 := 1

def TYPE_CNAME : UInt16 := 5

def TYPE_TXT : UInt16 := 16

def TYPE_AAAA : UInt16 := 28

inductive DomainError
  | invalidDomain
  | lenLimit
  | labelLimit
  | emptyTypes
  | unknownTypes
  | edns0
  | name (e : DnsError)
  | longName
  | cap
  deriving DecidableEq

def DomainError.message : DomainError → String
  | invalidDomain => "invalid domain"
  | lenLimit => "lenLimit < 0 || lenLimit > 255"
  | labelLimit => "labelLimit < 0 || labelLimit > 63"
  | emptyTypes => "empty types"
  | unknownTypes => "unknown types"
  | edns0 => "edns0 != 0 && (edns0 < 512 || edns0 > 4096)"
  | name e => e.message
  | longName => "lenLimit < int(name.Length)+1"
  | cap => "cap < 17"

def typeMap (qtype : UInt16) : Except DomainError UInt8 :=
  if qtype = TYPE_A then .ok 0
  else if qtype = TYPE_CNAME then .ok 1
  else if qtype = TYPE_TXT then .ok 2
  else if qtype = TYPE_AAAA then .ok 3
  else .error .unknownTypes

def typeMap_ (b : UInt8) : UInt16 :=
  if b = 0 then TYPE_A else if b = 1 then TYPE_CNAME else if b = 2 then TYPE_TXT else TYPE_AAAA

def Name.parse (s : Bytes) : Except DnsError Name :=
  let trimmed := if s.getLast? = some 46 then s.dropLast else s
  if trimmed = [] then Name.new [] else Name.new (trimmed.splitOn 46)

def trimDots (s : Bytes) : Bytes :=
  ((s.dropWhile (· == 46)).reverse.dropWhile (· == 46)).reverse

structure Domain where
  name : Name
  lenLimit : Nat
  labelLimit : Nat
  types : List UInt16
  edns0 : UInt16
  cap : Nat
  /-- A bound for the wire length of such a name. -/
  lenMax : Nat
  deriving DecidableEq

namespace Domain

def capOf (room labelLimit : Nat) : Nat :=
  let n := room / (labelLimit + 1)
  let left := room % (labelLimit + 1)
  decodedLen (n * labelLimit + if left > 1 then left - 1 else 0)

def lenMaxOf (nameLen cap labelLimit : Nat) : Nat :=
  let total := encodedLen cap
  nameLen + 1 + total + total / labelLimit + if total % labelLimit > 0 then 1 else 0

def new (domain : Bytes) (lenLimit labelLimit : Nat) (types : List UInt16) (edns0 : UInt16) :
    Except DomainError Domain :=
  if [46, 46] <:+: domain then .error .invalidDomain
  else if lenLimit > 255 then .error .lenLimit
  else if labelLimit > 63 then .error .labelLimit
  else if types = [] then .error .emptyTypes
  else do
    let _ ← types.mapM typeMap
    if edns0 ≠ 0 ∧ ¬ (512 ≤ edns0 ∧ edns0 ≤ 4096) then .error .edns0
    else
      let name ← (Name.parse (trimDots domain ++ [46])).mapError .name
      let nameLen := wireLen name.labels
      if lenLimit < nameLen + 1 then .error .longName
      else
        let cap := capOf (lenLimit - nameLen - 1) labelLimit
        if cap < 17 then .error .cap
        else
          .ok ⟨name, lenLimit, labelLimit, types, edns0, cap, lenMaxOf nameLen cap labelLimit⟩

def eqAsciiCi (a b : Bytes) : Bool :=
  a.length == b.length && (a.zip b).all fun (x, y) => toAsciiLowercase x == toAsciiLowercase y

def isDomain (d : Domain) (name : Name) : Checked Bool :=
  if d.name.labels.length ≥ name.labels.length then .ok false
  else do
    let split ← sub name.labels.length d.name.labels.length
    (List.range d.name.labels.length).allM fun i => do
      let a ← index name.labels (split + i)
      let b ← index d.name.labels i
      .ok (eqAsciiCi a b)

def hasType (d : Domain) (qtype : UInt16) : Bool := qtype ∈ d.types

def encode (d : Domain) (data : Bytes) : Except DnsError Name :=
  let encoded := (encodeLower data).take (encodedLen data.length)
  Name.new (chunks d.labelLimit encoded ++ d.name.labels)

def decode (d : Domain) (name : Name) : Checked Bytes := do
  if ← d.isDomain name then
    let suffixLen := d.name.labels.length
    let split ← sub name.labels.length suffixLen
    let front ← slice name.labels 0 split
    .ok ((decodeUpper (front.flatten.map toAsciiUppercase)).toOption.getD [])
  else .ok []

def Accepted (d : Domain) : Prop :=
  ∃ domain lenLimit labelLimit types edns0, new domain lenLimit labelLimit types edns0 = .ok d

def labelCount (d : Domain) (total : Nat) : Nat := (total + d.labelLimit - 1) / d.labelLimit

structure Sound (d : Domain) : Prop where
  label_pos : 1 ≤ d.labelLimit
  label_le : d.labelLimit ≤ 63
  cap_ge : 17 ≤ d.cap
  edns0 : d.edns0 = 0 ∨ 512 ≤ d.edns0.toNat ∧ d.edns0.toNat ≤ 4096
  types : ∀ t ∈ d.types, t = TYPE_A ∨ t = TYPE_CNAME ∨ t = TYPE_TXT ∨ t = TYPE_AAAA
  fits : wireLen d.name.labels + encodedLen d.cap + d.labelCount (encodedLen d.cap) ≤ 254
  lenMax : d.lenMax = wireLen d.name.labels + 1 + encodedLen d.cap + d.labelCount (encodedLen d.cap)

theorem typeMap_ok (h : typeMap t = .ok b) :
    t = TYPE_A ∨ t = TYPE_CNAME ∨ t = TYPE_TXT ∨ t = TYPE_AAAA := by
  by_contra hn
  simp only [not_or] at hn
  simp [typeMap, hn] at h

variable {α : Type}

theorem mapM_ok_mem {β ε : Type} {f : α → Except ε β} {xs : List α} {ys : List β}
    (h : xs.mapM f = .ok ys) : ∀ x ∈ xs, ∃ y, f x = .ok y := by
  induction xs generalizing ys with
  | nil => simp
  | cons x xs ih =>
    rw [mapM_cons, bind_ok] at h
    obtain ⟨y, hy, h⟩ := h
    obtain ⟨ys', hys, -⟩ := bind_ok.mp h
    exact forall_mem_cons.mpr ⟨⟨y, hy⟩, ih hys⟩

theorem div_ceil (total limit : Nat) (h : 0 < limit) :
    total / limit + (if total % limit > 0 then 1 else 0) = (total + limit - 1) / limit := by
  have hd := Nat.div_add_mod total limit
  have hm := Nat.mod_lt total h
  rw [mul_comm] at hd
  split
  · refine (Nat.div_eq_of_lt_le ?_ ?_).symm
    · rw [Nat.succ_mul]
      omega
    · rw [Nat.succ_mul, Nat.succ_mul]
      omega
  · refine (Nat.div_eq_of_lt_le ?_ ?_).symm
    · rw [add_zero]
      omega
    · rw [add_zero, Nat.succ_mul]
      omega

theorem capOf_fits (lim room : Nat) (hl : 0 < lim) : encodedLen (capOf room lim) +
      (encodedLen (capOf room lim) + lim - 1) / lim ≤ room := by
  generalize ht : encodedLen (capOf room lim) = total
  have hroom : room / (lim + 1) * (lim + 1) + room % (lim + 1) = room :=
    Nat.div_add_mod' room (lim + 1)
  have hle : room % (lim + 1) < lim + 1 := Nat.mod_lt _ (Nat.succ_pos _)
  simp only [capOf, encodedLen, decodedLen] at ht
  generalize room / (lim + 1) = n at hroom ht
  rw [mul_add, mul_one] at hroom
  have hco : ∀ c, total ≤ n * lim + lim * c → (total + lim - 1) / lim ≤ n + c := by
    intro c hc
    rw [Nat.div_le_iff_le_mul_add_pred hl, mul_add, mul_comm lim n]
    omega
  split at ht
  · have := hco 1 (by omega)
    omega
  · have := hco 0 (by omega)
    omega

theorem Accepted.sound {d : Domain} (h : d.Accepted) : d.Sound := by
  obtain ⟨dom, lenLimit, labelLimit, types, edns0, h⟩ := h
  unfold new at h
  split at h
  · exact absurd h (by simp)
  split at h
  · exact absurd h (by simp)
  next hle =>
  split at h
  · exact absurd h (by simp)
  next hl =>
  split at h
  · exact absurd h (by simp)
  obtain ⟨codes, hc, h⟩ := bind_ok.mp h
  split at h
  · exact absurd h (by simp)
  next hedns0 =>
  obtain ⟨name, -, h⟩ := bind_ok.mp h
  dsimp only at h
  split at h
  · exact absurd h (by simp)
  next hn =>
  split at h
  · exact absurd h (by simp)
  next hcap =>
  obtain rfl := Except.ok.inj h
  have hp : 0 < labelLimit := by
    -- with empty labels there is no room at all
    by_contra hz
    obtain rfl : labelLimit = 0 := by omega
    simp [capOf, Nat.mod_one, decodedLen] at hcap
  have hfits := capOf_fits labelLimit (lenLimit - wireLen name.labels - 1) hp
  refine ⟨hp, not_lt.mp hl, not_lt.mp hcap, ?_, fun t ht => ?_, ?_, ?_⟩
  · by_cases hz : edns0 = 0
    · exact .inl hz
    · refine .inr ?_
      have hr := not_not.mp fun hno => hedns0 ⟨hz, hno⟩
      exact ⟨UInt16.le_iff_toNat_le.mp hr.1, UInt16.le_iff_toNat_le.mp hr.2⟩
  · obtain ⟨b, hb⟩ := mapM_ok_mem hc t ht
    exact typeMap_ok hb
  · simp only [labelCount] at hfits ⊢
    omega
  · rw [labelCount, ← div_ceil _ _ hp]
    simp [lenMaxOf, add_assoc]

def under (d : Domain) (name : Name) : Bool :=
  d.name.labels.length < name.labels.length && (List.range d.name.labels.length).all fun i =>
      eqAsciiCi (name.labels.getD (name.labels.length - d.name.labels.length + i) [])
        (d.name.labels.getD i [])

def payload (d : Domain) (name : Name) : Bytes :=
  if d.under name then
    let front := name.labels.take (name.labels.length - d.name.labels.length)
    (decodeUpper (front.flatten.map toAsciiUppercase)).toOption.getD []
  else []

theorem allM_ok {p : α → Checked Bool} {q : α → Bool} {xs : List α}
    (h : ∀ x ∈ xs, p x = .ok (q x)) : xs.allM p = .ok (xs.all q) := by
  induction xs with
  | nil => rfl
  | cons x xs ih =>
    obtain ⟨hx, hxs⟩ := forall_mem_cons.mp h
    rw [List.allM, hx, ok_bind, all_cons]
    cases q x with
    | true => exact ih hxs
    | false => rfl

theorem index_getD (h : i < xs.length) (a : α) : index xs i = .ok (xs.getD i a) :=
  index_of_some (by simp [h])

@[simp] theorem isDomain_eq (d : Domain) (name : Name) : d.isDomain name = .ok (d.under name) := by
  unfold isDomain under
  split
  · next hge => simp [not_lt.mpr hge]
  · next hlt =>
    rw [not_le] at hlt
    rw [sub_of_le (by omega), ok_bind, allM_ok, decide_eq_true hlt, Bool.true_and]
    intro i hi
    rw [mem_range] at hi
    rw [index_getD (by omega) [], ok_bind, index_getD hi [], ok_bind]

@[simp] theorem decode_eq (d : Domain) (name : Name) : d.decode name = .ok (d.payload name) := by
  unfold decode payload
  rw [isDomain_eq, ok_bind]
  cases hunder : d.under name with
  | false => rfl
  | true =>
    have hlt : d.name.labels.length < name.labels.length := by
      simp only [under, Bool.and_eq_true, decide_eq_true_eq] at hunder
      exact hunder.1
    simp [↓reduceIte, sub_of_le hlt.le, slice_of_le (Nat.zero_le _) (Nat.sub_le _ _)]

theorem wireLen_append (front labels : List Bytes) :
    wireLen (front ++ labels) = front.length + front.flatten.length + wireLen labels := by
  induction front with
  | nil => simp
  | cons l front ih =>
    simp [wireLen, ih]
    omega

variable {d : Domain} {data : Bytes}

theorem labelCount_mono (h : m ≤ n) : d.labelCount m ≤ d.labelCount n :=
  Nat.div_le_div_right (by omega)

theorem Sound.encode_ok (h : d.Sound) (hln : data.length ≤ d.cap) :
    ∃ name, d.encode data = .ok name ∧
      name.labels = chunks d.labelLimit (encodeLower data) ++ d.name.labels ∧
      wireLen name.labels + 1 ≤ d.lenMax := by
  have hall : (encodeLower data).take (encodedLen data.length) = encodeLower data := by
    rw [← length_encodeLower, take_length]
  have hw : wireLen (chunks d.labelLimit (encodeLower data) ++ d.name.labels) =
      d.labelCount (encodedLen data.length) + encodedLen data.length + wireLen d.name.labels := by
    rw [wireLen_append, length_chunks h.label_pos, flatten_chunks h.label_pos,
      length_encodeLower, labelCount]
  have he : encodedLen data.length ≤ encodedLen d.cap := by
    simp [encodedLen]
    omega
  have hc := labelCount_mono (d := d) he
  have hfits := h.fits
  have hv : ValidLabels (chunks d.labelLimit (encodeLower data) ++ d.name.labels) := by
    refine ⟨forall_mem_append.mpr ⟨fun l hl => ?_, d.name.valid.1⟩, by omega⟩
    obtain ⟨hne, hle⟩ := mem_chunks hl
    exact ⟨hne, hle.trans h.label_le⟩
  refine ⟨⟨_, hv⟩, by rw [encode, hall]; exact Name.new_labels ⟨_, hv⟩, rfl, ?_⟩
  rw [hw, h.lenMax]
  omega

theorem eqAsciiCi_refl (a : Bytes) : eqAsciiCi a a = true := by
  induction a with
  | nil => rfl
  | cons x a ih => simpa [eqAsciiCi] using ih

theorem payload_of_encode (h : d.Sound) (hne : data ≠ []) {name : Name}
    (hn : name.labels = chunks d.labelLimit (encodeLower data) ++ d.name.labels) :
    d.under name = true ∧ d.payload name = data := by
  have hp := length_pos_of_ne_nil hne
  have hc : 0 < (chunks d.labelLimit (encodeLower data)).length := by
    rw [length_chunks h.label_pos, length_encodeLower, encodedLen]
    have := h.label_pos
    exact Nat.div_pos (by omega) (by omega)
  have hs : name.labels.length - d.name.labels.length =
      (chunks d.labelLimit (encodeLower data)).length := by
    rw [hn, length_append]
    omega
  have hunder : d.under name = true := by
    rw [under, hs, Bool.and_eq_true, decide_eq_true_eq, all_eq_true]
    refine ⟨by rw [hn, length_append]; omega, fun i _ => ?_⟩
    rw [hn, getD_append_right _ _ _ _ (by omega), Nat.add_sub_cancel_left]
    exact eqAsciiCi_refl _
  refine ⟨hunder, ?_⟩
  rw [payload, if_pos hunder, hs, hn, take_left]
  simp only [flatten_chunks h.label_pos, decodeUpper_encodeLower]
  rfl

end Domain

end XrayCore.Xdns
