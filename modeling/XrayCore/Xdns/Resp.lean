import Mathlib.Algebra.Order.BigOperators.Group.List
import XrayCore.Xdns.Domain

/-!
# Responses

A response carries data in its answers, in one of four forms by the type of the question. A, AAAA
and CNAME answers are numbered fragments, the first of which also has their number; a TXT answer
is one record of strings. How much a response carries is computed from its size limit.
-/

namespace XrayCore.Xdns

open Lib List Checked

def asI16 (n : UInt16) : Int := if n.toNat < 0x8000 then n.toNat else n.toNat - 0x10000

structure Resp where
  msg : Message
  domain : Domain
  edns0 : UInt16
  cap : Int
  deriving DecidableEq

namespace Resp

def subAll (start : Int) (xs : List Int) : Checked Int :=
  xs.foldlM (fun left x => isize (left - x)) start

def recordCap (left single unit : Int) : Checked Int := do
  let n ← div left single
  let n := min n 255
  let cap ← isize (unit * n)
  let cap ← isize (cap - n)
  isize (cap - 1)

def txtCap (left : Int) : Checked Int := do
  let n ← div left 255
  let m := left.tmod 255
  let cap ← isize (255 * n)
  let cap ← isize (cap - n)
  if m > 1 then isize (cap + (m - 1)) else .ok cap

def capFor (domain : Domain) (qtype : UInt16) (left : Int) : Checked Int :=
  if qtype = TYPE_A then recordCap left (2 + 2 + 2 + 4 + 2 + 4) 4
  else if qtype = TYPE_CNAME then do
    let single ← isize (2 + 2 + 2 + 4 + 2 + domain.lenMax)
    recordCap left single domain.cap
  else if qtype = TYPE_TXT then do
    let left ← isize (left - (2 + 2 + 2 + 4 + 2))
    txtCap left
  else if qtype = TYPE_AAAA then recordCap left (2 + 2 + 2 + 4 + 2 + 16) 16
  else .ok 0

def size (domain : Domain) (edns0 : UInt16) : Int :=
  min (asI16 (max edns0 512)) (asI16 (max domain.edns0 512))

def new (msg : Message) (domain : Domain) (edns0 : UInt16) : Checked Resp :=
  if msg.flags &&& 0x8000 ≠ 0 then .ok ⟨msg, domain, edns0, 0⟩
  else do
    let q ← index msg.question 0
    let left ← subAll (size domain edns0) [12, wireLen q.name.labels, 1, 2, 2]
    let left ← subAll left (if edns0 > 0 then [1 + 2 + 2 + 4 + 2] else [])
    let cap ← capFor domain q.qtype left
    .ok ⟨msg, domain, edns0, cap⟩

def fragCount (dataLen unit : Nat) : Int :=
  let n : Int := if dataLen > 0 then 1 else 0
  let head : Int := unit - 2
  let more : Int := dataLen - head
  if more > 0 then
    n + more.tdiv (unit - 1) + if more.tmod (unit - 1) > 0 then 1 else 0
  else n

def fragLoop (unit fragN : Nat) : Nat → Nat → Bytes → List Bytes
  | _, 0, _ => []
  | i, k + 1, data =>
    let header := if i = 0 then [UInt8.ofNat i, UInt8.ofNat fragN] else [UInt8.ofNat i]
    let n := min data.length (unit - header.length)
    (header ++ data.take n) :: fragLoop unit fragN (i + 1) k (data.drop n)

def fragments (unit : Nat) (data : Bytes) : List Bytes :=
  let fragN := (fragCount data.length unit).toNat
  fragLoop unit fragN 0 fragN data

def zeroPad (unit : Nat) (part : Bytes) : Bytes :=
  part ++ List.replicate (unit - part.length) 0

def txtData (data : Bytes) : Bytes :=
  (chunks 255 data).flatMap fun s => UInt8.ofNat s.length :: s

def rdatas (domain : Domain) (qtype : UInt16) (data : Bytes) : Except DnsError (List Bytes) :=
  if qtype = TYPE_A then .ok ((fragments 4 data).map (zeroPad 4))
  else if qtype = TYPE_AAAA then .ok ((fragments 16 data).map (zeroPad 16))
  else if qtype = TYPE_CNAME then
    (fragments domain.cap data).mapM fun part => do
      let name ← domain.encode part
      .ok (labelBytes name.labels)
  else if qtype = TYPE_TXT then .ok [txtData data]
  else .ok []

def answer (q : Question) (rdata : Bytes) : RR := ⟨q.name, q.qtype, CLASS_IN, 60, rdata⟩

def optRR (edns0 : UInt16) : RR := ⟨Name.root, RR_TYPE_OPT, edns0, 0, []⟩

def respond (r : Resp) (q : Question) (data : Bytes) : Except DnsError Message := do
  let rdatas ← rdatas r.domain q.qtype data
  .ok { r.msg with
    flags := 0x8000 ||| 0x0400
    answer := rdatas.map (answer q)
    authority := []
    additional := if r.edns0 > 0 then [optRR r.edns0] else [] }

def encode (r : Resp) (data : Bytes) : Checked (Except DnsError Bytes) := do
  let q ← index r.msg.question 0
  .ok (do
    let m ← r.respond q data
    m.wireFormat)

inductive WireNameError
  | nameEof
  | compressedName
  | labelEof
  | name (e : DnsError)

def WireNameError.message : WireNameError → String
  | nameEof => "name eof"
  | compressedName => "compressed name"
  | labelEof => "label eof"
  | name e => e.message

def nameFromWireLoop (labels : List Bytes) (buf : Bytes) : Except WireNameError Name :=
  match buf with
  | [] => .error .nameEof
  | len :: rest =>
    if len = 0 then (Name.new labels).mapError .name
    else if len &&& 0xc0 ≠ 0 then .error .compressedName
    else if rest.length < len.toNat then .error .labelEof
    else nameFromWireLoop (labels ++ [rest.take len.toNat]) (rest.drop len.toNat)
termination_by buf.length
decreasing_by
  simp only [length_drop, length_cons]
  omega

def nameFromWire (buf : Bytes) : Except WireNameError Name := nameFromWireLoop [] buf

def txtLoop (rdata : Bytes) : Bytes :=
  match rdata with
  | [] => []
  | slen :: rest =>
    if rest.length < slen.toNat then []
    else rest.take slen.toNat ++ txtLoop (rest.drop slen.toNat)
termination_by rdata.length
decreasing_by
  simp only [length_drop, length_cons]
  omega

def fragOf (domain : Domain) (qtype : UInt16) (rr : RR) : Checked (Option Bytes) := do
  let ours ← domain.isDomain rr.name
  if !ours || rr.rtype ≠ qtype then .ok none
  else if qtype = TYPE_A then .ok (if rr.data.length = 4 then some rr.data else none)
  else if qtype = TYPE_AAAA then .ok (if rr.data.length = 16 then some rr.data else none)
  else if qtype = TYPE_CNAME then
    match nameFromWire rr.data with
    | .error _ => .ok none
    | .ok name =>
      let part ← domain.decode name
      .ok (if part = [] then none else some part)
  else .ok none

def joinLoop (previous : UInt8) (decoded : Bytes) : List Bytes → Checked Bytes
  | [] => .ok decoded
  | frag :: frags => do
    let number ← index frag 0
    if number = previous then .ok []
    else
      let rest ← slice frag 1 frag.length
      joinLoop number (decoded ++ rest) frags

def join (frags : List Bytes) : Checked Bytes :=
  match frags with
  | [] => .ok []
  | first :: frags =>
    if first.length < 2 then .ok []
    else do
      let count ← index first 1
      if count.toNat > frags.length + 1 then .ok []
      else
        let head ← slice first 2 first.length
        let number ← index first 0
        joinLoop number head frags

def sortFrags (frags : List Bytes) : List Bytes :=
  frags.mergeSort fun a b => byteAt a 0 ≤ byteAt b 0

def decode (r : Resp) : Checked Bytes := do
  let q ← index r.msg.question 0
  if q.qtype = TYPE_TXT then
    match r.msg.answer with
    | [rr] => do
      let ours ← r.domain.isDomain rr.name
      .ok (if ours && rr.rtype = TYPE_TXT then txtLoop rr.data else [])
    | _ => .ok []
  else
    let frags ← r.msg.answer.filterMapM (fragOf r.domain q.qtype)
    join (sortFrags frags)

def room (domain : Domain) (edns0 : UInt16) (q : Question) : Int :=
  size domain edns0 - 12 - wireLen q.name.labels - 5 - if edns0 > 0 then 11 else 0

def recordCapacity (left single unit : Int) : Int :=
  unit * min (left.tdiv single) 255 - min (left.tdiv single) 255 - 1

def txtCapacity (left : Int) : Int :=
  255 * left.tdiv 255 - left.tdiv 255 + if left.tmod 255 > 1 then left.tmod 255 - 1 else 0

def capacity (domain : Domain) (qtype : UInt16) (left : Int) : Int :=
  if qtype = TYPE_A then recordCapacity left 16 4
  else if qtype = TYPE_CNAME then recordCapacity left (12 + domain.lenMax) domain.cap
  else if qtype = TYPE_TXT then txtCapacity (left - 12)
  else if qtype = TYPE_AAAA then recordCapacity left 28 16
  else 0

theorem subAll_ok (hp : ∀ x ∈ xs, 0 ≤ x)
    (hlo : -0x8000000000000000 ≤ start - xs.sum) (hhi : start < 0x8000000000000000) :
    subAll start xs = .ok (start - xs.sum) := by
  induction xs generalizing start with
  | nil => simp [subAll]; rfl
  | cons x xs ih =>
    obtain ⟨hx, hxs⟩ := forall_mem_cons.mp hp
    have hs := sum_nonneg hxs
    rw [sum_cons] at hlo ⊢
    rw [subAll, foldlM_cons, isize_of_fits (by omega), ok_bind, ← subAll,
      ih hxs (by omega) (by omega)]
    congr 1
    omega

theorem natAbs_tdiv_le (x y : Int) : (x.tdiv y).natAbs ≤ x.natAbs := by
  rw [Int.natAbs_tdiv]
  exact Nat.div_le_self _ _

variable {left single unit : Int} {d : Domain}

theorem recordCap_eq (hl : left.natAbs ≤ 40000) (hs : single ≠ 0) (hu : unit.natAbs ≤ 255) :
    recordCap left single unit = .ok (recordCapacity left single unit) := by
  have hd := natAbs_tdiv_le left single
  have hm : (min (left.tdiv single) 255).natAbs ≤ 40000 := by omega
  have hmu : (unit * min (left.tdiv single) 255).natAbs ≤ 255 * 40000 := by
    rw [Int.natAbs_mul]
    exact Nat.mul_le_mul hu hm
  rw [recordCap, div_of_ne hs (by omega), ok_bind]
  dsimp only
  rw [isize_of_fits (by omega), ok_bind, isize_of_fits (by omega), ok_bind,
    isize_of_fits (by omega), recordCapacity]

theorem txtCap_eq (hl : left.natAbs ≤ 40000) : txtCap left = .ok (txtCapacity left) := by
  have hd := natAbs_tdiv_le left 255
  have hm : (left.tmod 255).natAbs ≤ 255 := by
    rw [Int.natAbs_tmod]
    exact le_of_lt (Nat.mod_lt _ (by decide))
  rw [txtCap, div_of_ne (by decide) (by omega), ok_bind]
  rw [isize_of_fits (by omega), ok_bind, isize_of_fits (by omega), ok_bind, txtCapacity]
  split
  · exact isize_of_fits (by omega)
  · rw [Int.add_zero]

theorem cap_le_of_sound (h : d.Sound) : d.cap ≤ 255 ∧ d.lenMax ≤ 255 := by
  have hfits := h.fits
  have hm := h.lenMax
  have he : d.cap ≤ Base32.encodedLen d.cap := by
    simp [Base32.encodedLen]
    omega
  omega

theorem capFor_eq (h : d.Sound) (qtype : UInt16) (hl : left.natAbs ≤ 39000) :
    capFor d qtype left = .ok (capacity d qtype left) := by
  obtain ⟨hcap, hm⟩ := cap_le_of_sound h
  unfold capFor capacity
  split
  · exact recordCap_eq (by omega) (by decide) (by decide)
  split
  · rw [isize_of_fits (by omega), ok_bind, recordCap_eq (by omega) (by omega) (by omega)]
    rfl
  split
  · rw [isize_of_fits (by omega), ok_bind, txtCap_eq (by omega)]
    rfl
  split
  · exact recordCap_eq (by omega) (by decide) (by decide)
  · rfl

theorem asI16_natAbs_le (n : UInt16) : (asI16 n).natAbs ≤ 32768 := by
  have hn := n.toNat_lt
  rw [asI16]
  split <;> omega

theorem new_eq {msg : Message} {q : Question} {qs : List Question} (h : d.Sound)
    (hf : msg.flags &&& 0x8000 = 0) (hq : msg.question = q :: qs) (edns0 : UInt16) :
    new msg d edns0 = .ok ⟨msg, d, edns0, capacity d q.qtype (room d edns0 q)⟩ := by
  have hsize : (size d edns0).natAbs ≤ 32768 := by
    have h1 := asI16_natAbs_le (max edns0 512)
    have h2 := asI16_natAbs_le (max d.edns0 512)
    rw [size]
    omega
  have hn := q.name.valid.2
  have hl : subAll (size d edns0) [12, wireLen q.name.labels, 1, 2, 2] =
      .ok (size d edns0 - 12 - wireLen q.name.labels - 5) := by
    rw [subAll_ok (by simp) (by simp; omega) (by omega)]
    simp
    omega
  have hroom : subAll (size d edns0 - 12 - wireLen q.name.labels - 5)
      (if edns0 > 0 then [1 + 2 + 2 + 4 + 2] else []) = .ok (room d edns0 q) := by
    rw [room]
    split
    · rw [subAll_ok (by simp) (by simp; omega) (by omega)]
      simp
    · rw [Int.sub_zero]
      rfl
  have hb : (room d edns0 q).natAbs ≤ 39000 := by
    rw [room]
    split <;> omega
  rw [new, if_neg (not_not.mpr hf), hq, index_of_some rfl, ok_bind, hl, ok_bind,
    hroom, ok_bind, capFor_eq h q.qtype hb, ok_bind]

end Resp

end XrayCore.Xdns
