import XrayCore.Xdns.NameCompression

/-!
# Reading back a written message

The message that is read is the one that was written, unless a name was written at the end of too
long a chain of pointers: a name that extends one before it costs one pointer more than that one.
-/

namespace XrayCore.Xdns

open Lib MessageBuilder Traced

variable {α : Type} {w : Bytes} {pos e hops : Nat}

theorem limited_nil (a : α) : limited [] a = .ok a := by simp [limited]

variable {a : α}

theorem limited_bind {β : Type} {hops : List Nat} {b : β} {f : α → Except DnsError β}
    (hf : f a = .ok b) : limited hops a >>= f = limited hops b := by
  unfold limited
  split
  · exact hf
  · rfl

theorem limited_bind_limited {β : Type} {hops hops' : List Nat} {b : β}
    {f : α → Except DnsError β} (hf : f a = limited hops' b) :
    limited hops a >>= f = limited (hops ++ hops') b := by
  by_cases h : ∀ n ∈ hops, n ≤ COMPRESSION_POINTER_LIMIT
  · have hall : (∀ n ∈ hops ++ hops', n ≤ COMPRESSION_POINTER_LIMIT) ↔
        ∀ n ∈ hops', n ≤ COMPRESSION_POINTER_LIMIT :=
      List.forall_mem_append.trans (and_iff_right h)
    rw [limited, if_pos h, ok_bind, hf, limited, limited]
    simp only [hall]
  · have hn : ¬ ∀ n ∈ hops ++ hops', n ≤ COMPRESSION_POINTER_LIMIT :=
      fun hall => h (List.forall_mem_append.mp hall).1
    rw [limited, if_neg h, error_bind, limited, if_neg hn]

theorem limited_eq_ok {hops : List Nat} :
    limited hops a = .ok a ↔ ∀ n ∈ hops, n ≤ COMPRESSION_POINTER_LIMIT := by
  unfold limited
  split <;> simp_all

theorem readExact_placed (h : Placed w pos x) (hn : x.length = n)
    (hle : pos + n ≤ w.length) : readExact w pos n = .ok (x, pos + n) := by
  rw [readExact, if_pos hle, ← hn, h.take_drop]

def Question.tail (q : Question) : Bytes := be16 q.qtype ++ be16 q.qclass

def RR.head (rr : RR) : Bytes := be16 rr.rtype ++ (be16 rr.rclass ++ be32 rr.ttl)

def RR.tail (rr : RR) : Bytes :=
  rr.head ++ (be16 (UInt16.ofNat rr.data.length) ++ rr.data)

def ItemAt (name : α → Name) (tail : α → Bytes) (w : Bytes) (a : α) (pos hops e : Nat) : Prop :=
  ∃ mid, NameAt w pos (name a).labels hops mid ∧ Placed w mid (tail a) ∧
    e = mid + (tail a).length ∧ e ≤ w.length

abbrev QuestionAt : Bytes → Question → Nat → Nat → Nat → Prop :=
  ItemAt Question.name Question.tail

abbrev RRAt : Bytes → RR → Nat → Nat → Nat → Prop := ItemAt RR.name RR.tail

theorem readQuestion_at (h : QuestionAt w q pos hops e) :
    readQuestion w pos = limited [hops] (q, e) := by
  obtain ⟨mid, hn, ht, rfl, hle⟩ := h
  rw [readQuestion, readName_nameAt hn]
  refine limited_bind ?_
  dsimp only
  have hl : q.tail.length = 4 := rfl
  have htype : u16At q.tail 0 = q.qtype := u16At_be16 _ _
  have hc : u16At q.tail 2 = q.qclass := u16At_be16 _ []
  rw [hl] at hle ⊢
  rw [readExact_placed ht hl hle, ok_bind, htype, hc]

def RR.PlainCname (rr : RR) : Prop :=
  rr.rtype = RR_TYPE_CNAME → ∃ cname : Name, rr.data = labelBytes cname.labels

theorem readRR_at (hl : rr.data.length ≤ 0xffff) (hp : rr.PlainCname)
    (h : RRAt w rr pos hops e) : readRR w pos = limited [hops] (rr, e) := by
  obtain ⟨mid, hn, ht, rfl, hle⟩ := h
  obtain ⟨hh, ht⟩ := placed_append.mp ht
  obtain ⟨hsize, hdata⟩ := placed_append.mp ht
  have hh8 : rr.head.length = 8 := rfl
  have ht' : rr.tail.length = 10 + rr.data.length := by
    simp [RR.tail, hh8, add_comm]
  rw [ht'] at hle ⊢
  rw [hh8] at hsize hdata
  rw [length_be16] at hdata
  have htype : u16At rr.head 0 = rr.rtype := u16At_be16 _ _
  have hcl : u16At rr.head 2 = rr.rclass := u16At_be16 _ (be32 rr.ttl)
  have htt : u32At rr.head 4 = rr.ttl := u32At_be32 _ []
  have hco : (u16At (be16 (UInt16.ofNat rr.data.length)) 0).toNat = rr.data.length := by
    have hr : u16At (be16 (UInt16.ofNat rr.data.length)) 0 = UInt16.ofNat rr.data.length :=
      u16At_be16 _ []
    rw [hr, UInt16.toNat_ofNat']
    omega
  rw [readRR, readName_nameAt hn]
  refine limited_bind ?_
  dsimp only
  rw [readExact_placed hh hh8 (by omega), ok_bind]
  dsimp only
  rw [readExact_placed hsize (length_be16 _) (by omega), ok_bind]
  dsimp only
  rw [hco, readExact_placed hdata rfl (by omega), ok_bind]
  simp only [htype, hcl, htt]
  have he : mid + 8 + 2 + rr.data.length = mid + (10 + rr.data.length) := by omega
  split
  · rw [he]
  · next hc =>
    -- the data is read again as a name; it has no pointers and ends where the data does
    obtain ⟨hc, -⟩ := not_or.mp hc
    obtain ⟨c, hcn⟩ := hp (not_not.mp hc)
    have hat := nameAt_labelBytes c.valid.1 (hcn ▸ hdata)
    rw [readName_nameAt hat, limited, if_pos (by simp)]
    simp [← hcn, he]

theorem readExact_ok (h : readExact buf pos n = .ok (b, next)) :
    b = (buf.drop pos).take n ∧ next = pos + n ∧ pos + n ≤ buf.length := by
  unfold readExact at h
  split at h
  · next hle => cases h; exact ⟨rfl, rfl, hle⟩
  · cases h

/-- A CNAME record of the root whose data begin with the root. -/
def rootAlias (len : UInt8) : Bytes := [0, 0, 5, 0, 1, 0, 0, 0, 0, 0, len, 0, 7, 7]

inductive EachAt (P : α → Nat → Nat → Nat → Prop) : List α → List Nat → Nat → Nat → Prop
  | nil {pos : Nat} : EachAt P [] [] pos pos
  | cons {a : α} {as : List α} {pos h mid e : Nat} {hs : List Nat} :
    P a pos h mid → EachAt P as hs mid e → EachAt P (a :: as) (h :: hs) pos e

section
variable {P Q : α → Nat → Nat → Nat → Prop} {as bs : List α} {hs : List Nat}

theorem EachAt.mono (h : EachAt P as hs pos e) (hPQ : ∀ a pos h e, P a pos h e → Q a pos h e) :
    EachAt Q as hs pos e := by
  induction h with
  | nil => exact .nil
  | cons hp _ ih => exact .cons (hPQ _ _ _ _ hp) ih

theorem EachAt.append_inv (h : EachAt P (as ++ bs) hs pos e) :
    ∃ hs1 hs2 mid, hs = hs1 ++ hs2 ∧ EachAt P as hs1 pos mid ∧ EachAt P bs hs2 mid e := by
  induction as generalizing hs pos with
  | nil => exact ⟨[], hs, pos, rfl, .nil, h⟩
  | cons a as ih =>
    cases h with
    | cons hp h =>
      obtain ⟨hs1, hs2, mid, rfl, h1, h2⟩ := ih h
      exact ⟨_ :: hs1, hs2, mid, rfl, .cons hp h1, h2⟩

theorem readMany_at {read : Nat → Except DnsError (α × Nat)}
    (hr : ∀ a ∈ as, ∀ pos h e, P a pos h e → read pos = limited [h] (a, e))
    (h : EachAt P as hs pos e) : readMany read as.length pos = limited hs (as, e) := by
  induction h with
  | nil => rw [limited_nil]; rfl
  | cons hp _ ih =>
    obtain ⟨hr, hrest⟩ := List.forall_mem_cons.mp hr
    rw [List.length_cons, readMany, hr _ _ _ hp, ← List.singleton_append]
    refine limited_bind_limited ?_
    dsimp only
    rw [ih hrest]
    exact limited_bind rfl

end

theorem ItemAt.append (ht : tail a ≠ [])
    (x : Bytes) (h : ItemAt name tail w a pos hops e) : ItemAt name tail (w ++ x) a pos hops e := by
  obtain ⟨mid, hn, hp, rfl, hle⟩ := h
  refine ⟨mid, hn.append x, hp.append ht x, rfl, ?_⟩
  rw [List.length_append]
  omega

namespace Traced

def writeItem (name : α → Name) (tail : α → Bytes) (t : Traced) (a : α) : Traced × Nat :=
  let (t, hops) := t.writeLabels (name a).labels
  (t.push (tail a), hops)

def writeMany (name : α → Name) (tail : α → Bytes) (t : Traced) : List α → Traced × List Nat
  | [] => (t, [])
  | a :: as =>
    let (t, h) := t.writeItem name tail a
    let (t, hs) := t.writeMany name tail as
    (t, h :: hs)

section
variable (name : α → Name) (tail : α → Bytes) {t : Traced}

theorem writeItem_spec (ht : t.Sound) (a : α) :
    (t.writeItem name tail a).1.Sound ∧ (∃ x, (t.writeItem name tail a).1.w = t.w ++ x) ∧
    ItemAt name tail (t.writeItem name tail a).1.w a t.w.length (t.writeItem name tail a).2
      (t.writeItem name tail a).1.w.length := by
  obtain ⟨⟨x, hx⟩, hat, -⟩ := t.writeLabels_spec (name a).valid.1 fun s hne _ => ht s hne
  have hsound := ht.writeLabels (name a).valid.1
  simp only [writeItem]
  generalize (t.writeLabels (name a).labels).1 = t1 at hx hat hsound ⊢
  refine ⟨hsound.push (tail a), ⟨x ++ tail a, ?_⟩, _, hat.append (tail a), .end t1.w (tail a), ?_,
    le_refl _⟩
  · rw [push, MessageBuilder.push, hx, List.append_assoc]
  · rw [push, MessageBuilder.push, List.length_append]

theorem writeMany_spec (ht : t.Sound) (hta : ∀ a, tail a ≠ []) (as : List α) :
    (t.writeMany name tail as).1.Sound ∧ (∃ x, (t.writeMany name tail as).1.w = t.w ++ x) ∧
    EachAt (ItemAt name tail (t.writeMany name tail as).1.w) as (t.writeMany name tail as).2
      t.w.length (t.writeMany name tail as).1.w.length := by
  induction as generalizing t with
  | nil => exact ⟨ht, ⟨[], (List.append_nil _).symm⟩, .nil⟩
  | cons a as ih =>
    obtain ⟨ht1, ⟨x, hx⟩, hat⟩ := writeItem_spec name tail ht a
    obtain ⟨ht2, ⟨y, hy⟩, he⟩ := ih ht1
    simp only [writeMany]
    refine ⟨ht2, ⟨x ++ y, by rw [hy, hx, List.append_assoc]⟩, .cons ?_ he⟩
    rw [hy]
    exact hat.append (hta a) y

end

end Traced

def Message.header (m : Message) : Bytes :=
  be16 m.id ++ be16 m.flags ++ m.counts.flatMap fun c => be16 (UInt16.ofNat c)

def Traced.start (m : Message) : Traced :=
  { toMessageBuilder := MessageBuilder.new.push m.header, depth := fun _ => 0 }

/-- For each name of the message, in the order of writing, how many pointers a reader follows: none
if it shares no suffix with one before it, otherwise one more than for that suffix. -/
def Message.pointerDepths (m : Message) : List Nat :=
  let (t, depths) := (start m).writeMany Question.name Question.tail m.question
  depths ++ (t.writeMany RR.name RR.tail m.records).2

theorem foldl_writeQuestion (t : Traced) (qs : List Question) :
    qs.foldl writeQuestion t.toMessageBuilder =
      (t.writeMany Question.name Question.tail qs).1.toMessageBuilder := by
  induction qs generalizing t with
  | nil => rfl
  | cons q qs ih =>
    rw [List.foldl_cons, Traced.writeMany, ← ih]
    simp [Traced.writeItem, Traced.push, writeQuestion, Question.tail]

theorem writeRR_traced (t : Traced) (hl : rr.data.length ≤ 0xffff) :
    t.toMessageBuilder.writeRR rr = .ok (t.writeItem RR.name RR.tail rr).1.toMessageBuilder := by
  simp only [writeRR, if_pos hl, Except.ok.injEq]
  simp [Traced.writeItem, Traced.push, MessageBuilder.push, RR.tail, RR.head]

theorem foldlM_writeRR (t : Traced) {rrs : List RR} (h : ∀ rr ∈ rrs, rr.data.length ≤ 0xffff) :
    rrs.foldlM writeRR t.toMessageBuilder =
      .ok (t.writeMany RR.name RR.tail rrs).1.toMessageBuilder := by
  induction rrs generalizing t with
  | nil => rfl
  | cons rr rrs ih =>
    obtain ⟨hrr, h⟩ := List.forall_mem_cons.mp h
    rw [List.foldlM_cons, writeRR_traced t hrr, ok_bind, ih _ h, Traced.writeMany]

theorem length_le_of_foldlM_writeRR {b b' : MessageBuilder} {rrs : List RR}
    (h : rrs.foldlM writeRR b = .ok b') : ∀ rr ∈ rrs, rr.data.length ≤ 0xffff := by
  induction rrs generalizing b with
  | nil => simp
  | cons rr rrs ih =>
    rw [List.foldlM_cons, bind_ok] at h
    obtain ⟨b1, hb1, h⟩ := h
    refine List.forall_mem_cons.mpr ⟨?_, ih h⟩
    by_contra hl
    simp [writeRR, if_neg hl] at hb1

def Traced.finish (m : Message) : Traced :=
  (((start m).writeMany Question.name Question.tail m.question).1.writeMany RR.name RR.tail
    m.records).1

def Message.Fits (m : Message) : Prop :=
  (∀ c ∈ m.counts, c ≤ 0xffff) ∧ ∀ rr ∈ m.records, rr.data.length ≤ 0xffff

variable {m : Message}

theorem Message.Fits.wireFormat (h : m.Fits) : m.wireFormat = .ok (finish m).w := by
  have hco : ¬ ∃ c ∈ m.counts, c > 0xffff := by
    rintro ⟨c, hc, hgt⟩
    exact not_lt.mpr (h.1 c hc) hgt
  have hw : MessageBuilder.new.writeMessage m = .ok (finish m).toMessageBuilder := by
    rw [writeMessage, if_neg hco]
    refine Eq.trans ?_ (foldlM_writeRR _ h.2)
    rw [← foldl_writeQuestion]
    rfl
  rw [Message.wireFormat, hw, ok_bind]

theorem fits_of_wireFormat {bytes : Bytes} (hw : m.wireFormat = .ok bytes) : m.Fits := by
  obtain ⟨b, hb, -⟩ := bind_ok.mp hw
  rw [writeMessage] at hb
  split at hb
  · exact absurd hb (by simp)
  next hco =>
  exact ⟨fun c hc => not_lt.mp fun hlt => hco ⟨c, hc, hlt⟩, length_le_of_foldlM_writeRR hb⟩

theorem Traced.sound_start (m : Message) : (start m).Sound := by
  intro l _ ptr hp
  exact absurd hp (by simp [start, MessageBuilder.push, MessageBuilder.new])

theorem finish_layout (m : Message) : Placed (finish m).w 0 m.header ∧ 12 ≤ (finish m).w.length ∧
    ∃ hq hr mid, m.pointerDepths = hq ++ hr ∧
      EachAt (QuestionAt (finish m).w) m.question hq 12 mid ∧
      EachAt (RRAt (finish m).w) m.records hr mid (finish m).w.length := by
  obtain ⟨hsound, ⟨x, hx⟩, hq⟩ := writeMany_spec Question.name Question.tail (sound_start m)
      (fun _ => by simp [Question.tail, be16]) m.question
  obtain ⟨-, ⟨y, hy⟩, hr⟩ :=
    writeMany_spec RR.name RR.tail hsound (fun _ => by simp [RR.tail, RR.head, be16]) m.records
  have hs : (start m).w = m.header := rfl
  have hl : m.header.length = 12 := rfl
  unfold finish
  refine ⟨?_, ?_, _, _, _, rfl, ?_, hr⟩
  · rw [hy, hx, hs, List.append_assoc]
    exact ⟨_, rfl⟩
  · rw [hy, hx, hs, List.length_append, List.length_append, hl]
    omega
  · rw [hy]
    exact hq.mono fun q pos h e hat => hat.append (by simp [Question.tail, be16]) y

theorem u16At_header_counts (m : Message) (hc : ∀ c ∈ m.counts, c ≤ 0xffff) :
    (u16At m.header 4).toNat = m.question.length ∧ (u16At m.header 6).toNat = m.answer.length ∧
    (u16At m.header 8).toNat = m.authority.length ∧
    (u16At m.header 10).toNat = m.additional.length := by
  have hr : ∀ c ∈ m.counts, (ofBe16 (UInt8.ofNat ((UInt16.ofNat c).toNat / 256))
      (UInt8.ofNat (UInt16.ofNat c).toNat)).toNat = c := by
    intro c hm
    have := hc c hm
    rw [ofBe16_be16, UInt16.toNat_ofNat']
    omega
  simp only [Message.counts, List.mem_cons, List.not_mem_nil, or_false, forall_eq_or_imp,
    forall_eq] at hr
  exact hr

theorem messageFromWireFormat_limited {bytes : Bytes}
    (hp : ∀ rr ∈ m.records, rr.PlainCname) (hw : m.wireFormat = .ok bytes) :
    messageFromWireFormat bytes = limited m.pointerDepths m := by
  obtain ⟨hc, hdata⟩ := fits_of_wireFormat hw
  obtain rfl := Except.ok.inj (hw.symm.trans (fits_of_wireFormat hw).wireFormat)
  obtain ⟨hh, hl, hq, hr, mid, hd, haq, ha⟩ := finish_layout m
  generalize (finish m).w = bytes at hh hl haq ha ⊢
  obtain ⟨hcq, hca, hcn, hcr⟩ := u16At_header_counts m hc
  have hrrr : ∀ rr ∈ m.records, ∀ pos h e, RRAt bytes rr pos h e →
      readRR bytes pos = limited [h] (rr, e) :=
    fun rr hrr pos h e hat => readRR_at (hdata rr hrr) (hp rr hrr) hat
  simp only [Message.records, List.forall_mem_append] at hrrr
  obtain ⟨⟨hra, hrn⟩, hrr⟩ := hrrr
  obtain ⟨hr1, hs3, mid3, rfl, ha, hat3⟩ := ha.append_inv
  obtain ⟨hs1, hs2, mid2, rfl, hat1, hat2⟩ := ha.append_inv
  have hm : readMessage bytes = limited m.pointerDepths (m, bytes.length) := by
    have hre : readExact bytes 0 12 = .ok (m.header, 12) := readExact_placed hh rfl hl
    rw [readMessage, hre, ok_bind, hd]
    dsimp only
    rw [hcq, readMany_at (fun q _ pos h e hat => readQuestion_at hat) haq]
    refine limited_bind_limited ?_
    dsimp only
    rw [hca, readMany_at hra hat1, List.append_assoc]
    refine limited_bind_limited ?_
    dsimp only
    rw [hcn, readMany_at hrn hat2]
    refine limited_bind_limited ?_
    dsimp only
    rw [hcr, readMany_at hrr hat3]
    refine limited_bind ?_
    have hid : u16At m.header 0 = m.id := ofBe16_be16 m.id
    have hf : u16At m.header 2 = m.flags := ofBe16_be16 m.flags
    rw [hid, hf]
  rw [messageFromWireFormat, hm]
  exact limited_bind (if_neg (lt_irrefl _))

/-- A message is read back exactly if none of its names needs more pointers than the reader
follows. -/
theorem wireFormat_readable_iff (m : Message) (bytes : Bytes)
    (hplain : ∀ rr ∈ m.records, rr.PlainCname) (hw : m.wireFormat = .ok bytes) :
    messageFromWireFormat bytes = .ok m ↔
      ∀ depth ∈ m.pointerDepths, depth ≤ COMPRESSION_POINTER_LIMIT := by
  rw [messageFromWireFormat_limited hplain hw, limited_eq_ok]

def aliasMessage : Message :=
  { id := 7, flags := 0x8400
    question := [⟨Name.root, 1, 1⟩]
    answer := [⟨Name.root, RR_TYPE_CNAME, 1, 60, [1, 97, 0]⟩]
    authority := [], additional := [] }

theorem valid_a : ValidLabels [[97]] := by decide

theorem aliasMessage_plain : ∀ rr ∈ aliasMessage.records, rr.PlainCname := by
  intro rr hrr _
  obtain rfl := List.mem_singleton.mp hrr
  exact ⟨⟨[[97]], valid_a⟩, rfl⟩

theorem wireFormat_readable_alias : ∃ bytes, aliasMessage.wireFormat = .ok bytes ∧
    messageFromWireFormat bytes = .ok aliasMessage := by
  refine ⟨_, rfl, ?_⟩
  exact (wireFormat_readable_iff aliasMessage _ aliasMessage_plain rfl).mpr (by decide)

def nestedQuestions (n : Nat) : Message :=
  { id := 0, flags := 0
    question := (List.range n).filterMap fun k =>
      (Name.new (List.replicate (k + 1) [97])).toOption.map (⟨·, 1, CLASS_IN⟩)
    answer := [], authority := [], additional := [] }

/-- Each name points to the one before it; the twelfth is eleven pointers away from its end. -/
theorem nestedQuestions_unreadable : (nestedQuestions 12).pointerDepths = List.range 12 ∧
    ((nestedQuestions 12).wireFormat >>= messageFromWireFormat) = .error .tooManyPointers ∧
    ((nestedQuestions 11).wireFormat >>= messageFromWireFormat) = .ok (nestedQuestions 11) := by
  decide +kernel

end XrayCore.Xdns
