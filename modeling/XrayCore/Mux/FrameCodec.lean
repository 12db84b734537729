import XrayCore.Lib.Fallible
import XrayCore.Mux.Frame

/-!
# Reading frame metadata back

What each of the two reading modes returns for metadata that was written, and for
which metadata that is what was written. A frame with a source is one for the mode
that reads sources, and that mode reads no GlobalID.
-/

namespace XrayCore.Mux

open Lib Net Buf List TargetNetwork
open XrayCore.Xudp (GlobalId)

theorem addrWireLen_ok (h : addrWireLen addr = .ok n) :
    addr.Short ∧ (encodeAddress addr).length = 1 + n := by
  cases addr with
  | ipv4 v4 =>
    cases h
    exact ⟨trivial, by rw [encodeAddress, length_cons, v4.length_octets]⟩
  | ipv6 v6 =>
    cases h
    exact ⟨trivial, by rw [encodeAddress, length_cons, v6.length_octets]⟩
  | domain d =>
    simp only [addrWireLen] at h
    split at h
    · cases h
    · next hl =>
      cases h
      refine ⟨not_lt.mp hl, ?_⟩
      rw [encodeAddress, length_cons, length_cons]
      omega

variable {t : Destination} {b : Bytes}

theorem writeTargetToVec_ok (h : writeTargetToVec t = .ok b) :
    ∃ net, fromNetwork t.network = some net ∧ t.address.Short ∧
      b = net.toByte :: encodePortAddress t.port t.address := by
  unfold writeTargetToVec at h
  split at h
  · cases h
  · next net hn =>
    obtain ⟨n, hl, hb⟩ := bind_ok.mp h
    cases hb
    obtain ⟨hs, hw⟩ := addrWireLen_ok hl
    refine ⟨net, hn, hs, ?_⟩
    rw [bytes_writePortAddress, Buffer.bytes_withCapacity, Buffer.free_withCapacity,
      nil_append, take_of_length_le]
    rw [encodePortAddress, length_append, length_be16, hw]
    omega

theorem readTarget_append (h : writeTargetToVec t = .ok b)
    (rest : Bytes) : readTarget (b ++ rest) = .ok (t, b.length) := by
  obtain ⟨net, hn, hs, rfl⟩ := writeTargetToVec_ok h
  have hp : AddressParser.parsePortAddress (encodePortAddress t.port t.address ++ rest) =
      some (t.port, t.address, 2 + (encodeAddress t.address).length) := by
    rw [encodePortAddress, append_assoc, parsePortAddress_be16, readAddress_encode _ hs]
    rfl
  have hl : 1 + (2 + (encodeAddress t.address).length) =
      (net.toByte :: encodePortAddress t.port t.address).length := by
    rw [encodePortAddress, length_cons, length_append, length_be16, add_comm 1]
  simp [readTarget, hp, toNetwork_of_fromNetwork hn, hl]

theorem byteAt_target (h : writeTargetToVec t = .ok b) (rest : Bytes) :
    b ++ rest ≠ [] ∧ byteAt (b ++ rest) 0 ≠ 0 ∧
      fromByte (byteAt (b ++ rest) 0) = fromNetwork t.network := by
  obtain ⟨net, hn, -, rfl⟩ := writeTargetToVec_ok h
  rw [cons_append]
  refine ⟨cons_ne_nil _ _, ?_, ?_⟩
  · rw [byteAt, getD_cons_zero]
    cases net <;> decide
  · rw [byteAt, getD_cons_zero, fromByte_toByte, hn]

def onWire (d : Option Destination) : Option Destination :=
  d.filter fun d => (fromNetwork d.network).isSome

namespace FrameMetadata

theorem parseSourceAndLocal_nil (m : FrameMetadata) : m.parseSourceAndLocal [] = .ok m := rfl

theorem parseSourceAndLocal_append {source : Destination} {b : Bytes}
    (h : writeTargetToVec source = .ok b) (m : FrameMetadata) (rest : Bytes) :
    m.parseSourceAndLocal (b ++ rest) =
      if rest.length = 0 ∨ byteAt rest 0 = 0 then .ok { m with source := some source }
      else (readTarget rest).map fun r =>
        { m with source := some source, localDest := some r.1 } := by
  obtain ⟨hne, hz, -⟩ := byteAt_target h rest
  have hg : ¬((b ++ rest).length = 0 ∨ byteAt (b ++ rest) 0 = 0) := by
    simp only [length_eq_zero_iff, hne, hz, or_self, not_false_eq_true]
  have hd : (b ++ rest).drop b.length = rest := drop_left
  rw [parseSourceAndLocal, if_neg hg, readTarget_append h, ok_bind]
  simp only [hd]
  split
  · rfl
  · cases readTarget rest <;> rfl

end FrameMetadata

theorem writeInboundToVec_ok (h : writeInboundToVec source localDest = .ok b) :
    (onWire (some source) = none ∧ b = []) ∨
      ∃ sb, onWire (some source) = some source ∧ writeTargetToVec source = .ok sb ∧
        ((onWire localDest = none ∧ b = sb) ∨
          ∃ l lb, onWire localDest = some l ∧ writeTargetToVec l = .ok lb ∧ b = sb ++ lb) := by
  unfold writeInboundToVec at h
  split at h
  · next hn =>
    cases h
    exact .inl ⟨by simp [onWire, hn], rfl⟩
  · next net hne =>
    obtain ⟨sb, hsb, hl⟩ := bind_ok.mp h
    refine .inr ⟨sb, by simp [onWire, hne], hsb, ?_⟩
    cases localDest with
    | none =>
      cases hl
      exact .inl ⟨rfl, rfl⟩
    | some l =>
      dsimp only at hl
      split at hl
      · next hn =>
        cases hl
        exact .inl ⟨by simp [onWire, hn], rfl⟩
      · next lnet hln =>
        obtain ⟨lb, hlb, hb⟩ := bind_ok.mp hl
        cases hb
        exact .inr ⟨l, lb, by simp [onWire, hln], hlb, rfl⟩

namespace FrameMetadata

variable {b : Bytes} {m : FrameMetadata}

theorem parseSourceAndLocal_inbound {source : Destination} {localDest : Option Destination}
    (h : writeInboundToVec source localDest = .ok b)
    (hs : m.source = none) (hlo : m.localDest = none) :
    m.parseSourceAndLocal b = .ok { m with
      source := onWire (some source)
      localDest := if (onWire (some source)).isSome then onWire localDest else none } := by
  rcases writeInboundToVec_ok h with
    ⟨hn, rfl⟩ | ⟨sb, hw, hsb, ⟨hn, rfl⟩ | ⟨l, lb, hl, hlb, rfl⟩⟩
  · rw [parseSourceAndLocal_nil, hn]
    simp [← hlo, FrameMetadata.ext_iff, hs]
  · have ha := parseSourceAndLocal_append hsb m []
    rw [append_nil] at ha
    rw [ha, hw, hn]
    simp [← hlo]
  · obtain ⟨hne, hz, -⟩ := byteAt_target hlb []
    have hr := readTarget_append hlb []
    rw [append_nil] at hne hz hr
    rw [parseSourceAndLocal_append hsb, hr, hw, hl, if_neg]
    · rfl
    · simp [hz, hne]

theorem parseBody_eq (m : FrameMetadata) (fields : Bytes) (readSourceAndLocal : Bool) :
    parseBody (be16 m.sessionId ++ m.sessionStatus.toByte :: m.option :: fields)
        readSourceAndLocal =
      (new m.sessionId m.sessionStatus m.option).parseFields fields readSourceAndLocal := by
  have hid : u16At (be16 m.sessionId ++ m.sessionStatus.toByte :: m.option :: fields) 0 =
      m.sessionId := u16At_be16 _ _
  have hs : byteAt (be16 m.sessionId ++ m.sessionStatus.toByte :: m.option :: fields) 2 =
      m.sessionStatus.toByte := rfl
  have hl : ¬(be16 m.sessionId ++ m.sessionStatus.toByte :: m.option :: fields).length < 4 := by
    simp
    omega
  rw [parseBody, if_neg hl, hs, SessionStatus.fromByte_toByte, hid]
  rfl

theorem readFromBytesImpl_append (h : m.toBytes = .ok b) :
    ∃ fields, m.fieldBytes = .ok fields ∧ ∀ rest rsl, readFromBytesImpl (b ++ rest) rsl =
        ((new m.sessionId m.sessionStatus m.option).parseFields fields rsl).map (·, b.length) := by
  obtain ⟨fields, hf, hb⟩ := bind_ok.mp h
  refine ⟨fields, hf, fun rest rsl => ?_⟩
  dsimp only at hb
  split at hb
  · cases hb
  · next hm =>
    cases hb
    rw [← parseBody_eq]
    generalize be16 m.sessionId ++ m.sessionStatus.toByte :: m.option :: fields = content at hm ⊢
    simp only [MAX_METADATA_LEN] at hm
    have hl : (u16At (be16 (UInt16.ofNat content.length) ++ content ++ rest) 0).toNat =
        content.length := by
      rw [append_assoc, u16At_be16, UInt16.toNat_ofNat_of_lt' (by simp [UInt16.size]; omega)]
    have hbo : ((be16 (UInt16.ofNat content.length) ++ content ++ rest).drop 2).take
        content.length = content := by
      exact take_left
    have hall : (be16 (UInt16.ofNat content.length) ++ content ++ rest).length =
        2 + content.length + rest.length := by
      simp only [length_append, length_be16]
    rw [readFromBytesImpl, hall, hl, if_neg (by omega)]
    rw [if_neg (by simp only [MAX_METADATA_LEN]; omega), if_neg (by omega), hbo,
      length_append, length_be16]
    cases parseBody content rsl <;> rfl

def wireTarget (m : FrameMetadata) : Option Destination :=
  match m.sessionStatus with
  | .new => m.target
  | .keep => if m.isUdpTarget then m.target else none
  | .ended | .keepAlive => none

def carried (m : FrameMetadata) : FrameMetadata :=
  { m with
    target := m.wireTarget
    source := none
    localDest := none
    globalId := if m.sessionStatus = .new ∧ m.isUdpTarget ∧ m.hasData ∧ m.source = none then
      m.globalId else none }

def carriedWithSource (m : FrameMetadata) : FrameMetadata :=
  { m with
    target := m.wireTarget
    source := if m.sessionStatus = .new then onWire m.source else none
    localDest := if m.sessionStatus = .new ∧ (onWire m.source).isSome then onWire m.localDest
      else none
    globalId := none }

/-- Nothing a plain reader takes for a target or a GlobalID is a source: a New frame
with a source has a target, and one that may have a GlobalID has fewer than eight
bytes of addresses. -/
def PlainReadable (m : FrameMetadata) : Prop :=
  m.sessionStatus = .new → (m.target = none → onWire m.source = none) ∧
    (m.isUdpTarget → m.hasData → m.source ≠ none → ∀ b, m.newExtras = .ok b → b.length < 8)

/-- Nothing a reader of sources takes for a target or a source is something else: a
New frame with a source has a target, and a GlobalID starts with a 0. -/
def SourceReadable (m : FrameMetadata) : Prop :=
  m.sessionStatus = .new → (m.target = none → onWire m.source = none) ∧
    (m.isUdpTarget → m.source = none → ∀ gid, m.globalId = some gid → byteAt gid.bytes 0 = 0)

theorem map_pair_ok {x : Except MuxError FrameMetadata} {n : Nat} :
    x.map (·, n) = .ok (m, n) ↔ x = .ok m := by
  cases x <;> simp [Except.map]

variable {fields : Bytes}

theorem parseFields_of_ne_new (hs : m.sessionStatus ≠ .new)
    (h : m.fieldBytes = .ok fields) (rsl : Bool) :
    (new m.sessionId m.sessionStatus m.option).parseFields fields rsl =
      .ok { new m.sessionId m.sessionStatus m.option with target := m.wireTarget } := by
  obtain ⟨id, status, option, target, src, localDest, gid⟩ := m
  cases status with
  | new => exact absurd rfl hs
  | ended | keepAlive =>
    cases h
    rfl
  | keep =>
    cases target with
    | none =>
      cases h
      rfl
    | some t =>
      simp only [fieldBytes] at h
      split at h
      · next hu =>
        obtain ⟨hne, -, hb⟩ := byteAt_target h []
        have hr := readTarget_append h []
        rw [append_nil] at hne hb hr
        have hc : fields ≠ [] ∧ fromByte (byteAt fields 0) = some .udp :=
          ⟨hne, hb.trans (by rw [hu]; rfl)⟩
        simp only [parseFields, new, if_pos hc, hr, ok_bind, wireTarget, isUdpTarget, hu,
          decide_true, if_true]
        rfl
      · next ho =>
        cases h
        simp [parseFields, new, wireTarget, isUdpTarget, ho]

theorem fieldBytes_new (hs : m.sessionStatus = .new) (h : m.fieldBytes = .ok fields) :
    ∃ tb extras, m.newExtras = .ok extras ∧ fields = tb ++ extras ∧
      (m.target = none ∧ tb = [] ∨ ∃ t, m.target = some t ∧ writeTargetToVec t = .ok tb) := by
  simp only [fieldBytes, hs] at h
  obtain ⟨tb, htb, hrest⟩ := bind_ok.mp h
  obtain ⟨extras, he, hf⟩ := bind_ok.mp hrest
  cases hf
  refine ⟨tb, extras, he, rfl, ?_⟩
  unfold targetBytes at htb
  split at htb
  · next t ht => exact .inr ⟨t, ht, htb⟩
  · next hn =>
    cases htb
    exact .inl ⟨hn, rfl⟩

def parseExtras (m : FrameMetadata) (data : Bytes) (readSourceAndLocal : Bool) :
    Except MuxError FrameMetadata :=
  if readSourceAndLocal then m.parseSourceAndLocal data
  else if m.hasData ∧ m.isUdpTarget then .ok { m with globalId := globalIdFront data }
  else .ok m

variable {t : Destination}

theorem parseFields_target (h : writeTargetToVec t = .ok tb)
    (id : UInt16) (option : UInt8) (extras : Bytes) (readSourceAndLocal : Bool) :
    (new id .new option).parseFields (tb ++ extras) readSourceAndLocal =
      { new id .new option with target := some t }.parseExtras extras readSourceAndLocal := by
  have ht : (new id .new option).parseTarget (tb ++ extras) =
      .ok ({ new id .new option with target := some t }, extras) := by
    have hd : (tb ++ extras).drop tb.length = extras := drop_left
    rw [parseTarget, if_neg (byteAt_target h extras).1, readTarget_append h, ok_bind]
    simp only [hd]
    rfl
  simp only [parseFields, new] at ht ⊢
  rw [ht]
  rfl

variable {m' : FrameMetadata} {data : Bytes}

theorem parseSourceAndLocal_eq_ok (h : m.parseSourceAndLocal data = .ok m') :
    m'.target = m.target ∧ (data.length ≠ 0 → byteAt data 0 ≠ 0 → m'.source ≠ none) := by
  unfold parseSourceAndLocal at h
  split at h
  · next he =>
    cases h
    exact ⟨rfl, fun hle hb => absurd he (not_or.mpr ⟨hle, hb⟩)⟩
  obtain ⟨⟨src, c⟩, -, hl⟩ := bind_ok.mp h
  dsimp only at hl
  split at hl
  · cases hl
    exact ⟨rfl, fun _ _ => Option.some_ne_none src⟩
  · obtain ⟨⟨ld, n⟩, -, hm'⟩ := bind_ok.mp hl
    cases hm'
    exact ⟨rfl, fun _ _ => Option.some_ne_none src⟩

theorem target_of_parseExtras
    (h : m.parseExtras data readSourceAndLocal = .ok m') : m'.target = m.target := by
  unfold parseExtras at h
  split at h
  · exact (parseSourceAndLocal_eq_ok h).1
  · split at h <;> cases h <;> rfl

theorem parseFields_nil (id : UInt16) (option : UInt8) (rsl : Bool) :
    (new id .new option).parseFields [] rsl = .ok (new id .new option) := by
  cases rsl
  · simp [parseFields, new, parseTarget, isUdpTarget]
  · rfl

theorem parseFields_no_target (hs : m.sessionStatus = .new)
    (hta : m.target = none) (h : m.fieldBytes = .ok fields) (rsl : Bool) (hm' : m'.target = none) :
    (new m.sessionId .new m.option).parseFields fields rsl = .ok m' ↔
      onWire m.source = none ∧ m' = new m.sessionId .new m.option := by
  obtain ⟨tb, e, he, rfl, ⟨-, rfl⟩ | ⟨t, ht, -⟩⟩ := fieldBytes_new hs h
  · have hem : e = [] → onWire m.source = none →
        ((new m.sessionId .new m.option).parseFields ([] ++ e) rsl = .ok m' ↔
          onWire m.source = none ∧ m' = new m.sessionId .new m.option) := by
      rintro rfl hn
      rw [append_nil, parseFields_nil]
      simp [hn, eq_comm]
    unfold newExtras at he
    split at he
    · next src hso =>
      rw [hso] at hem ⊢
      rcases writeInboundToVec_ok he with ⟨hn, hni⟩ | ⟨sb, hw, hsb, hrest⟩
      · exact hem hni hn
      obtain ⟨rest, rfl⟩ : ∃ rest, e = sb ++ rest := by
        rcases hrest with ⟨-, rfl⟩ | ⟨l, lb, -, -, rfl⟩
        · exact ⟨[], (append_nil _).symm⟩
        · exact ⟨lb, rfl⟩
      rw [nil_append, parseFields_target hsb, hw]
      refine iff_of_false (fun hr => ?_) (by simp)
      have hsome := target_of_parseExtras hr
      rw [hm'] at hsome
      cases hsome
    · next hso =>
      have hu : m.isUdpTarget = false := by rw [isUdpTarget, hta]
      rw [hu] at he
      cases he
      exact hem rfl (by rw [hso]; rfl)
  · rw [hta] at ht
    cases ht

theorem globalIdFront_eq_none : globalIdFront data = none ↔ data.length < 8 := by
  unfold globalIdFront
  split
  · next h => exact iff_of_false (by simp) (not_lt.mpr h)
  · next h => exact iff_of_true rfl (Nat.lt_of_not_le h)

theorem globalIdFront_bytes (gid : GlobalId) : globalIdFront gid.bytes = some gid := by
  have hl : gid.bytes.length = 8 := gid.length_bytes
  unfold globalIdFront
  rw [dif_pos (le_of_eq hl.symm)]
  congr
  exact take_of_length_le hl.le

theorem parseExtras_plain_iff (hs : m.sessionStatus = .new)
    (ht : m.target = some t) (he : m.newExtras = .ok extras) :
    { new m.sessionId .new m.option with target := some t }.parseExtras extras false =
        .ok m.carried ↔ (m.isUdpTarget → m.hasData → m.source ≠ none → extras.length < 8) := by
  obtain ⟨id, _, option, _, src, ld, gid⟩ := m
  cases hs
  cases ht
  by_cases hg : has option OPTION_DATA = true ∧ t.network = .udp
  · cases src with
    | none =>
      have hf : globalIdFront extras = gid := by
        simp only [newExtras, isUdpTarget, hg.2, decide_true, if_true] at he
        cases gid with
        | none =>
          cases he
          exact globalIdFront_eq_none.mpr (by decide)
        | some gid =>
          cases he
          exact globalIdFront_bytes gid
      simp [parseExtras, carried, wireTarget, new, hasData, isUdpTarget, hg, hf]
    | some src =>
      simp [parseExtras, carried, wireTarget, new, hasData, isUdpTarget, hg, globalIdFront_eq_none]
  · rcases not_and_or.mp hg with hdata | hu
    · simp [parseExtras, carried, wireTarget, new, hasData, isUdpTarget, hdata]
    · simp [parseExtras, carried, wireTarget, new, hasData, isUdpTarget, hu]

theorem parseExtras_source_iff (hs : m.sessionStatus = .new)
    (ht : m.target = some t) {extras : Bytes} (he : m.newExtras = .ok extras) :
    { new m.sessionId .new m.option with target := some t }.parseExtras extras true =
        .ok m.carriedWithSource ↔
      (m.isUdpTarget → m.source = none → ∀ gid, m.globalId = some gid →
        byteAt gid.bytes 0 = 0) := by
  obtain ⟨id, _, option, _, src, ld, gid⟩ := m
  cases hs
  cases ht
  cases src with
  | some src =>
    have hi := parseSourceAndLocal_inbound he
      (m := { new id .new option with target := some t }) rfl rfl
    refine iff_of_true ?_ (nofun)
    rw [parseExtras, if_pos rfl, hi]
    simp [carriedWithSource, wireTarget, new]
  | none =>
    have hc : carriedWithSource ⟨id, .new, option, some t, none, ld, gid⟩ =
        { new id .new option with target := some t } := rfl
    rw [hc, parseExtras, if_pos rfl]
    by_cases hu : t.network = .udp
    · cases gid with
      | none =>
        simp only [newExtras, isUdpTarget, hu, decide_true, if_true] at he
        cases he
        exact iff_of_true rfl nofun
      | some gid =>
        simp only [newExtras, isUdpTarget, hu, decide_true, if_true] at he
        cases he
        have hl : gid.bytes.length ≠ 0 := by
          rw [gid.length_bytes]
          decide
        constructor
        · rintro hr - - _ ⟨⟩
          by_contra hb
          exact (parseSourceAndLocal_eq_ok hr).2 hl hb rfl
        · intro hz
          have hb := hz (decide_eq_true hu) rfl gid rfl
          rw [parseSourceAndLocal, if_pos (.inr hb)]
    · simp only [newExtras, isUdpTarget, hu, decide_false, Bool.false_eq_true, if_false] at he
      cases he
      exact iff_of_true rfl fun h => absurd (of_decide_eq_true h) hu

theorem readFromBytes_iff (h : m.toBytes = .ok b) (rest : Bytes) :
    readFromBytes (b ++ rest) = .ok (m.carried, b.length) ↔ m.PlainReadable := by
  obtain ⟨f, hf, hr⟩ := readFromBytesImpl_append h
  rw [readFromBytes, hr, map_pair_ok]
  by_cases hs : m.sessionStatus = .new
  · rw [hs, PlainReadable, forall_prop_of_true hs]
    obtain ⟨tb, e, he, rfl, ⟨hn, rfl⟩ | ⟨t, ht, htb⟩⟩ := fieldBytes_new hs hf
    · have hc : m.carried.target = none := by simp [carried, wireTarget, hs, hn]
      rw [parseFields_no_target hs hn hf false hc]
      simp [carried, wireTarget, new, isUdpTarget, hs, hn]
    · rw [parseFields_target htb, parseExtras_plain_iff hs ht he]
      simp [ht, he]
  · refine iff_of_true ?_ fun hnew => absurd hnew hs
    rw [parseFields_of_ne_new hs hf]
    simp [carried, new, hs]

theorem readFromBytesWithSource_iff (h : m.toBytes = .ok b) (rest : Bytes) :
    readFromBytesWithSource (b ++ rest) = .ok (m.carriedWithSource, b.length) ↔
      m.SourceReadable := by
  obtain ⟨f, hf, hr⟩ := readFromBytesImpl_append h
  rw [readFromBytesWithSource, hr, map_pair_ok]
  by_cases hs : m.sessionStatus = .new
  · rw [hs, SourceReadable, forall_prop_of_true hs]
    obtain ⟨tb, e, he, rfl, ⟨hn, rfl⟩ | ⟨t, ht, htb⟩⟩ := fieldBytes_new hs hf
    · have hc : m.carriedWithSource.target = none := by
        simp [carriedWithSource, wireTarget, hs, hn]
      rw [parseFields_no_target hs hn hf true hc]
      constructor
      · rintro ⟨hw, -⟩
        exact ⟨fun _ => hw, by simp [isUdpTarget, hn]⟩
      · rintro ⟨hw, -⟩
        exact ⟨hw hn, by simp [carriedWithSource, wireTarget, new, hs, hn, hw hn]⟩
    · rw [parseFields_target htb, parseExtras_source_iff hs ht he]
      simp [ht]
  · refine iff_of_true ?_ fun hnew => absurd hnew hs
    rw [parseFields_of_ne_new hs hf]
    simp [carriedWithSource, new, hs]

/-- Metadata written and read back in either mode, with anything behind it. -/
theorem read_toBytes {m : FrameMetadata} {b : Bytes} (h : m.toBytes = .ok b) (rest : Bytes) :
    (m.PlainReadable → readFromBytes (b ++ rest) = .ok (m.carried, b.length)) ∧ (m.SourceReadable →
        readFromBytesWithSource (b ++ rest) = .ok (m.carriedWithSource, b.length)) :=
  ⟨(readFromBytes_iff h rest).mpr, (readFromBytesWithSource_iff h rest).mpr⟩

def reverseFrame : FrameMetadata :=
  ⟨7, .new, OPTION_DATA, some ⟨.domain "", 443, .tcp⟩, some ⟨.domain "a", 1, .udp⟩,
    some ⟨.ipv4 (.new 127 0 0 1), 2, .tcp⟩, none⟩

theorem read_toBytes_reverseFrame : ∃ b, reverseFrame.toBytes = .ok b ∧
    readFromBytes (b ++ [1, 2]) = .ok (reverseFrame.carried, b.length) ∧
    readFromBytesWithSource (b ++ [1, 2]) = .ok (reverseFrame.carriedWithSource, b.length) := by
  refine ⟨_, rfl, (read_toBytes rfl [1, 2]).1 ?_, (read_toBytes rfl [1, 2]).2 ?_⟩
  · exact fun _ => ⟨by simp [reverseFrame], by simp [reverseFrame, isUdpTarget]⟩
  · exact fun _ => ⟨by simp [reverseFrame], by simp [reverseFrame, isUdpTarget]⟩

def nines : GlobalId := ⟨List.replicate 8 9, rfl⟩

def globalIdFrame : FrameMetadata :=
  ⟨7, .new, OPTION_DATA, some ⟨.ipv4 (.new 1 1 1 1), 53, .udp⟩, none, none, some nines⟩

/-- The mode that reads sources takes the GlobalID for one. -/
theorem globalId_refused_with_source : ∃ b, globalIdFrame.toBytes = .ok b ∧
    readFromBytesWithSource b = .error (.invalidTargetNetwork 9) :=
  ⟨_, rfl, rfl⟩

end FrameMetadata

end XrayCore.Mux
