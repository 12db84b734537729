import XrayCore.Mux.Server
import XrayCore.Mux.Writer

/-!
# Reading frames that were written

What the server's loop makes of a frame that a writer put on the carrier, as long as the frame's
data fits one buffer of the pool. Longer data ends the loop.
-/

namespace XrayCore.Mux

open Lib Net List
open Buf (Buffer DEFAULT_SIZE)
open XrayCore.Xudp (GlobalId)

namespace FrameMetadata

variable {m : FrameMetadata} {b : Bytes}

theorem toBytes_shape (h : m.toBytes = .ok b) :
    ∃ len content, b = be16 len ++ content ∧ content.length = len.toNat ∧
      len.toNat ≤ MAX_METADATA_LEN := by
  obtain ⟨f, -, hb⟩ := bind_ok.mp h
  dsimp only at hb
  split at hb
  · cases hb
  · next hm =>
    cases hb
    have hl : ∀ n : Nat, ¬n > MAX_METADATA_LEN → (UInt16.ofNat n).toNat = n := by
      intro n hn
      simp only [MAX_METADATA_LEN] at hn
      exact UInt16.toNat_ofNat_of_lt' (by simp only [UInt16.size]; omega)
    exact ⟨_, _, rfl, (hl _ hm).symm, (hl _ hm).symm ▸ not_lt.mp hm⟩

/-- The GlobalID that the server finds in a New frame: the first bytes behind the
target, whatever they were written for. -/
def seenGlobalId (m : FrameMetadata) (readSourceAndLocal : Bool) : Option GlobalId :=
  if readSourceAndLocal then none
  else if m.hasData ∧ m.isUdpTarget then
    match m.newExtras with
    | .ok extras => globalIdFront extras
    | .error _ => none
  else none

structure SeenNew (m : FrameMetadata) (target : Destination) (readSourceAndLocal : Bool)
    (m' : FrameMetadata) : Prop where
  sessionId : m'.sessionId = m.sessionId
  sessionStatus : m'.sessionStatus = .new
  option : m'.option = m.option
  target : m'.target = some target
  globalId : m'.globalId = m.seenGlobalId readSourceAndLocal

theorem readMeta_new {target : Destination} (hs : m.sessionStatus = .new)
    (ht : m.target = some target) (h : m.toBytes = .ok b) {rsl : Bool}
    (hre : rsl = true → m.SourceReadable) :
    ∃ m', ServerWorker.readMeta rsl b = .ok m' ∧ SeenNew m target rsl m' := by
  cases rsl with
  | true =>
    have hr := (readFromBytesWithSource_iff h []).mpr (hre rfl)
    rw [readFromBytesWithSource, append_nil] at hr
    refine ⟨m.carriedWithSource, ?_, ⟨rfl, hs, rfl, ?_, rfl⟩⟩
    · rw [ServerWorker.readMeta, hr]
    · rw [carriedWithSource, wireTarget, hs, ht]
  | false =>
    obtain ⟨f, hf, hr⟩ := readFromBytesImpl_append h
    obtain ⟨tb, e, he, rfl, ⟨hn, -⟩ | ⟨t, ht', htb⟩⟩ := fieldBytes_new hs hf
    · rw [ht] at hn
      cases hn
    cases ht.symm.trans ht'
    have hp := hr [] false
    rw [append_nil, hs, parseFields_target htb, parseExtras, if_neg Bool.false_ne_true] at hp
    have hu : { new m.sessionId .new m.option with target := some target }.isUdpTarget =
        m.isUdpTarget := by
      rw [isUdpTarget, isUdpTarget, ht]
    by_cases hg : m.hasData ∧ m.isUdpTarget
    · rw [if_pos ⟨hg.1, hu.trans hg.2⟩] at hp
      refine ⟨{ new m.sessionId .new m.option with
        target := some target, globalId := globalIdFront e }, ?_, ⟨rfl, rfl, rfl, rfl, ?_⟩⟩
      · rw [ServerWorker.readMeta, hp]
        rfl
      · rw [seenGlobalId, if_neg Bool.false_ne_true, if_pos hg, he]
    · rw [if_neg fun h => hg ⟨h.1, hu.symm.trans h.2⟩] at hp
      refine ⟨{ new m.sessionId .new m.option with target := some target }, ?_,
        ⟨rfl, rfl, rfl, rfl, ?_⟩⟩
      · rw [ServerWorker.readMeta, hp]
        rfl
      · rw [seenGlobalId, if_neg Bool.false_ne_true, if_neg hg]
        rfl

theorem readMeta_keep (hs : m.sessionStatus = .keep) (h : m.toBytes = .ok b) (rsl : Bool) :
    ∃ m', ServerWorker.readMeta rsl b = .ok m' ∧ m'.sessionId = m.sessionId ∧
      m'.sessionStatus = .keep ∧ m'.option = m.option := by
  obtain ⟨f, hf, hr⟩ := readFromBytesImpl_append h
  have hk := hr [] rsl
  rw [append_nil, parseFields_of_ne_new (by rw [hs]; decide) hf] at hk
  refine ⟨{ new m.sessionId m.sessionStatus m.option with target := m.wireTarget }, ?_, rfl, hs,
    rfl⟩
  rw [ServerWorker.readMeta, hk]
  rfl

end FrameMetadata

namespace ServerWorker

theorem u16At_be16_self (x : UInt16) : u16At (be16 x) 0 = x := u16At_be16 x []

variable {reader : PieceReader} {rest : Bytes}

theorem readExactSlice_front (hw : reader.Whole) (hc : reader.contents = front ++ rest) :
    ∃ rd', readExactSlice reader front.length = .ok (front, rd') ∧
      rd'.contents = rest ∧ rd'.Whole := by
  have hle : front.length ≤ reader.contents.length := by
    rw [hc, length_append]
    exact Nat.le_add_right ..
  obtain ⟨all, rd', hr, hw'⟩ := hw.readExact [] hle
  obtain ⟨next, rfl, hl, hn⟩ := PieceReader.readExact_ok hr
  obtain ⟨rfl, hrest⟩ := append_inj (hc.symm.trans hn) hl.symm
  refine ⟨rd', ?_, hrest.symm, hw'⟩
  rw [readExactSlice, hr]

theorem readExactInto_whole (hw : rd.Whole) (hf : rem ≤ dst.free)
    (hle : rem ≤ rd.contents.length) (n : Nat) :
    ∃ dst' reader', readExactInto rd dst n rem = .ok (dst', reader') ∧ reader'.Whole := by
  fun_induction readExactInto rd dst n rem with
  | case1 rd dst => exact ⟨dst, rd, rfl, hw⟩
  | case2 rd dst rem hremaining hfu => exact absurd hf (not_le.mpr hfu)
  | case3 rd dst rem hremaining hfits r1 hr =>
    refine absurd ?_ (hw.read_ne_nil hremaining ?_)
    · rw [hr]
    · rintro hn
      rw [hn] at hle
      exact hremaining (Nat.le_zero.mp hle)
  | case4 rd dst rem hremaining hfits more r1 hr hmore ih =>
    have hfr : more ++ r1.contents = rd.contents := by
      have := rd.read_append rem
      rwa [hr] at this
    refine ih ?_ ?_ ?_
    · have := hw.read rem
      rwa [hr] at this
    · rw [Buffer.free_writeFrom]
      exact Nat.sub_le_sub_right hf _
    · rw [← hfr, length_append] at hle
      omega

theorem readExactInto_front (hw : reader.Whole) (hf : front.length ≤ dst.free)
    (hc : reader.contents = front ++ rest) :
    ∃ dst' rd', readExactInto reader dst front.length front.length = .ok (dst', rd') ∧
      dst'.bytes = dst.bytes ++ front ∧ rd'.contents = rest ∧ rd'.Whole := by
  have hle : front.length ≤ reader.contents.length := by
    rw [hc, length_append]
    exact Nat.le_add_right ..
  obtain ⟨dst', rd', hr, hw'⟩ := readExactInto_whole hw hf hle front.length
  obtain ⟨next, hb, hl, hn⟩ := readExactInto_ok hr
  obtain ⟨rfl, hrest⟩ := append_inj (hc.symm.trans hn) hl.symm
  exact ⟨dst', rd', hr, hb, hrest.symm, hw'⟩

variable {m m' : FrameMetadata} {header : Bytes} {readSourceAndLocal : Bool}

theorem readFrame_header (hh : m.toBytes = .ok header)
    (hr : readMeta readSourceAndLocal header = .ok m') (hw : reader.Whole)
    (hc : reader.contents = header ++ rest) : ∃ reader', reader'.contents = rest ∧ reader'.Whole ∧
      readFrame readSourceAndLocal reader = if m'.hasData then do
          let (sizeBuf, reader) ← readExactSlice reader' 2 let size := (u16At sizeBuf 0).toNat
          let (payload, reader) ← readExactInto reader Buffer.new size size
          return some (m', payload.bytes, reader) else return some (m', [], reader') := by
  obtain ⟨len, content, rfl, hl, hm⟩ := FrameMetadata.toBytes_shape hh
  rw [append_assoc] at hc
  obtain ⟨re1, hs, hc1, hw1⟩ := readExactSlice_front hw hc
  have hf : content.length ≤ (Buffer.new.writeFrom (be16 len)).1.free := by
    rw [Buffer.free_writeFrom, Buffer.free_new, length_be16, hl]
    exact le_trans hm (by decide)
  obtain ⟨b, r2, hb, hby, hc2, hw2⟩ := readExactInto_front hw1 hf hc1
  have hbb : b.bytes = be16 len ++ content := by
    rw [hby, Buffer.bytes_writeFrom, Buffer.bytes_new, nil_append,
      take_of_length_le (by rw [length_be16]; decide)]
  rw [length_be16] at hs
  rw [hl] at hb
  have ht : ¬len.toNat > MAX_METADATA_LEN := not_lt.mpr hm
  refine ⟨r2, hc2, hw2, ?_⟩
  simp [readFrame, hs, if_neg ht, u16At_be16_self, hb, hbb, hr]

theorem readFrame_front  (hh : m.toBytes = .ok header) (hdata : m'.hasData = pl.isSome)
    (hr : readMeta readSourceAndLocal header = .ok m')
    (hsize : ∀ data, pl = some data → data.length ≤ DEFAULT_SIZE) (hw : reader.Whole)
    (hc : reader.contents = header ++ MuxWriter.behind pl ++ rest) :
    ∃ reader', readFrame readSourceAndLocal reader = .ok (some (m', pl.getD [], reader')) ∧
      reader'.contents = rest ∧ reader'.Whole := by
  rw [append_assoc] at hc
  obtain ⟨r2, hc2, hw2, hf⟩ := readFrame_header hh hr hw hc
  rw [hf, hdata]
  cases pl with
  | none => exact ⟨r2, rfl, hc2, hw2⟩
  | some data =>
    have hsize := hsize data rfl
    have hfr : data.length ≤ Buffer.new.free := hsize
    rw [MuxWriter.behind, append_assoc] at hc2
    obtain ⟨rea3, hs3, hc3, hw3⟩ := readExactSlice_front hw2 hc2
    obtain ⟨pl, re4, hp, hb4, hc4, hw4⟩ := readExactInto_front hw3 hfr hc3
    have hd : (UInt16.ofNat data.length).toNat = data.length :=
      UInt16.toNat_ofNat_of_lt' (lt_of_le_of_lt hsize (by decide))
    rw [length_be16] at hs3
    refine ⟨re4, ?_, hc4, hw4⟩
    simp only [Option.isSome_some, if_true, hs3, ok_bind, u16At_be16_self, hd, hp,
      hb4, Buffer.bytes_new, nil_append, Option.getD_some]
    rfl

theorem readFrame_oversized  (hh : m.toBytes = .ok header) (hdata : m'.hasData = true)
    (hr : readMeta readSourceAndLocal header = .ok m') (hl : DEFAULT_SIZE < data.length)
    (hs : data.length < UInt16.size) (hw : reader.Whole)
    (hc : reader.contents = header ++ MuxWriter.behind (some data) ++ rest) :
    readFrame readSourceAndLocal reader = .error (.invalidFrame .exceedsCapacity) := by
  rw [append_assoc] at hc
  obtain ⟨re2, hc2, hw2, hf⟩ := readFrame_header hh hr hw hc
  rw [MuxWriter.behind, append_assoc] at hc2
  obtain ⟨r3, hs3, -, -⟩ := readExactSlice_front hw2 hc2
  rw [length_be16] at hs3
  have hp : readExactInto r3 Buffer.new data.length data.length =
      .error (.invalidFrame .exceedsCapacity) := by
    have hpo : data.length ≠ 0 := ne_of_gt (lt_trans (by decide) hl)
    rw [readExactInto, if_neg hpo, Buffer.free_new, if_pos hl]
  rw [hf, hdata, if_pos rfl, hs3, ok_bind]
  dsimp only
  rw [u16At_be16_self, UInt16.toNat_ofNat_of_lt' hs, hp]
  rfl

end ServerWorker

end XrayCore.Mux
