import XrayCore.Sudoku.Grids
import XrayCore.Sudoku.Packed

/-!
# Both codecs bring back what was written

One encoder is called with one input after the other, and the decoder gets what comes out in pieces
that need not be those of the calls.
-/

namespace XrayCore.Sudoku

open Lib Sampler

variable {tables : List Table}

theorem layoutsOf_eq (hne : tables ≠ []) :
    PackedEncoder.layoutsOf tables = tables.map Table.layout := if_neg hne

section

variable (hne : tables ≠ []) (hsound : ∀ t ∈ tables, t.Sound) (pMin pMax : Nat)
  (inputs : List Bytes)

include hne hsound pMin pMax inputs

theorem returns_codec :
    Returns (Codec.new tables pMin pMax >>= fun c => c.encodeAll inputs) fun r =>
      ∀ segs : List Bytes, segs.flatten = r.1.flatten →
        segs.foldlM (decodeBytes tables) ⟨0, [], []⟩ =
          .ok ⟨r.2.tableIndex, [], inputs.flatten⟩ := by
  have hnew : Returns (Codec.new tables pMin pMax) fun c => c.tables = tables ∧ c.tableIndex = 0 :=
    (returns_pickPaddingChance pMin pMax).bind fun _ _ => .pure ⟨rfl, rfl⟩
  refine hnew.bind fun c hc => ?_
  obtain ⟨ht, hi⟩ := hc
  refine (returns_encodeAll hsound hne ht inputs).mono fun r hr segs hs => ?_
  rw [foldlM_decodeBytes hne, hs, ← hi]
  exact hr []

theorem returns_packed :
    Returns (PackedEncoder.new tables pMin pMax >>= fun e => e.encodeAll inputs) fun r =>
      ∀ segs : List Bytes, segs.flatten = r.1.flatten →
        ∃ d, segs.foldlM (PackedDecoder.decodeChunk (tables.map Table.layout)) ({}, []) =
          .ok (d, inputs.flatten) := by
  have hnew : Returns (PackedEncoder.new tables pMin pMax) fun e =>
      e.layouts = tables.map Table.layout ∧ e.groupIndex = 0 :=
    (returns_pickPaddingChance pMin pMax).bind fun _ _ => .pure ⟨layoutsOf_eq hne, rfl⟩
  refine hnew.bind fun e he => ?_
  obtain ⟨hla, hi⟩ := he
  have hall : ∀ l ∈ e.layouts, l.Sound := by
    rw [hla]
    intro l hl
    obtain ⟨t, ht, rfl⟩ := List.mem_map.mp hl
    exact (hsound t ht).layout
  refine (PackedEncoder.returns_encodeAll hall inputs).mono fun r hr segs hs => ?_
  obtain ⟨d, hru, -⟩ := hr {} [] hi.symm rfl
  refine ⟨d, ?_⟩
  rw [foldlM_decodeChunk (by simpa using hne), hs, ← hla]
  exact hru

end

theorem streams_round_trip {u : Unicode} {sh : Shuffle} {cache cache' : Cache}
    {password ascii : List Char} {customTables : List (List Char)} {tables : List Table}
    (hcache : Reachable u sh cache)
    (h : getTables u sh cache password ascii customTables = .ok (tables, cache'))
    (pMin pMax : Nat) (inputs : List Bytes) :
    Returns (Codec.new tables pMin pMax >>= fun c => c.encodeAll inputs) (fun r =>
      ∀ segments : List Bytes, segments.flatten = r.1.flatten →
        segments.foldlM (decodeBytes tables) ⟨0, [], []⟩ =
          .ok ⟨r.2.tableIndex, [], inputs.flatten⟩) ∧
    Returns (PackedEncoder.new tables pMin pMax >>= fun e => e.encodeAll inputs) fun r =>
      ∀ segments : List Bytes, segments.flatten = r.1.flatten →
        ∃ d, segments.foldlM (PackedDecoder.decodeChunk (tables.map Table.layout)) ({}, []) =
          .ok (d, inputs.flatten) := by
  obtain ⟨hne, hsound⟩ := getTables_sound hcache h
  exact ⟨returns_codec hne hsound pMin pMax inputs, returns_packed hne hsound pMin pMax inputs⟩

def plainUnicode : Unicode := ⟨(· = ' '), id⟩

def unshuffled : Shuffle := ⟨fun _ n => List.range n, fun _ n => .refl (List.range n)⟩

theorem plain_tables : ∃ tables cache', getTables plainUnicode unshuffled (fun _ => none) [] []
    ["xpxvvpvv".toList, []] = .ok (tables, cache') := by
  have hr : ∀ p ∈ ["xpxvvpvv".toList, []],
      (resolveLayout plainUnicode .preferEntropy p).toOption.isSome = true := by decide +kernel
  have hm : normalizeAscii plainUnicode [] = .ok .preferEntropy := by decide
  have hp : normalizedCustomPatterns plainUnicode ["xpxvvpvv".toList, []] .preferEntropy =
      .ok ["xpxvvpvv".toList, []] := by decide
  refine getTables_succeeds unshuffled _ _ hm hp fun p hpa => ?_
  obtain ⟨l, hl⟩ := Option.isSome_iff_exists.mp (hr p hpa)
  exact ⟨l, toOption_eq_some.mp hl⟩

theorem streams_round_trip_plain : ∃ tables cache',
    getTables plainUnicode unshuffled (fun _ => none) [] [] ["xpxvvpvv".toList, []] =
      .ok (tables, cache') ∧
    Returns (Codec.new tables 0 50 >>= fun c => c.encodeAll [[104, 105], [], [33]]) (fun r =>
      ∀ segments : List Bytes, segments.flatten = r.1.flatten →
        segments.foldlM (decodeBytes tables) ⟨0, [], []⟩ =
          .ok ⟨r.2.tableIndex, [], [104, 105, 33]⟩) ∧
    Returns (PackedEncoder.new tables 0 50 >>= fun e => e.encodeAll [[104, 105], [], [33]]) fun r =>
      ∀ segments : List Bytes, segments.flatten = r.1.flatten →
        ∃ d, segments.foldlM (PackedDecoder.decodeChunk (tables.map Table.layout)) ({}, []) =
          .ok (d, [104, 105, 33]) := by
  obtain ⟨tables, cache', htables⟩ := plain_tables
  exact ⟨tables, cache', htables, streams_round_trip .empty htables 0 50 [[104, 105], [], [33]]⟩

/-- Every layout that the settings can name has its table, whatever the password and the shuffle. -/
theorem layout_has_table (u : Unicode) (mode : Mode) (pattern : List Char) {layout : Layout}
    (h : resolveLayout u mode pattern = .ok layout) (sh : Shuffle) (password : List Char) :
    ∃ t, buildTable sh password layout = .ok t ∧ ∀ b, t.Covers b := by
  have hsound := resolveLayout_sound h
  obtain ⟨t, ht⟩ := buildTable_succeeds sh password hsound
  exact ⟨t, ht, (buildTable_sound hsound ht).covers⟩

theorem layout_has_table_ascii : ∃ t, buildTable unshuffled [] .ascii = .ok t ∧ ∀ b, t.Covers b :=
  layout_has_table plainUnicode .preferAscii [] rfl unshuffled []

end XrayCore.Sudoku
