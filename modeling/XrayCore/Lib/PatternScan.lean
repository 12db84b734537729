import Mathlib.Data.List.Infix
import Mathlib.Data.List.Pairwise
import Mathlib.Data.Nat.Find

/-!
# Scanning for many patterns at once

A scan reports matches from left to right that do not overlap: from its position on it reports the
occurrence that ends first, and goes on behind it. So it reports every pattern that occurs, whatever
the input, exactly when no two of the patterns can overlap.
-/

namespace XrayCore.Lib.PatternScan

open List

variable {α : Type _} {patterns : List (List α)} {input : List α}

def slice (input : List α) (start stop : Nat) : List α := (input.drop start).take (stop - start)

structure Match where
  pattern : Nat
  start : Nat
  stop : Nat
  deriving DecidableEq

structure Occurs (patterns : List (List α)) (input : List α) (m : Match) : Prop where
  start_le : m.start ≤ m.stop
  stop_le : m.stop ≤ input.length
  eq_slice : patterns[m.pattern]? = some (slice input m.start m.stop)

def Match.next (m : Match) : Nat := if m.start = m.stop then m.stop + 1 else m.stop

inductive Scan (patterns : List (List α)) (input : List α) : Nat → List Match → Prop
  | done : (∀ m, Occurs patterns input m → m.start < pos) → Scan patterns input pos []
  | hit : Occurs patterns input m → pos ≤ m.start →
    (∀ m', Occurs patterns input m' → pos ≤ m'.start → m.stop ≤ m'.stop) →
    Scan patterns input m.next ms → Scan patterns input pos (m :: ms)

/-- One pattern can lie in the other, or start inside the other and end behind it. -/
def Overlap (p q : List α) : Prop :=
  p <:+: q ∨ q <:+: p ∨ (∃ x, x ≠ [] ∧ x <:+ p ∧ x <+: q) ∨ ∃ x, x ≠ [] ∧ x <:+ q ∧ x <+: p

variable {p q : List α}

theorem Overlap.symm (h : Overlap p q) : Overlap q p := by
  rcases h with h | h | h | h
  · exact .inr (.inl h)
  · exact .inl h
  · exact .inr (.inr (.inr h))
  · exact .inr (.inr (.inl h))

theorem length_slice (h : stop ≤ input.length) :
    (slice input start stop).length = stop - start := by
  simp [slice]
  omega

theorem slice_isPrefix (start : Nat) (h : stop ≤ stop') :
    slice input start stop <+: slice input start stop' := by
  have hle : stop - start ≤ stop' - start := by omega
  rw [slice, slice, ← min_eq_left hle, ← take_take]
  exact take_prefix _ _

theorem slice_isSuffix (h : start ≤ start') (stop : Nat) :
    slice input start' stop <:+ slice input start stop := by
  have hd : slice input start' stop = (slice input start stop).drop (start' - start) := by
    rw [slice, slice, drop_take, drop_drop]
    congr 1
    · omega
    · congr 1
      omega
  rw [hd]
  exact drop_suffix _ _

theorem slice_append (front p back : List α) :
    slice (front ++ (p ++ back)) front.length (front.length + p.length) = p := by
  simp [slice]

theorem exists_occurs (hp : patterns[i]? = some p) (h : p <:+: input) :
    ∃ m, Occurs patterns input m ∧ m.pattern = i := by
  obtain ⟨f, back, rfl⟩ := h
  rw [append_assoc]
  refine ⟨⟨i, f.length, f.length + p.length⟩, ⟨by simp, by simp, ?_⟩, rfl⟩
  rw [slice_append]
  exact hp

theorem Occurs.part (h : Occurs patterns input m) (hp : patterns[m.pattern]? = some p) :
    p <:+: input := by
  obtain rfl : slice input m.start m.stop = p := by simpa [hp] using h.eq_slice.symm
  have ht := take_prefix (m.stop - m.start) (input.drop m.start)
  exact ht.isInfix.trans (drop_suffix m.start input).isInfix

/-- Occurrences that share a place, or of which one is empty and lies in the other,
are of patterns that overlap. -/
theorem Occurs.overlap (h : Occurs patterns input m) {o : Match} (hstop : m.stop ≤ o.stop)
    (hin : o.start ≤ m.stop) (hs : m.start < m.stop → o.start < m.stop) :
    Overlap (slice input m.start m.stop) (slice input o.start o.stop) := by
  rcases lt_or_ge m.start o.start with hlt | hge
  · -- `m` starts before `o` and ends inside it
    refine .inr (.inr (.inl ⟨slice input o.start m.stop, ?_, ?_, ?_⟩))
    · have hl : (slice input o.start m.stop).length = m.stop - o.start := length_slice h.stop_le
      intro hn
      simp [hn] at hl
      omega
    · exact slice_isSuffix hlt.le m.stop
    · exact slice_isPrefix o.start hstop
  · exact .inl ((slice_isSuffix hge m.stop).isInfix.trans (slice_isPrefix o.start hstop).isInfix)

theorem Match.stop_le_next (m : Match) : m.stop ≤ m.next := by
  unfold next
  split <;> omega

theorem Occurs.start_lt_next (h : Occurs patterns input m) : m.start < m.next := by
  have := h.start_le
  unfold Match.next
  split <;> omega

theorem exists_scan (patterns : List (List α)) (input : List α) (pos : Nat) :
    ∃ ms, Scan patterns input pos ms := by
  by_cases hn : ∀ m, Occurs patterns input m → m.start < pos
  · exact ⟨[], .done hn⟩
  push Not at hn
  obtain ⟨o, ho, hp⟩ := hn
  -- of the occurrences from `pos` on, one ends first
  classical
  let ends := fun stop => ∃ m, Occurs patterns input m ∧ pos ≤ m.start ∧ m.stop = stop
  have he : ∃ stop, ends stop := ⟨o.stop, o, ho, hp, rfl⟩
  obtain ⟨m, hm, hmp, hstop⟩ := Nat.find_spec he
  have hlt : pos < m.next := hmp.trans_lt hm.start_lt_next
  have hle : pos ≤ input.length := hmp.trans (hm.start_le.trans hm.stop_le)
  obtain ⟨ms, hms⟩ := exists_scan patterns input m.next
  refine ⟨m :: ms, .hit hm hmp (fun m' hm' hp' => ?_) hms⟩
  rw [hstop]
  exact Nat.find_min' he ⟨m', hm', hp', rfl⟩
termination_by input.length + 1 - pos

section

variable (h : Scan patterns input pos ms)

include h

theorem Scan.occurs : ∀ m ∈ ms, Occurs patterns input m := by
  induction h with
  | done => simp
  | hit hm _ _ _ ih =>
    rintro m hme
    rcases mem_cons.mp hme with rfl | hme
    · exact hm
    · exact ih m hme

theorem Scan.pos_le : ∀ m ∈ ms, pos ≤ m.start := by
  induction h with
  | done => simp
  | hit hm hp _ _ ih =>
    rintro m hme
    rcases mem_cons.mp hme with rfl | hme
    · exact hp
    · exact (hp.trans hm.start_lt_next.le).trans (ih m hme)

theorem Scan.pairwise : ms.Pairwise fun m m' => m.next ≤ m'.start := by
  induction h with
  | done => exact List.Pairwise.nil
  | hit _ _ _ hms ih => exact pairwise_cons.mpr ⟨hms.pos_le, ih⟩

/-- At every occurrence something is reported that ends inside it. -/
theorem Scan.meets (ho : Occurs patterns input o) (hp : pos ≤ o.start) :
    ∃ m ∈ ms, o.start ≤ m.stop ∧ m.stop ≤ o.stop ∧ (m.start < m.stop → o.start < m.stop) := by
  induction h with
  | done hn => exact absurd hp (not_le.mpr (hn o ho))
  | @hit m pos ms hm _ hf _ ih =>
    rcases lt_or_ge o.start m.next with hlt | hge
    · refine ⟨m, mem_cons_self, ?_, hf o ho hp, ?_⟩
      · unfold Match.next at hlt
        split at hlt <;> omega
      · intro hne
        rwa [Match.next, if_neg hne.ne] at hlt
    · obtain ⟨m', hme, hin⟩ := ih hge
      exact ⟨m', mem_cons_of_mem m hme, hin⟩

end

variable {i : Nat}

theorem Scan.empty_of_nil_mem (h : Scan patterns input pos ms) (hn : patterns[i]? = some []) :
    ∀ m ∈ ms, m.start = m.stop := by
  induction h with
  | done => simp
  | @hit m pos ms hm hp hf _ ih =>
    rintro m' hme
    rcases mem_cons.mp hme with rfl | hme
    · have hle := hm.start_le
      have ho : Occurs patterns input ⟨i, pos, pos⟩ :=
        ⟨le_rfl, (hp.trans hle).trans hm.stop_le, by simpa [slice] using hn⟩
      have hstop : m'.stop ≤ pos := hf _ ho le_rfl
      omega
    · exact ih m' hme

def ReportsAll (patterns : List (List α)) (input : List α) (ms : List Match) : Prop :=
  ∀ (i : Nat) p, patterns[i]? = some p → p <:+: input → ∃ m ∈ ms, m.pattern = i

theorem Scan.apart (h : Scan patterns input pos ms) (hm : m ∈ ms) (hm' : m' ∈ ms) (hne : m ≠ m') :
    m.next ≤ m'.start ∨ m'.next ≤ m.start := by
  have hs : Std.Symm fun m m' : Match => m.next ≤ m'.start ∨ m'.next ≤ m.start :=
    ⟨fun _ _ => Or.symm⟩
  have hp : ms.Pairwise fun m m' => m.next ≤ m'.start ∨ m'.next ≤ m.start :=
    h.pairwise.imp fun hn => .inl hn
  exact hp.forall hm hm' hne

theorem Occurs.length_eq (h : Occurs patterns input m) (hp : patterns[m.pattern]? = some p) :
    p.length = m.stop - m.start := by
  obtain rfl : slice input m.start m.stop = p := by simpa [hp] using h.eq_slice.symm
  exact length_slice h.stop_le

/-- Two patterns that are both reported take their lengths of the input, and the
input has room for one place at least. -/
theorem Scan.length_le (h : Scan patterns input pos ms) (hne : i ≠ j)
    (hp : patterns[i]? = some p) (hq : patterns[j]? = some q) (hi : ∃ m ∈ ms, m.pattern = i)
    (hj : ∃ m ∈ ms, m.pattern = j) : p.length + q.length ≤ input.length ∧ 0 < input.length := by
  obtain ⟨m, hm, rfl⟩ := hi
  obtain ⟨m', hm', rfl⟩ := hj
  have ho := h.occurs m hm
  have ho' := h.occurs m' hm'
  have hl := ho.length_eq hp
  have hl' := ho'.length_eq hq
  have hstop := ho.stop_le
  have hstop' := ho'.stop_le
  have hs := ho.start_le
  have hs' := ho'.start_le
  have hlt := ho.start_lt_next
  have hlt' := ho'.start_lt_next
  have hn := m.stop_le_next
  have hn' := m'.stop_le_next
  rcases h.apart hm hm' fun heq => hne (congrArg Match.pattern heq) with hb | hb <;> omega

/-- With two patterns that overlap there is an input in which one hides the other. -/
theorem Overlap.hides (h : Overlap p q) (hne : i ≠ j)
    (hp : patterns[i]? = some p) (hq : patterns[j]? = some q) :
    ∃ input, ∀ ms, Scan patterns input 0 ms → ¬ReportsAll patterns input ms := by
  -- a pattern inside the other leaves no room for it; an empty one hides what is not empty
  have hpa : ∀ (i j : Nat) (p q : List α), i ≠ j → patterns[i]? = some p → patterns[j]? = some q →
      p <:+: q → ∃ input, ∀ ms, Scan patterns input 0 ms → ¬ReportsAll patterns input ms := by
    intro i j p q hne hp hq hin
    refine ⟨q, fun ms hs hall => ?_⟩
    have hj := hall j q hq (infix_refl q)
    obtain ⟨hl, hpo⟩ := hs.length_le hne hp hq (hall i p hp hin) hj
    obtain rfl : p = [] := eq_nil_of_length_eq_zero (by omega)
    obtain ⟨m, hm, rfl⟩ := hj
    have he := hs.empty_of_nil_mem hp m hm
    have := (hs.occurs m hm).length_eq hq
    omega
  -- patterns that share an end and a start do not fit into their union side by side
  have hsh : ∀ (i j : Nat) (p q x : List α), i ≠ j → patterns[i]? = some p →
      patterns[j]? = some q → x ≠ [] → x <:+ p → x <+: q →
      ∃ input, ∀ ms, Scan patterns input 0 ms → ¬ReportsAll patterns input ms := by
    rintro i j - - x hne hp hq hx ⟨f, rfl⟩ ⟨back, rfl⟩
    refine ⟨f ++ x ++ back, fun ms hs hall => ?_⟩
    have hxl := length_pos_iff.mpr hx
    have hl := (hs.length_le hne hp hq (hall i _ hp ⟨[], back, by simp⟩)
      (hall j _ hq ⟨f, [], by simp⟩)).1
    simp only [length_append] at hl
    omega
  rcases h with h | h | ⟨x, hx, hsu, hst⟩ | ⟨x, hx, hsu, hst⟩
  · exact hpa i j p q hne hp hq h
  · exact hpa j i q p hne.symm hq hp h
  · exact hsh i j p q x hne hp hq hx hsu hst
  · exact hsh j i q p x hne.symm hq hp hx hsu hst

theorem Scan.reportsAll (h : Scan patterns input 0 ms)
    (ha : patterns.Pairwise fun p q => ¬Overlap p q) : ReportsAll patterns input ms := by
  intro i p hp hin
  obtain ⟨o, ho, rfl⟩ := exists_occurs hp hin
  obtain ⟨m, hm, hs, hstop, hsh⟩ := h.meets ho (Nat.zero_le _)
  refine ⟨m, hm, ?_⟩
  by_contra hne
  have hoc := h.occurs m hm
  have hov := hoc.overlap hstop hs hsh
  obtain ⟨hlt, hg⟩ := List.getElem?_eq_some_iff.mp hoc.eq_slice
  obtain ⟨hlt', hg'⟩ := List.getElem?_eq_some_iff.mp ho.eq_slice
  rw [← hg, ← hg'] at hov
  have hpa := pairwise_iff_getElem.mp ha
  rcases lt_or_gt_of_ne hne with hb | haf
  · exact hpa _ _ hlt hlt' hb hov
  · exact hpa _ _ hlt' hlt haf hov.symm

/-- Scans report every pattern that occurs, in all inputs, exactly when no two
patterns can overlap. -/
theorem reportsAll_iff {find : List α → List Match}
    (hs : ∀ input, Scan patterns input 0 (find input)) :
    (∀ input, ReportsAll patterns input (find input)) ↔
      patterns.Pairwise fun p q => ¬Overlap p q := by
  constructor
  · intro hall
    refine pairwise_iff_getElem.mpr fun i j hi hj hlt ho => ?_
    obtain ⟨input, hh⟩ := ho.hides hlt.ne (List.getElem?_eq_getElem hi)
      (List.getElem?_eq_getElem hj)
    exact hh _ (hs input) (hall input)
  · exact fun ha input => (hs input).reportsAll ha

end XrayCore.Lib.PatternScan
