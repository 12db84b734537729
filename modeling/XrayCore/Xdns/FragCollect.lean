import XrayCore.Xdns.FragBudgets

/-!
# Collecting the fragments of a packet

Fragments of one packet that come in one after the other, each before the entry expires, fill its
entry whatever their order; the last of them hands out the packet. No limit is reached while the
client has no other entry.
-/

namespace XrayCore.Xdns.Inner

open Lib

variable {g : Inner} {key : FragKey} {n i : Nat} {part : Nat → Bytes} {seen : List Nat}
  {it : Iteration FragKey} {now : Instant}

/-- The entry of the key has the parts with these numbers, and the client has no other. -/
structure Holds (g : Inner) (key : FragKey) (e : FragEntry) (n : Nat) (part : Nat → Bytes)
    (seen : List Nat) : Prop where
  wf : g.Wf
  entry : g.m.lookup key = some e
  data : e.data = slotsOf n part seen
  total : e.total.toNat = n
  only : ∀ k ∈ g.m, k.clientId = key.clientId → k = key

variable {e : FragEntry}

theorem Holds.pending (h : g.Holds key e n part seen) : g.pending key.clientId = e.size := by
  rw [Inner.pending, tally_of_lookup h.entry, if_pos rfl, add_eq_left]
  by_contra hne
  obtain ⟨k, hk, _, _, hw⟩ := exists_of_tally_ne_zero hne
  obtain ⟨hke, hk⟩ := AList.mem_erase.mp hk
  exact hw (if_neg fun hc => hke (h.only k hk hc))

structure Sizes (n : Nat) (part : Nat → Bytes) : Prop where
  two_le : 2 ≤ n
  le : n ≤ 255
  total : ((List.range n).map fun i => (part i).length).sum ≤ FRAG_SIZE

theorem Sizes.toNat (h : Sizes n part) : (UInt8.ofNat n).toNat = n := by
  have := h.le
  rw [UInt8.toNat_ofNat']
  omega

theorem Holds.size_le (h : g.Holds key e n part seen) (hs : Sizes n part) (hi : i < n)
    (hnew : i ∉ seen) : e.size + (part i).length ≤ FRAG_SIZE := by
  have hsl : (slotsOf n part seen)[i]? = some none := by rw [getElem?_slotsOf hi, if_neg hnew]
  have hsu := slotSum_slotsOf_le List.length n part (i :: seen)
  rw [← set_slotsOf, slotSum_set _ hsl, ← h.data, ← (h.wf.entry key e h.entry).size] at hsu
  exact hsu.trans hs.total

theorem Holds.place (h : g.Holds key e n part seen) (hs : Sizes n part) (hi : i < n)
    (hnew : i ∉ seen) (now : Instant) :
    g.rejects key e (UInt8.ofNat i) (UInt8.ofNat n) (part i) = .ok false ∧
    ((∀ j < n, j ∈ i :: seen) → ∃ g', g.place now key e (UInt8.ofNat i) (part i) =
      .ok (g', ((List.range n).map part).flatten)) ∧
    (¬ (∀ j < n, j ∈ i :: seen) → ∃ g', g.place now key e (UInt8.ofNat i) (part i) = .ok (g', []) ∧
      g'.Holds key (e.store now (UInt8.ofNat i) (part i)) n part (i :: seen) ∧
      g'.closed = g.closed) := by
  have he := h.wf.entry key e h.entry
  have hle := hs.le
  have hid : (UInt8.ofNat i).toNat = i := by
    rw [UInt8.toNat_ofNat']
    omega
  have hsl : e.data[(UInt8.ofNat i).toNat]? = some none := by
    rw [hid, h.data, getElem?_slotsOf hi, if_neg hnew]
  have hsize := h.size_le hs hi hnew
  have hbu : (g.sizem key.clientId).getD 0 + (part i).length ≤ FRAG_CLIENT_ID_SIZE := by
    rw [h.wf.sizem, h.pending]
    exact hsize.trans (by decide)
  have hdata : (e.store now (UInt8.ofNat i) (part i)).data = slotsOf n part (i :: seen) := by
    rw [FragEntry.store, hid, h.data, set_slotsOf]
  have hl : e.filled + 1 = e.total.toNat ↔ ∀ j < n, j ∈ i :: seen := by
    rw [he.filled, ← filled_set hsl (part i), hid, h.data, set_slotsOf, h.total,
      filled_slotsOf_eq_iff]
  have ht : UInt8.ofNat n = e.total := by
    rw [← h.total, UInt8.ofNat_toNat]
  refine ⟨?_, fun hall => ?_, fun hmore => ?_⟩
  · obtain ⟨b, hb, hif⟩ := rejects_spec he g key (UInt8.ofNat i) (UInt8.ofNat n) (part i)
    rw [hb, hif.mpr ⟨ht, hsl, hsize, fun _ => hbu⟩]
  · refine ⟨_, place_last g now key (part i) hsl (hl.mpr hall) ?_⟩
    rw [hdata, slotsOf_full hall, Checked.mapM_expect]
  · rw [← hl] at hmore
    refine ⟨_, place_more g now key (part i) hsl hmore, ⟨?_, AList.lookup_insert _, hdata,
      h.total, fun k hk hc => ?_⟩, rfl⟩
    · exact h.wf.storePart h.entry hsl hsize hbu hmore
    · rcases (AList.mem_insert _).mp hk with rfl | hk
      · rfl
      · exact h.only k hk hc

def Awaits (g : Inner) (key : FragKey) (n : Nat) (part : Nat → Bytes) (now : Instant)
    (seen : List Nat) : Prop :=
  g.closed = false ∧ ∃ g₁ e, (∀ it, g.prepare it now key (UInt8.ofNat n) = .ok g₁) ∧
    g₁.closed = false ∧ g₁.Holds key e n part seen

theorem awaits_first (h : g.Wf) (ho : g.closed = false) (hco : g.m.keys.length < FRAG_COUNT)
    (hcl : ∀ k ∈ g.m, k.clientId ≠ key.clientId) (hs : Sizes n part) (now : Instant) :
    g.Awaits key n part now [] := by
  have hn : g.m.lookup key = none := AList.lookup_eq_none.mpr fun hk => hcl key hk rfl
  have hp : 0 < (UInt8.ofNat n).toNat := by
    have := hs.two_le
    rw [hs.toNat]
    omega
  refine ⟨ho, { g with m := g.m.insert key (newEntry (UInt8.ofNat n) now) },
    newEntry (UInt8.ofNat n) now, fun it => ?_, ho, h.insert_new hn hco hp,
    AList.lookup_insert _, ?_, hs.toNat, fun k hk hc => ?_⟩
  · have hf : g.isFresh now key = true := by rw [isFresh, hn]
    have hroom : g.makeRoom it key = .ok g := by
      rw [makeRoom, hn]
      exact if_pos hco
    rw [prepare, if_pos hf, hroom, ok_bind]
  · rw [newEntry, hs.toNat, slotsOf_nil]
  · rcases (AList.mem_insert _).mp hk with rfl | hk
    · rfl
    · exact absurd hc (hcl k hk)

theorem Holds.awaits (h : g.Holds key e n part seen) (ho : g.closed = false)
    (hn : now ≤ e.deadline) : g.Awaits key n part now seen := by
  have hf : ¬ g.isFresh now key = true := by
    rw [isFresh, h.entry]
    simpa using hn
  exact ⟨ho, g, e, fun it => if_neg hf, ho, h⟩

theorem Awaits.feed (h : g.Awaits key n part now seen) (hs : Sizes n part) (hi : i < n)
    (hnew : i ∉ seen) (it : Iteration FragKey) : ((∀ j < n, j ∈ i :: seen) → ∃ g',
      g.feed it now key (UInt8.ofNat i) (UInt8.ofNat n) (part i) =
        .ok (g', ((List.range n).map part).flatten)) ∧ (¬ (∀ j < n, j ∈ i :: seen) → ∃ g',
      g.feed it now key (UInt8.ofNat i) (UInt8.ofNat n) (part i) = .ok (g', []) ∧
      ∀ now' ≤ now + FRAG_TTL, g'.Awaits key n part now' (i :: seen)) := by
  obtain ⟨ho, g₁, e, hp, ho1, hh⟩ := h
  obtain ⟨hr, hl, hmore⟩ := hh.place hs hi hnew now
  have ht : ¬ (g.closed = true ∨ UInt8.ofNat n < 2) := by
    rw [ho, UInt8.lt_iff_toNat_lt, hs.toNat]
    have h2 : (2 : UInt8).toNat = 2 := rfl
    have := hs.two_le
    simp
    omega
  have hf : g.feed it now key (UInt8.ofNat i) (UInt8.ofNat n) (part i) =
      g₁.place now key e (UInt8.ofNat i) (part i) := by
    rw [Inner.feed, if_neg ht, hp, ok_bind, hh.entry]
    simp [hr, ↓reduceIte]
  rw [hf]
  refine ⟨hl, fun hn => ?_⟩
  obtain ⟨g', hpl, hh', hc'⟩ := hmore hn
  exact ⟨g', hpl, fun now' hn' => hh'.awaits (hc'.trans ho1) hn'⟩

end XrayCore.Xdns.Inner
