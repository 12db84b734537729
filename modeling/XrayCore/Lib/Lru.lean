import Mathlib.Data.List.Nodup

/-!
# Caches that drop what was used least recently
-/

namespace XrayCore.Lib

open List

structure Lru (α β : Type*) where
  capacity : Nat
  entries : List (α × β)
  pos : 0 < capacity
  length_le : entries.length ≤ capacity
  nodup : (entries.map Prod.fst).Nodup

namespace Lru

variable {α β : Type*}

def empty (capacity : Nat) (pos : 0 < capacity) : Lru α β :=
  ⟨capacity, [], pos, Nat.zero_le _, nodup_nil⟩

theorem nodup_entries (c : Lru α β) : c.entries.Nodup := c.nodup.of_map _

theorem find?_of_sublist {γ : Type*} {p : γ → Bool} {e : γ} {l l' : List γ}
    (hs : l.Sublist l') (hn : l'.Nodup) (hm : e ∈ l) (hf : l'.find? p = some e) :
    l.find? p = some e := by
  induction hs with
  | slnil => cases hm
  | cons a hs ih =>
    obtain ⟨hno, hn⟩ := nodup_cons.mp hn
    rw [List.find?_cons] at hf
    split at hf
    next =>
      obtain rfl := Option.some.inj hf
      exact absurd (hs.subset hm) hno
    next => exact ih hn hm hf
  | cons_cons a hs ih =>
    obtain ⟨hno, hn⟩ := nodup_cons.mp hn
    rw [List.find?_cons] at hf ⊢
    split at hf
    next => exact hf
    next hp =>
      obtain rfl | hm := mem_cons.mp hm
      · exact absurd (List.find?_some hf) (by simp [hp])
      · exact ih hn hm hf

variable [DecidableEq α]

/-- The entries that stay when an entry for the key goes to the front: the last does not if
the entry is new and the cache full. -/
def kept (c : Lru α β) (key : α) : List (α × β) :=
  (c.entries.filter (·.1 ≠ key)).take (c.capacity - 1)

theorem kept_sublist (c : Lru α β) (key : α) : (c.kept key).Sublist c.entries :=
  (take_sublist ..).trans filter_sublist

variable {c : Lru α β} {key : α}

theorem ne_of_mem_kept (h : e ∈ c.kept key) : e.1 ≠ key := by
  simpa using of_mem_filter (mem_of_mem_take h)

theorem length_kept_le (c : Lru α β) (key : α) (v : β) :
    ((key, v) :: c.kept key).length ≤ c.capacity := by
  have := c.pos
  rw [length_cons, kept, length_take]
  omega

theorem nodup_kept (c : Lru α β) (key : α) (v : β) :
    (((key, v) :: c.kept key).map Prod.fst).Nodup := by
  refine nodup_cons.mpr ⟨?_, c.nodup.sublist ((c.kept_sublist key).map _)⟩
  rintro hm
  obtain ⟨e, he, heq⟩ := mem_map.mp hm
  exact ne_of_mem_kept he heq

def put (c : Lru α β) (key : α) (value : β) : Lru α β :=
  ⟨c.capacity, (key, value) :: c.kept key, c.pos, c.length_kept_le key value,
    c.nodup_kept key value⟩

def get (c : Lru α β) (key : α) : Option (β × Lru α β) :=
  match c.entries.find? (·.1 = key) with
  | some (_, value) => some (value, c.put key value)
  | none => none

theorem get_eq_some (h : c.get key = some (value, c')) :
    (key, value) ∈ c.entries ∧ c' = c.put key value := by
  unfold get at h
  split at h
  next k v hf =>
    obtain ⟨rfl, rfl⟩ := Prod.mk.inj (Option.some.inj h)
    obtain rfl : k = key := by simpa using List.find?_some hf
    exact ⟨mem_of_find?_eq_some hf, rfl⟩
  next => cases h

theorem get_eq_none (h : c.get key = none) : ∀ e ∈ c.entries, e.1 ≠ key := by
  unfold get at h
  split at h
  next => cases h
  next hf => simpa using hf

end Lru

end XrayCore.Lib
