import Mathlib.Data.List.Nodup

/-!
# Hash and displace

Items come in buckets and go into a table of `n` cells. The items of one bucket are placed with one
seed, and where a cell is taken the bucket is taken back and tried again with the next seed. An item
stays where its bucket was placed, so the seed of its bucket finds it.
-/

namespace XrayCore.Lib.Displacement

open List

variable {ι : Type _} {n m : Nat}

structure Table (ι : Type _) (n : Nat) where
  occupied : Fin n → Bool
  cells : Fin n → ι

namespace Table

def put (t : Table ι n) (i : Fin n) (x : ι) : Table ι n :=
  ⟨Function.update t.occupied i true, Function.update t.cells i x⟩

def clear (zero : ι) (t : Table ι n) (i : Fin n) : Table ι n :=
  ⟨Function.update t.occupied i false, Function.update t.cells i zero⟩

def Holds (t : Table ι n) (i : Fin n) (x : ι) : Prop :=
  t.occupied i = true ∧ t.cells i = x

def Keeps (before after : Table ι n) : Prop :=
  ∀ i x, before.Holds i x → after.Holds i x

theorem Keeps.refl (t : Table ι n) : t.Keeps t := fun _ _ h => h

variable {t t' : Table ι n}

theorem Keeps.trans (h : t.Keeps t') (h' : t'.Keeps t'') : t.Keeps t'' :=
  fun i x hx => h' i x (h i x hx)

theorem holds_put (t : Table ι n) (i : Fin n) (x : ι) : (t.put i x).Holds i x := by
  simp [Holds, put]

theorem Holds.of_ne (h : t.Holds i x) (hne : j ≠ i) (y : ι) : (t.put j y).Holds i x := by
  simpa [Holds, put, Function.update_of_ne hne.symm] using h

theorem Keeps.put (h : t.Keeps t') (hf : t'.occupied i = false) (x : ι) : t.Keeps (t'.put i x) := by
  intro j y hy
  have hj := h j y hy
  refine hj.of_ne ?_ x
  rintro rfl
  simp [hj.1] at hf

theorem Keeps.clear (h : t.Keeps t')
    (hf : t.occupied i = false) (zero : ι) : t.Keeps (t'.clear zero i) := by
  intro j y hy
  have hne : i ≠ j := by
    rintro rfl
    simp [hy.1] at hf
  simpa [Holds, Table.clear, Function.update_of_ne hne.symm] using h j y hy

theorem Keeps.foldl_clear (h : t.Keeps t') {cells : List (Fin n)}
    (hf : ∀ i ∈ cells, t.occupied i = false) (zero : ι) :
    t.Keeps (cells.foldl (Table.clear zero) t') := by
  induction cells generalizing t' with
  | nil => exact h
  | cons i cells ih =>
    exact ih (h.clear (hf i mem_cons_self) zero) (forall_mem_cons.mp hf).2

theorem Keeps.free (h : t.Keeps t') (hf : t'.occupied i = false) : t.occupied i = false := by
  cases ho : t.occupied i with
  | false => rfl
  | true =>
    have := (h i _ ⟨ho, rfl⟩).1
    simp [hf] at this

end Table

/-- One pass over a bucket. At a cell that is taken, the cells filled in this pass
are cleared again and the pass fails. -/
def attempt (zero : ι) (slot : ι → Fin n) : List ι → List (Fin n) → Table ι n → Bool × Table ι n
  | [], _, t => (true, t)
  | x :: xs, hashed, t =>
    if t.occupied (slot x) then (false, hashed.foldl (Table.clear zero) t)
    else attempt zero slot xs (hashed ++ [slot x]) (t.put (slot x) x)

def settle (zero : ι) (slot : UInt32 → ι → Fin n) (bucket : List ι) :
    Nat → UInt32 → Table ι n → Option (UInt32 × Table ι n)
  | 0, _, _ => none
  | fuel + 1, seed, t =>
    match attempt zero (slot seed) bucket [] t with
    | (true, t') => some (seed, t')
    | (false, t') => settle zero slot bucket fuel (seed + 1) t'

def settleAll (zero : ι) (slot : UInt32 → ι → Fin n) (buckets : Fin m → List ι) (fuel : Nat) :
    List (Fin m) → (Fin m → UInt32) → Table ι n → Option ((Fin m → UInt32) × Table ι n)
  | [], seeds, t => some (seeds, t)
  | b :: order, seeds, t =>
    match settle zero slot (buckets b) fuel 0 t with
    | none => none
    | some (seed, t') => settleAll zero slot buckets fuel order (Function.update seeds b seed) t'

open Table

variable {zero : ι} {t : Table ι n}

theorem attempt_keeps {slot : ι → Fin n} {xs : List ι} {hashed : List (Fin n)}
    {base : Table ι n} (h : base.Keeps t) (hf : ∀ i ∈ hashed, base.occupied i = false) :
    base.Keeps (attempt zero slot xs hashed t).2 := by
  induction xs generalizing hashed t with
  | nil => exact h
  | cons x xs ih =>
    unfold attempt
    split
    · exact h.foldl_clear hf zero
    case isFalse ho =>
      have hs : t.occupied (slot x) = false := Bool.eq_false_iff.mpr ho
      refine ih (h.put hs x) fun i hi => ?_
      rcases mem_append.mp hi with hi | hi
      · exact hf i hi
      · obtain rfl := mem_singleton.mp hi
        exact h.free hs

variable {t' : Table ι n}

theorem attempt_holds (h : attempt zero slot xs hashed t = (true, t')) :
    t.Keeps t' ∧ ∀ x ∈ xs, t'.Holds (slot x) x := by
  induction xs generalizing hashed t with
  | nil =>
    cases h
    exact ⟨.refl _, by simp⟩
  | cons x xs ih =>
    unfold attempt at h
    split at h
    · simp at h
    case isFalse ho =>
      have hs : t.occupied (slot x) = false := Bool.eq_false_iff.mpr ho
      obtain ⟨hk, hh⟩ := ih h
      refine ⟨((Keeps.refl t).put hs x).trans hk, fun y hy => ?_⟩
      rcases mem_cons.mp hy with rfl | hy
      · exact hk _ _ (holds_put t _ _)
      · exact hh y hy

theorem settle_spec {slot : UInt32 → ι → Fin n} {bucket : List ι} {fuel : Nat} {seed seed' : UInt32}
    (h : settle zero slot bucket fuel seed t = some (seed', t')) :
    t.Keeps t' ∧ ∀ x ∈ bucket, t'.Holds (slot seed' x) x := by
  induction fuel generalizing seed t with
  | zero => cases h
  | succ fuel ih =>
    unfold settle at h
    split at h
    case h_1 t1 ha =>
      cases h
      exact attempt_holds ha
    case h_2 t1 ha =>
      have hf : t.Keeps (attempt zero (slot seed) bucket [] t).2 :=
        attempt_keeps (.refl t) (by simp)
      rw [ha] at hf
      obtain ⟨hk, hh⟩ := ih h
      exact ⟨hf.trans hk, hh⟩

/-- Every item is where the seed of its bucket puts it. -/
theorem settleAll_spec (h : settleAll zero slot buckets fuel order seeds t = some (seeds', t'))
    (hn : order.Nodup) : t.Keeps t' ∧ (∀ b ∉ order, seeds' b = seeds b) ∧
      ∀ b ∈ order, ∀ x ∈ buckets b, t'.Holds (slot (seeds' b) x) x := by
  induction order generalizing seeds t with
  | nil =>
    cases h
    exact ⟨.refl _, fun _ _ => rfl, by simp⟩
  | cons b order ih =>
    obtain ⟨hb, hn⟩ := nodup_cons.mp hn
    unfold settleAll at h
    split at h
    · cases h
    case h_2 seed t1 hse =>
      obtain ⟨hk1, hh1⟩ := settle_spec hse
      obtain ⟨hk, hs, hh⟩ := ih h hn
      refine ⟨hk1.trans hk, fun c hc => ?_, fun c hc x hx => ?_⟩
      · simp only [mem_cons, not_or] at hc
        rw [hs c hc.2, Function.update_of_ne hc.1]
      rcases mem_cons.mp hc with rfl | hc
      · rw [hs c hb, Function.update_self]
        exact hk _ _ (hh1 x hx)
      · exact hh c hc x hx

end XrayCore.Lib.Displacement
