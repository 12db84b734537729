import XrayCore.Lib.BigEndian

/-!
# Readers over a source

A reader is called with room for some bytes. Its source gives items, some of which say that there is
nothing yet, until it has ended.
-/

namespace XrayCore.Lib

open List

inductive Got
  | pending
  | bytes (data : Bytes)
  | failed
  deriving DecidableEq

def Got.data : Got → Bytes
  | .bytes data => data
  | _ => []

abbrev PollRead (σ α : Type) := σ → Nat → List α → Got × σ × List α

def reads (poll : PollRead σ α) : σ → List α → List Nat → List (Got × List α)
  | _, _, [] => []
  | s, source, room :: rooms =>
    let p := poll s room source
    (p.1, p.2.2) :: reads poll p.2.1 p.2.2 rooms

/-- Each call gives the next of the bytes. None fails, one is pending only if the source was, and
one gives no byte only when the source has ended and no byte is left. -/
def Delivers (source : List α) : List (Got × List α) → Bytes → Prop
  | [], _ => True
  | (got, source') :: outs, data =>
    (got = .pending → source'.length < source.length) ∧ got ≠ .failed ∧
      (got = .bytes [] → source' = [] ∧ data = []) ∧
      ∃ rest, data = got.data ++ rest ∧ Delivers source' outs rest

/-- It is enough to look at one call, under a relation to the bytes that are still to come. -/
theorem delivers_of_step {poll : PollRead σ α} {Ok : Nat → Prop} (Left : σ → List α → Bytes → Prop)
    (hstep : ∀ s src data room, Left s src data → Ok room → let p := poll s room src
      (p.1 = .pending → p.2.2.length < src.length) ∧ p.1 ≠ .failed ∧
        (p.1 = .bytes [] → p.2.2 = [] ∧ data = []) ∧
        ∃ rest, data = p.1.data ++ rest ∧ Left p.2.1 p.2.2 rest)
    (rooms : List Nat) : ∀ s src data, Left s src data → (∀ room ∈ rooms, Ok room) →
      Delivers src (reads poll s src rooms) data := by
  induction rooms with
  | nil => exact fun _ _ _ _ _ => trivial
  | cons room rooms ih =>
    intro s src data h hr
    rw [forall_mem_cons] at hr
    obtain ⟨hp, hf, he, rest, hd, h'⟩ := hstep s src data room h hr.1
    exact ⟨hp, hf, he, rest, hd, ih _ _ _ h' hr.2⟩

end XrayCore.Lib
