import XrayCore.Lib.Reads

/-!
# Streams over the reader of a link

A link is read one `MultiBuffer` at a time. Each adapter keeps what its caller had no room for, and
hands it out first.
-/

namespace XrayCore.Streams

open Lib List

abbrev MultiBuffer := List Bytes

def readTo : MultiBuffer → Nat → Bytes × MultiBuffer
  | [], _ => ([], [])
  | front :: buffers, room =>
    if room = 0 then ([], front :: buffers)
    else if front.length ≤ room then
      let r := readTo buffers (room - front.length)
      (front ++ r.1, r.2)
    else (front.take room, front.drop room :: buffers)

theorem readTo_eq (mb : MultiBuffer) (room : Nat) :
    (readTo mb room).1 = mb.flatten.take room ∧ (readTo mb room).2.flatten = mb.flatten.drop room := by
  fun_induction readTo mb room with
  | case1 | case2 => simp
  | case3 f b room h hle r ih =>
    simp [r, ih, take_append, drop_append, take_of_length_le hle, drop_eq_nil_of_le hle]
  | case4 f b room h hle =>
    have hlt := le_of_lt (not_le.mp hle)
    simp [take_append_of_le_length hlt, drop_append_of_le_length hlt]

/-- The loop that the adapters share: `give` hands out of what is kept when `ready` says so, and
`load` keeps what the link gave. -/
def pollKept (ready : σ → Nat → Bool) (give : σ → Nat → Bytes × σ) (load : MultiBuffer → σ) (s : σ)
    (room : Nat) (source : List (Option MultiBuffer)) : Got × σ × List (Option MultiBuffer) :=
  if ready s room then (.bytes (give s room).1, (give s room).2, source)
  else
    match source with
    | [] => (.bytes [], load [], [])
    | none :: source => (.pending, load [], source)
    | some mb :: source =>
      if mb.flatten = [] then (.bytes [], load [], source)
      else pollKept ready give load (load mb) room source

def ContentNetworkConnection.pollRead (packetMode : Bool) : PollRead MultiBuffer (Option MultiBuffer) :=
  pollKept (fun mb _ => mb.flatten ≠ [])
    (fun mb room => readTo mb (if packetMode then min (mb.headD []).length room else room)) id

def LinkStream.pollRead : PollRead MultiBuffer (Option MultiBuffer) :=
  pollKept (fun pending room => pending.flatten ≠ [] ∧ (readTo pending room).1 ≠ []) readTo id

def ReaderSlot.pollRead : PollRead Bytes (Option MultiBuffer) :=
  pollKept (fun pending _ => pending ≠ [])
    (fun pending room =>
      let n := min pending.length room
      (pending.drop (pending.length - n), pending.take (pending.length - n)))
    flatten

def linkBytes (source : List (Option MultiBuffer)) : Bytes :=
  source.flatMap fun mb => (mb.getD []).flatten

structure Gives (ready : σ → Nat → Bool) (give : σ → Nat → Bytes × σ) (kept : σ → Bytes)
    (Good : σ → Prop) (Ok : Nat → Prop) : Prop where
  ready_iff : ∀ s room, Good s → Ok room → (ready s room = true ↔ kept s ≠ [])
  give_ne : ∀ s room, Good s → Ok room → kept s ≠ [] → (give s room).1 ≠ []
  kept_eq : ∀ s room, Good s → Ok room → kept s = (give s room).1 ++ kept (give s room).2
  good : ∀ s room, Good s → Ok room → Good (give s room).2

theorem delivers_pollKept
    (h : Gives ready give kept Good Ok) (hload : ∀ mb, kept (load mb) = mb.flatten)
    (hnil : Good (load [])) (src : List (Option MultiBuffer))
    (hsource : ∀ mb, some mb ∈ src → mb.flatten ≠ [] ∧ Good (load mb)) (rooms : List Nat)
    (hrooms : ∀ room ∈ rooms, Ok room) :
    Delivers src (reads (pollKept ready give load) (load []) src rooms) (linkBytes src) := by
  refine delivers_of_step (fun s src data => Good s ∧ data = kept s ++ linkBytes src ∧
    ∀ mb, some mb ∈ src → mb.flatten ≠ [] ∧ Good (load mb)) ?_ rooms _ src _
    ⟨hnil, by rw [hload]; rfl, hsource⟩ hrooms
  rintro s src _ room ⟨hs, rfl, hsource⟩ hroom
  have hgive : ∀ s src, Good s → kept s ≠ [] → pollKept ready give load s room src =
        (.bytes (give s room).1, (give s room).2, src) := by
    intro s src hs hk
    rw [pollKept.eq_def, if_pos ((h.ready_iff s room hs hroom).mpr hk)]
  by_cases hk : kept s = []
  · rw [pollKept.eq_def, if_neg (mt (h.ready_iff s room hs hroom).mp (not_not_intro hk)), hk]
    rcases src with _ | ⟨_ | mb, src⟩
    · simp [Got.data, linkBytes, hnil, hload]
    · exact ⟨by simp, by simp, by simp, _, rfl, hnil, by simp [hload, linkBytes],
        fun mb hm => hsource mb (mem_cons_of_mem _ hm)⟩
    · obtain ⟨⟨hne, hgood⟩, hrest⟩ : (mb.flatten ≠ [] ∧ Good (load mb)) ∧
            ∀ mb', some mb' ∈ src → mb'.flatten ≠ [] ∧ Good (load mb') :=
        ⟨hsource mb mem_cons_self, fun mb hm => hsource mb (mem_cons_of_mem _ hm)⟩
      rw [← hload] at hne
      simp only [hload mb ▸ hne, if_false, hgive _ src hgood hne]
      refine ⟨by simp, by simp, fun hb => ?_, _, ?_, h.good _ _ hgood hroom, rfl, hrest⟩
      · exact absurd (Got.bytes.inj hb) (h.give_ne _ _ hgood hroom hne)
      · rw [Got.data, ← append_assoc, ← h.kept_eq _ _ hgood hroom, hload]
        rfl
  · rw [hgive s src hs hk]
    refine ⟨by simp, by simp, fun hb => ?_, _, ?_, h.good _ _ hs hroom, rfl, hsource⟩
    · exact absurd (Got.bytes.inj hb) (h.give_ne _ _ hs hroom hk)
    · rw [Got.data, ← append_assoc, ← h.kept_eq _ _ hs hroom]

theorem gives_readTo : Gives (fun mb _ => mb.flatten ≠ []) readTo flatten (fun _ => True) (0 < ·) where
  ready_iff := by simp
  give_ne := by
    intro mb room _ hr hk
    rw [(readTo_eq mb room).1]
    simp [hk, ne_of_gt hr]
  kept_eq := by
    intro mb room _ _
    rw [(readTo_eq mb room).1, (readTo_eq mb room).2, take_append_drop]
  good := by simp

theorem gives_first : Gives (fun mb _ => mb.flatten ≠ [])
    (fun mb room => readTo mb (min (mb.headD []).length room)) flatten ([] ∉ ·) (0 < ·) where
  ready_iff := by simp
  give_ne := by
    intro mb room hn hr hk
    rw [(readTo_eq mb _).1]
    cases mb with
    | nil => exact absurd rfl hk
    | cons b mb =>
      have hb : b ≠ [] := fun h => hn (h ▸ mem_cons_self)
      simpa [hk, ne_of_gt hr] using ⟨hb, fun h => absurd h hb⟩
  kept_eq := by
    intro mb room _ _
    rw [(readTo_eq mb _).1, (readTo_eq mb _).2, take_append_drop]
  good := by
    intro mb room hn hr
    cases mb with
    | nil => simp [readTo]
    | cons b mb =>
      rw [mem_cons, not_or] at hn
      obtain ⟨hb, hmb⟩ := hn
      have hl := length_pos_iff.mpr (Ne.symm hb)
      rw [readTo, headD_cons]
      split_ifs with h0 hle
      · omega
      · have hz : min b.length room - b.length = 0 := by omega
        rw [hz]
        cases mb with
        | nil => simp [readTo]
        | cons => exact hmb
      · have hd : b.drop (min b.length room) ≠ [] := by
          rw [← length_pos_iff, length_drop]
          omega
        rw [mem_cons, not_or]
        exact ⟨Ne.symm hd, hmb⟩

/-- Every byte is delivered in order and none before the end is missing: by
`ContentNetworkConnection` as a stream and by `LinkStream` always, in packet mode if no buffer is
empty, and by `ReaderSlot` if the caller always has room for all of a `MultiBuffer`. -/
theorem delivers_link (source : List (Option MultiBuffer)) (rooms : List Nat)
    (hsource : ∀ mb, some mb ∈ source → mb.flatten ≠ []) (hrooms : ∀ room ∈ rooms, 0 < room) :
    Delivers source (reads (ContentNetworkConnection.pollRead false) [] source rooms)
      (linkBytes source) ∧
    Delivers source (reads LinkStream.pollRead [] source rooms) (linkBytes source) ∧
    ((∀ mb, some mb ∈ source → [] ∉ mb) →
      Delivers source (reads (ContentNetworkConnection.pollRead true) [] source rooms)
        (linkBytes source)) ∧ ((∀ mb, some mb ∈ source → ∀ room ∈ rooms, mb.flatten.length ≤ room) →
      Delivers source (reads ReaderSlot.pollRead [] source rooms) (linkBytes source)) := by
  refine ⟨?_, ?_, fun h => ?_, fun h => ?_⟩
  · exact delivers_pollKept gives_readTo (fun _ => rfl) trivial source
      (fun mb hm => ⟨hsource mb hm, trivial⟩) rooms hrooms
  · refine delivers_pollKept ⟨fun mb room hg hr => ?_, gives_readTo.give_ne, gives_readTo.kept_eq,
      gives_readTo.good⟩ (fun _ => rfl) trivial source (fun mb hm => ⟨hsource mb hm, trivial⟩) rooms
      hrooms
    simpa using gives_readTo.give_ne mb room hg hr
  · exact delivers_pollKept gives_first (fun _ => rfl) (by simp) source
      (fun mb hm => ⟨hsource mb hm, h mb hm⟩) rooms hrooms
  · let Good := fun pending : Bytes => ∀ room ∈ rooms, pending.length ≤ room
    let Ok := fun room => room ∈ rooms ∧ 0 < room
    have hall : ∀ pending room, Good pending → Ok room →
        pending.length - min pending.length room = 0 := by
      intro pending room hg hr
      have := hg room hr.1
      omega
    refine delivers_pollKept (⟨by simp, ?_, ?_, ?_⟩ : Gives _ _ id Good Ok) (fun _ => rfl) (by simp [Good])
      source (fun mb hm => ⟨hsource mb hm, h mb hm⟩) rooms fun room hr => ⟨hr, hrooms room hr⟩
    · intro pending room hg hr hk
      simpa [hall pending room hg hr] using hk
    · intro pending room hg hr
      simp [hall pending room hg hr]
    · intro pending room hg hr
      simp [hall pending room hg hr, Good]

theorem delivers_link_cut :
    Delivers [some [[1, 2, 3]]] (reads LinkStream.pollRead [] [some [[1, 2, 3]]] [2, 2])
      [1, 2, 3] :=
  (delivers_link [some [[1, 2, 3]]] [2, 2] (by simp) (by decide)).2.1

/-- The last bytes come first, and an empty buffer looks like the end. -/
theorem slot_reversed : (reads ReaderSlot.pollRead [] [some [[1, 2, 3]]] [2, 2]).map (·.1) =
        [.bytes [2, 3], .bytes [1]] ∧
      (reads (ContentNetworkConnection.pollRead true) [] [some [[], [1]]] [8]).map (·.1) =
        [.bytes []] := by
  decide

end XrayCore.Streams
