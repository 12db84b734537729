import XrayCore.Vless.VisionConn

/-!
# Reading a Vision connection

The decoder knows by its three counters where it is in a block. The connection asks only two of
them, and the command, to see whether the last block is complete. When a piece of the stream ends
inside the header of that block, padding mode may end early, and the rest of the block is delivered
as it is.
-/

namespace XrayCore.Vless.Vision

open Lib DirectionState VisionConn List Transducer

structure Block where
  content : Bytes
  padding : Bytes
  content_le : content.length ≤ 65535
  padding_le : padding.length ≤ 65535

namespace Block

def bytes (b : Block) (command : UInt8) : Bytes := paddedBlock command b.content b.padding

theorem length_bytes (b : Block) (cmd : UInt8) :
    (b.bytes cmd).length = 5 + b.content.length + b.padding.length := by
  simp [bytes, paddedBlock]
  omega

/-- With so many bytes of the header read, two of the counters take the block for complete. -/
def LooksDone (b : Block) : Nat → Prop
  | 1 => True
  | 2 => b.content.length < 256
  | 3 => b.content.length = 0
  | 4 => b.content.length = 0 ∧ b.padding.length < 256
  | _ => False

end Block

def blocksBytes (front : List Block) (last : Block) : Bytes :=
  front.flatMap (·.bytes COMMAND_PADDING_CONTINUE) ++ last.bytes COMMAND_PADDING_END

structure AtStart (s : DirectionState) : Prop where
  command : s.remainingCommand = 5
  content : s.remainingContent ≤ 0
  padding : s.remainingPadding ≤ 0
  current : s.currentCommand = 0

variable {s : DirectionState} {out : Bytes}

theorem feed_cons_live (hb : s.readByte data = (s', out)) (hl : s'.Live) (c : Bytes) :
    machine.feed s (data :: c) = ((machine.feed s' c).1, out ++ (machine.feed s' c).2) := by
  have hs : machine.step s data = (s', out) := by
    simp [machine, hb, finish_of_live hl]
  rw [feed, hs]
  simp [hl.running]

variable {m : Int}

theorem feed_body (c : Bytes) (h : c.length < C + P) :
    ∃ C' P' : Nat, 0 < C' + P' ∧ (machine.feed ⟨0, C, P, m⟩ c).1 = ⟨0, C', P', m⟩ := by
  induction c generalizing C P with
  | nil => exact ⟨C, P, by simpa using h, rfl⟩
  | cons data c ih =>
    rw [length_cons] at h
    cases C with
    | zero =>
      have hb : readByte ⟨0, (0 : Nat), P, m⟩ data = (⟨0, (0 : Nat), (P - 1 : Nat), m⟩, []) := by
        simp [readByte]
        omega
      have hl : Live ⟨0, (0 : Nat), (P - 1 : Nat), m⟩ := .inr (.inr (by simp; omega))
      rw [feed_cons_live hb hl]
      exact ih (by omega)
    | succ C =>
      have hb : readByte ⟨0, (C + 1 : Nat), P, m⟩ data = (⟨0, C, P, m⟩, [data]) := by
        simp [readByte]
      have hl : Live ⟨0, C, P, m⟩ := .inr (by simp; omega)
      rw [feed_cons_live hb hl]
      exact ih (by omega)

theorem feed_header (hk : 0 < k)
    (hh : header ⟨k, c, p, m⟩ data = ⟨k', c', p', m'⟩) (hk' : 0 < k') (w : Bytes) :
    machine.feed ⟨k, c, p, m⟩ (data :: w) = machine.feed ⟨k', c', p', m'⟩ w := by
  have hb : readByte ⟨k, c, p, m⟩ data = (⟨k', c', p', m'⟩, []) := by
    rw [readByte, if_pos hk, hh]
  exact feed_cons_live hb (.inl hk') w

section Header

variable {content padding : Int} (x : UInt8) (w : Bytes)

theorem feed_command : machine.feed ⟨5, content, padding, 0⟩ (x :: w) =
    machine.feed ⟨4, content, padding, x.toNat⟩ w :=
  feed_header (by decide) rfl (by simp) w

theorem feed_content_high : machine.feed ⟨4, content, padding, m⟩ (x :: w) =
    machine.feed ⟨3, (x.toNat <<< 8 : Nat), padding, m⟩ w :=
  feed_header (by decide) rfl (by simp) w

theorem feed_content_low (y : UInt8) :
    machine.feed ⟨3, (x.toNat <<< 8 : Nat), padding, m⟩ (y :: w) =
      machine.feed ⟨2, (x.toNat * 256 + y.toNat : Nat), padding, m⟩ w := by
  rw [← lor_byte]
  exact feed_header (by decide) rfl (by simp) w

theorem feed_padding_high : machine.feed ⟨2, content, padding, m⟩ (x :: w) =
    machine.feed ⟨1, content, (x.toNat <<< 8 : Nat), m⟩ w :=
  feed_header (by decide) rfl (by simp) w

theorem feed_padding_low (y : UInt8) (hl : 0 < content ∨ 0 < x.toNat * 256 + y.toNat) :
    (machine.feed ⟨1, content, (x.toNat <<< 8 : Nat), m⟩ (y :: w)).1 =
      (machine.feed ⟨0, content, (x.toNat * 256 + y.toNat : Nat), m⟩ w).1 := by
  have hb : readByte ⟨1, content, (x.toNat <<< 8 : Nat), m⟩ y =
      (⟨0, content, (x.toNat * 256 + y.toNat : Nat), m⟩, []) := by
    rw [← lor_byte]
    rfl
  rw [feed_cons_live hb]
  exact .inr (hl.imp_right Int.natCast_pos.mpr)

end Header

theorem framesDone_iff :
    framesDone ⟨k, c, p, m⟩ = true ↔ c ≤ 0 ∧ p ≤ 0 ∧ m ≠ 0 := decide_eq_true_iff

theorem high_le_zero_iff (h : n ≤ 65535) :
    (((UInt8.ofNat ((UInt16.ofNat n).toNat / 256)).toNat <<< 8 : Nat) : Int) ≤ 0 ↔ n < 256 := by
  simp only [UInt16.toNat_ofNat', UInt8.toNat_ofNat']
  omega

variable {w : Bytes}

theorem framesDone_part (hs : AtStart s) {b : Block} {cmd : UInt8}
    {c : Bytes} (hcu : c ++ w = b.bytes cmd) (hw : w ≠ []) :
    (framesDone (machine.feed s c).1 = true ↔ cmd ≠ 0 ∧ b.LooksDone c.length) ∧
      (c ≠ [] → (machine.feed s c).1.currentCommand = cmd.toNat) := by
  obtain ⟨k, content, pad, cu⟩ := s
  obtain ⟨rfl, hc, hp, rfl⟩ := hs
  dsimp only at hc hp
  have hcl := b.content_le
  have hpl := b.padding_le
  have hn : (cmd.toNat : Int) ≠ 0 ↔ cmd ≠ 0 := by
    rw [Ne, Int.natCast_eq_zero, ← UInt8.toNat_zero, UInt8.toNat_inj]
  have he : (b.content.length : Int) ≤ 0 ↔ b.content.length = 0 := by omega
  have hl := toNat_be16 hcl
  have hwi : b.bytes cmd = cmd :: UInt8.ofNat ((UInt16.ofNat b.content.length).toNat / 256) ::
      UInt8.ofNat (UInt16.ofNat b.content.length).toNat ::
      UInt8.ofNat ((UInt16.ofNat b.padding.length).toNat / 256) ::
      UInt8.ofNat (UInt16.ofNat b.padding.length).toNat :: (b.content ++ b.padding) := by
    simp [Block.bytes, paddedBlock, be16]
  rw [hwi] at hcu
  rcases c with _ | ⟨x1, _ | ⟨x2, _ | ⟨x3, _ | ⟨x4, _ | ⟨x5, c⟩⟩⟩⟩⟩
  · simp [feed, framesDone, Block.LooksDone]
  · obtain ⟨rfl, -⟩ := List.cons.inj hcu
    rw [feed_command]
    simp only [feed, framesDone_iff, hn, hc, hp]
    simp [Block.LooksDone]
  · obtain ⟨rfl, rfl, -⟩ := hcu
    rw [feed_command, feed_content_high]
    simp only [feed, framesDone_iff, hn, high_le_zero_iff hcl, hp]
    simp [Block.LooksDone, and_comm]
  · obtain ⟨rfl, rfl, rfl, -⟩ := hcu
    rw [feed_command, feed_content_high, feed_content_low, hl]
    simp [feed, framesDone_iff, hn, hp, Block.LooksDone, and_comm]
  · obtain ⟨rfl, rfl, rfl, rfl, -⟩ := hcu
    rw [feed_command, feed_content_high, feed_content_low, feed_padding_high, hl]
    simp only [feed, framesDone_iff, hn, high_le_zero_iff hpl, he]
    simp [Block.LooksDone, and_comm, and_assoc]
  · simp only [cons_append, List.cons.injEq] at hcu
    obtain ⟨rfl, rfl, rfl, rfl, rfl, hb⟩ := hcu
    have hl' := congrArg List.length hb
    rw [length_append, length_append] at hl'
    have hpo := length_pos_iff.mpr hw
    rw [feed_command, feed_content_high, feed_content_low, feed_padding_high, hl,
      feed_padding_low _ _ _ (by rw [toNat_be16 hpl]; omega), toNat_be16 hpl]
    obtain ⟨C, P, hCP, hst⟩ := feed_body c (C := b.content.length) (P := b.padding.length)
      (m := x1.toNat) (by omega)
    rw [hst]
    simp [framesDone, Block.LooksDone]
    omega

def nextStart : DirectionState := ⟨5, 0, 0, COMMAND_PADDING_CONTINUE.toNat⟩

theorem atStart_next : AtStart nextStart := ⟨rfl, le_rfl, le_rfl, rfl⟩

def ended : DirectionState := ⟨-1, -1, -1, COMMAND_PADDING_END.toNat⟩

theorem reaches_continue (hs : s.remainingCommand = 5) (b : Block) :
    machine.Reaches s (b.bytes COMMAND_PADDING_CONTINUE) nextStart b.content := by
  have hr := reaches_paddedBlock hs COMMAND_PADDING_CONTINUE b.content_le b.padding_le
  rwa [finish_continue ⟨le_rfl, le_rfl, le_rfl⟩ rfl] at hr

theorem reaches_blocks (hs : s.remainingCommand = 5) (front : List Block)
    (last : Block) : machine.Reaches s (blocksBytes front last) ended
      (front.flatMap (·.content) ++ last.content) := by
  induction front generalizing s with
  | nil =>
    have hr := reaches_paddedBlock hs COMMAND_PADDING_END last.content_le last.padding_le
    rwa [finish_last ⟨le_rfl, le_rfl, le_rfl⟩ (by decide)] at hr
  | cons b front ih =>
    rw [blocksBytes, flatMap_cons, flatMap_cons, append_assoc, append_assoc]
    exact (reaches_continue hs b).append rfl (ih atStart_next.command)

def frontLength (front : List Block) : Nat :=
  (front.flatMap (·.bytes COMMAND_PADDING_CONTINUE)).length

theorem framesDone_blocks (hs : AtStart s) (hcu : c ++ w = blocksBytes front last) (hw : w ≠ []) :
    (framesDone (machine.feed s c).1 = true ↔
        ∃ j, last.LooksDone j ∧ c.length = frontLength front + j) ∧
      (framesDone (machine.feed s c).1 = true →
        (machine.feed s c).1.currentCommand = COMMAND_PADDING_END.toNat) := by
  induction front generalizing s c with
  | nil =>
    obtain ⟨hd, hc⟩ := framesDone_part hs hcu hw
    have hi : framesDone (machine.feed s c).1 = true ↔
        ∃ j, last.LooksDone j ∧ c.length = frontLength [] + j := by
      rw [hd]
      constructor
      · rintro ⟨-, h⟩
        exact ⟨c.length, h, (zero_add _).symm⟩
      · rintro ⟨j, h, hj⟩
        obtain rfl : c.length = j := by rw [hj]; exact zero_add j
        exact ⟨by decide, h⟩
    refine ⟨hi, fun h => hc ?_⟩
    rintro rfl
    obtain ⟨j, hj, hl⟩ := hi.mp h
    obtain rfl : 0 = j := by simpa [frontLength] using hl
    exact hj
  | cons b front ih =>
    rw [blocksBytes, flatMap_cons, append_assoc, ← blocksBytes] at hcu
    have hf : frontLength (b :: front) =
        (b.bytes COMMAND_PADDING_CONTINUE).length + frontLength front := by
      rw [frontLength, flatMap_cons, length_append, frontLength]
    rcases append_eq_append_cases hcu with ⟨w', hw', hp, -⟩ | ⟨c', rfl, hc'⟩
    · -- inside a block that goes on
      obtain ⟨hd, -⟩ := framesDone_part hs hp.symm hw'
      have hn : ¬framesDone (machine.feed s c).1 = true := fun h => (hd.mp h).1 rfl
      refine ⟨⟨fun h => absurd h hn, ?_⟩, fun h => absurd h hn⟩
      rintro ⟨j, -, hj⟩
      have hpos := length_pos_iff.mpr hw'
      rw [hp, length_append] at hf
      omega
    · -- behind it, at the start of the next one
      have hst : (machine.feed s (b.bytes COMMAND_PADDING_CONTINUE ++ c')).1 =
          (machine.feed nextStart c').1 := by
        rw [(reaches_continue hs.command b).feed_append]
        rfl
      obtain ⟨hd, hc⟩ := ih atStart_next hc'.symm
      rw [hst]
      refine ⟨hd.trans (exists_congr fun j => and_congr_right fun _ => ?_), hc⟩
      rw [length_append, hf]
      omega

/-- What is delivered of the pieces in padding mode, as long as it is left with `End`. -/
def deliveries (userUuid : Bytes) : DirectionState → List Bytes → Option Bytes
  | _, [] => some []
  | s, piece :: pieces => do
    let (s, out) ← xtlsUnpadding piece.length userUuid s piece
    if framesDone s then
      if s.currentCommand = COMMAND_PADDING_END.toNat then some (out ++ pieces.flatten) else none
    else (deliveries userUuid s pieces).map (out ++ ·)

variable {userUuid : Bytes}

theorem deliveries_cons (h : xtlsUnpadding pc.length userUuid s pc = some r) :
    deliveries userUuid s (pc :: pieces) = if framesDone r.1 then
        if r.1.currentCommand = COMMAND_PADDING_END.toNat then some (r.2 ++ pieces.flatten)
        else none else (deliveries userUuid r.1 pieces).map (r.2 ++ ·) := by
  rw [deliveries, h]
  rfl

theorem length_readByte (s : DirectionState) (data : UInt8) : (s.readByte data).2.length ≤ 1 ∧
      (0 < s.remainingCommand → (s.readByte data).2.length = 0) := by
  unfold readByte
  split
  · simp
  · rename_i h
    refine ⟨?_, fun h' => absurd h' h⟩
    split <;> simp

theorem length_feed (s : DirectionState) (c : Bytes) : (machine.feed s c).2.length ≤ c.length := by
  induction c generalizing s with
  | nil => exact le_refl 0
  | cons data c ih =>
    have hb : (machine.step s data).2.length ≤ 1 := (length_readByte s data).1
    have hrest := ih (machine.step s data).1
    rw [feed]
    cases machine.halted (machine.step s data).1 with
    | true =>
      rw [if_pos rfl, length_append, length_cons]
      omega
    | false =>
      rw [if_neg Bool.false_ne_true, length_append, length_cons]
      omega

theorem length_of_reaches (h : machine.Reaches s w s' out) :
    out.length ≤ w.length ∧ (0 < s.remainingCommand → out.length < w.length) := by
  induction h with
  | last s data =>
    obtain ⟨hle, hz⟩ := length_readByte s data
    exact ⟨hle, fun h => lt_of_le_of_lt (hz h).le one_pos⟩
  | @more s data rest s' out hs _ ih =>
    obtain ⟨hle, hz⟩ := length_readByte s data
    rw [length_append, length_cons]
    change (s.readByte data).2.length + out.length ≤ _ ∧
      (_ → (s.readByte data).2.length + out.length < _)
    refine ⟨by omega, fun h => ?_⟩
    omega

section Blocks

variable {s : DirectionState} {front : List Block} {last : Block} {c w further : Bytes}

theorem live_part (hs : AtStart s) (hc : c ++ w = blocksBytes front last) (hw : w ≠ []) :
    (machine.feed s c).1.Live ∧ ∃ out, machine.Reaches (machine.feed s c).1 w ended out ∧
      front.flatMap (·.content) ++ last.content = (machine.feed s c).2 ++ out := by
  have hl : s.Live := .inl (by rw [hs.command]; decide)
  have hr := reaches_blocks hs.command front last
  rw [← hc] at hr
  obtain ⟨hru, out, hrest, ho⟩ := hr.feed_part hw hl.running
  exact ⟨feed_invariant live_step hl c hru, out, hrest, ho⟩

def EndsEarly (front : List Block) (last : Block) (start : Nat) (pieces : List Bytes) : Prop :=
  ∃ k j, last.LooksDone j ∧ start + (pieces.take k).flatten.length = frontLength front + j

theorem Block.LooksDone.lt {b : Block} {j : Nat} (h : b.LooksDone j) : j < 5 := by
  match j with
  | 0 | 1 | 2 | 3 | 4 => decide
  | j + 5 => exact h.elim

theorem length_blocksBytes (front : List Block) (last : Block) : (blocksBytes front last).length =
      frontLength front + (last.bytes COMMAND_PADDING_END).length := by
  rw [blocksBytes, length_append, frontLength]

theorem endsEarly_cons (hn : ∀ j, last.LooksDone j → start ≠ frontLength front + j) :
    EndsEarly front last start (pc :: pieces) ↔
      EndsEarly front last (start + pc.length) pieces := by
  constructor
  · rintro ⟨k, j, hj, hl⟩
    cases k with
    | zero => exact absurd (by simpa using hl) (hn j hj)
    | succ k =>
      refine ⟨k, j, hj, ?_⟩
      simpa [add_assoc] using hl
  · rintro ⟨k, j, hj, hl⟩
    refine ⟨k + 1, j, hj, ?_⟩
    simpa [add_assoc] using hl

theorem framesDone.in_header (hl : s.Live) (hd : framesDone s = true) : 0 < s.remainingCommand := by
  obtain ⟨hc, hp, -⟩ := framesDone_iff.mp hd
  rcases hl with h | h | h
  · exact h
  · exact absurd h (Int.not_lt.mpr hc)
  · exact absurd h (Int.not_lt.mpr hp)

theorem early_too_long (hs : AtStart s) (hc : c ++ w = blocksBytes front last) (hw : w ≠ [])
    (he : framesDone (machine.feed s c).1 = true) (further : Bytes) :
    (front.flatMap (·.content) ++ last.content ++ further).length <
      ((machine.feed s c).2 ++ (w ++ further)).length := by
  obtain ⟨hl, out, hrest, ho⟩ := live_part hs hc hw
  have hless := (length_of_reaches hrest).2 (framesDone.in_header hl he)
  rw [ho]
  simp
  omega

theorem deliveries_last (hs : AtStart s) (hc : c ++ w = blocksBytes front last) (hw : w ≠ [])
    (hsm : (w ++ q).length < 2 ^ 31) (uuid : Bytes) (ps : List Bytes) :
    ∃ out, front.flatMap (·.content) ++ last.content = (machine.feed s c).2 ++ out ∧
      out.length ≤ w.length ∧ deliveries uuid (machine.feed s c).1 ((w ++ q) :: ps) =
        some (out ++ (q ++ ps.flatten)) := by
  obtain ⟨hl, out, hrest, ho⟩ := live_part hs hc hw
  refine ⟨out, ho, (length_of_reaches hrest).1, ?_⟩
  have hf : machine.feed (machine.feed s c).1 (w ++ q) = (ended, out ++ q) := by
    rw [hrest.feed_append]
    rfl
  have hst := xtlsUnpadding_live hl hsm le_rfl uuid
  rw [deliveries_cons hst, hf]
  have hd : framesDone ended = true := by decide
  rw [if_pos hd, append_assoc]
  rfl

theorem deliveries_blocks (hs : AtStart s) (uuid : Bytes) {ps : List Bytes}
    (hcu : c ++ w = blocksBytes front last) (hw : w ≠ [])
    (hy : framesDone (machine.feed s c).1 = false) (hpi : ps.flatten = w ++ further)
    (hsm : ∀ piece ∈ ps, piece.length < 2 ^ 31) :
    ∃ all, deliveries uuid (machine.feed s c).1 ps = some all ∧ all.length ≤ ps.flatten.length ∧
      ((machine.feed s c).2 ++ all = front.flatMap (·.content) ++ last.content ++ further ↔
        ¬EndsEarly front last c.length ps) := by
  induction ps generalizing c w with
  | nil =>
    rw [flatten_nil, eq_comm, append_eq_nil_iff] at hpi
    exact absurd hpi.1 hw
  | cons piece ps ih =>
    rw [flatten_cons] at hpi
    have hn (j : Nat) (hj : last.LooksDone j) : c.length ≠ frontLength front + j := by
      intro h
      have hd := (framesDone_blocks hs hcu hw).1.mpr ⟨j, hj, h⟩
      rw [hy] at hd
      cases hd
    rw [endsEarly_cons hn, flatten_cons, length_append]
    rcases append_eq_append_cases hpi with ⟨w', hw', rfl, hps⟩ | ⟨q, rfl, rfl⟩
    · -- the piece ends inside the blocks
      have hr := reaches_blocks hs.command front last
      rw [← hcu] at hr
      obtain ⟨hst, hso⟩ := Prod.ext_iff.mp (hr.feed_part_append hw piece)
      have hli := (live_part hs hcu hw).1
      have hse := xtlsUnpadding_live hli (hsm piece mem_cons_self) le_rfl uuid
      have hlen := length_feed (machine.feed s c).1 piece
      rw [← append_assoc] at hcu
      obtain ⟨hd, hc⟩ := framesDone_blocks hs hcu hw'
      dsimp only at hst hso
      rw [deliveries_cons hse, ← hst]
      by_cases he : framesDone (machine.feed s (c ++ piece)).1 = true
      · rw [if_pos he, if_pos (hc he)]
        refine ⟨_, rfl, by rw [length_append]; omega, iff_of_false ?_ (not_not.mpr ?_)⟩
        · intro heq
          have hl := early_too_long hs hcu hw' he further
          rw [← heq, hso, hps, append_assoc] at hl
          exact lt_irrefl _ hl
        · obtain ⟨j, hj, hln⟩ := hd.mp he
          refine ⟨0, j, hj, ?_⟩
          simpa using hln
      · rw [if_neg he]
        obtain ⟨all, hall, hle, hi⟩ := ih hcu hw' (Bool.eq_false_iff.mpr he) hps
          (forall_mem_cons.mp hsm).2
        rw [hall]
        refine ⟨_, rfl, by rw [length_append]; omega, ?_⟩
        rw [← append_assoc, ← hso, hi, length_append]
    · -- the blocks end in the piece
      obtain ⟨out, ho, hle, hall⟩ := deliveries_last hs hcu hw (hsm _ mem_cons_self) uuid ps
      refine ⟨_, hall, by simp only [length_append]; omega, iff_of_true ?_ ?_⟩
      · rw [ho, append_assoc]
      rintro ⟨k, j, hj, hln⟩
      have hlt := hj.lt
      have hb := length_blocksBytes front last
      rw [last.length_bytes, ← hcu, length_append] at hb
      rw [length_append] at hln
      omega

end Blocks

def Poll.bytes : Poll Bytes → Bytes
  | .ready bytes => bytes
  | _ => []

def readCalls (conn : VisionConn) (inner raw : List Arrival) : List Nat → Option Bytes
  | [] => some []
  | room :: rooms => do
    let step ← conn.pollRead room inner raw
    (readCalls step.conn step.inner step.raw rooms).map (step.result.bytes ++ ·)

def piecesOf (source : List Arrival) : List Bytes :=
  source.filterMap fun
    | .piece bytes => some bytes
    | _ => none

def Steady (source : List Arrival) : Prop :=
  Arrival.failed ∉ source ∧ ∀ piece ∈ piecesOf source, piece ≠ [] ∧ piece.length ≤ READ_TMP

theorem flatten_piecesOf (source : List Arrival) : (piecesOf source).flatten = contents source := by
  induction source with
  | nil => rfl
  | cons a source ih =>
    cases a with
    | pending | failed => exact ih
    | piece b => exact congrArg (b ++ ·) ih

def Expects (conn : VisionConn) (inner : List Arrival) (rest : Bytes) : Prop :=
  conn.rawFallback = none ∧ if conn.downlinkPadding then
      deliveries conn.userUuid conn.downlinkState (piecesOf inner) = some rest
    else contents inner = rest

def ahead (conn : VisionConn) (inner : List Arrival) (rest : Bytes) : Nat :=
  inner.length + (conn.downlinkPending ++ rest).length

structure Returns (conn : VisionConn) (inner : List Arrival) (rest : Bytes) (step : ReadStep) :
    Prop where
  steady : Steady step.inner
  next : ∃ rest', Expects step.conn step.inner rest' ∧
    conn.downlinkPending ++ rest = step.result.bytes ++ (step.conn.downlinkPending ++ rest') ∧
    ahead step.conn step.inner rest' ≤ ahead conn inner rest - 1

theorem Steady.tail (h : Steady (arr :: source)) : Steady source := by
  refine ⟨fun hm => h.1 (mem_cons_of_mem _ hm), fun piece hp => h.2 piece ?_⟩
  cases arr with
  | pending | failed => exact hp
  | piece bytes => exact mem_cons_of_mem _ hp

theorem Steady.readUpTo (h : Steady src) (hroom : 0 < room) : Steady (readUpTo room src).2 := by
  cases src with
  | nil => exact h
  | cons arr src =>
    cases arr with
    | pending | failed => exact h.tail
    | piece bytes =>
      obtain ⟨-, hle⟩ := h.2 bytes mem_cons_self
      rw [Lib.readUpTo]
      split
      · exact h.tail
      rename_i hl
      refine ⟨fun hm => h.tail.1 (mem_of_ne_of_mem (by simp) hm), ?_⟩
      intro piece hp
      rcases mem_cons.mp hp with rfl | hp
      · rw [← length_pos_iff, length_drop]
        omega
      · exact h.tail.2 piece hp

theorem unpadPiece_eq {conn : VisionConn} {piece : Bytes}
    (h : xtlsUnpadding piece.length conn.userUuid conn.downlinkState piece = some (s, out))
    (he : framesDone s = true → s.currentCommand = COMMAND_PADDING_END.toNat) :
    ∃ conn' events, conn.unpadPiece piece = some (conn', events) ∧
      conn'.userUuid = conn.userUuid ∧ conn'.downlinkState = s ∧ conn'.downlinkPending = out ∧
      conn'.rawFallback = conn.rawFallback ∧
      conn'.downlinkPadding = (conn.downlinkPadding && !framesDone s) := by
  rw [unpadPiece, h]
  simp only [Option.bind_eq_bind, Option.bind_some, leavePadding]
  by_cases hd : framesDone s = true
  · rw [if_pos hd, if_pos (he hd)]
    split <;> exact ⟨_, _, rfl, rfl, rfl, rfl, rfl, by simp [hd]⟩
  · rw [if_neg hd]
    split <;> exact ⟨_, _, rfl, rfl, rfl, rfl, rfl, by simp [hd]⟩

section PollRead

variable {conn : VisionConn} {room : Nat} {inner : List Arrival} {rest : Bytes}

theorem returns_pending (hp : conn.downlinkPending ≠ []) (hroom : 0 < room)
    (hi : Steady inner) (he : Expects conn inner rest) (raw : List Arrival) :
    ∃ step, conn.pollRead room inner raw = some step ∧ Returns conn inner rest step := by
  have hl := length_pos_iff.mpr hp
  refine ⟨_, pollRead_of_pending hp, hi, rest, he, ?_, ?_⟩
  · simp [Poll.bytes, ← append_assoc]
  · simp [ahead]
    omega

theorem returns_plain (hp : conn.downlinkPending = []) (hpl : conn.downlinkPadding = false)
    (hroom : 0 < room) (hi : Steady inner) (he : Expects conn inner rest) (raw : List Arrival) :
    ∃ step, conn.pollRead room inner raw = some step ∧ Returns conn inner rest step := by
  obtain ⟨hr, hrest⟩ := he
  simp only [hpl, Bool.false_eq_true, if_false] at hrest
  subst hrest
  have he (source : List Arrival) : Expects conn source (contents source) := by
    refine ⟨hr, ?_⟩
    simp [hpl]
  refine ⟨_, pollRead_of_inner hp hpl hr, hi.readUpTo hroom, _, he _, ?_⟩
  rw [hp]
  cases inner with
  | nil => simp [readUpTo, ofArrival, Poll.bytes, ahead, hp]
  | cons a inner =>
    cases a with
    | failed => exact absurd mem_cons_self hi.1
    | pending => simp [readUpTo, ofArrival, Poll.bytes, ahead]
    | piece bytes =>
      rw [readUpTo]
      split
      · simp only [ahead, ofArrival, Poll.bytes, contents_piece, length_append, length_cons]
        exact ⟨rfl, by omega⟩
      · simp only [ahead, ofArrival, Poll.bytes, contents_piece, length_append,
          length_cons, length_drop, hp, nil_append]
        exact ⟨by rw [← append_assoc, take_append_drop], by omega⟩

theorem expects_piece {piece : Bytes} (hp : conn.downlinkPadding = true)
    (he : Expects conn (.piece piece :: inner) rest) :
    ∃ conn' evs rest', conn.unpadPiece piece = some (conn', evs) ∧
      Expects conn' inner rest' ∧ rest = conn'.downlinkPending ++ rest' := by
  obtain ⟨hr, hrest⟩ := he
  rw [if_pos hp] at hrest
  change deliveries conn.userUuid conn.downlinkState (piece :: piecesOf inner) = some rest at hrest
  cases hs : xtlsUnpadding piece.length conn.userUuid conn.downlinkState piece with
  | none =>
    rw [deliveries, hs] at hrest
    cases hrest
  | some r =>
    obtain ⟨s, out⟩ := r
    rw [deliveries_cons hs] at hrest
    by_cases hd : framesDone s = true
    · rw [if_pos hd] at hrest
      by_cases hen : s.currentCommand = COMMAND_PADDING_END.toNat
      · rw [if_pos hen] at hrest
        cases hrest
        obtain ⟨conn', evs, hu, -, -, ho, hr', hm⟩ := unpadPiece_eq hs fun _ => hen
        refine ⟨conn', evs, (piecesOf inner).flatten, hu, ⟨hr'.trans hr, ?_⟩, ?_⟩
        · simp [hm, hd, flatten_piecesOf]
        · rw [ho]
      · rw [if_neg hen] at hrest
        cases hrest
    · rw [if_neg hd] at hrest
      obtain ⟨rest', hrest', rfl⟩ := Option.map_eq_some_iff.mp hrest
      obtain ⟨conn', evs, hu, huu, hst, ho, hr', hm⟩ := unpadPiece_eq hs fun h => absurd h hd
      refine ⟨conn', evs, rest', hu, ⟨hr'.trans hr, ?_⟩, by rw [ho]⟩
      rw [if_pos (by simp [hm, hd, hp]), huu, hst, hrest']

theorem pollRead_returns (hroom : 0 < room) (hi : Steady inner)
    (he : Expects conn inner rest) (raw : List Arrival) :
    ∃ step, conn.pollRead room inner raw = some step ∧ Returns conn inner rest step := by
  -- along the arrivals: in padding mode a piece may hold no content
  induction inner generalizing conn rest with
  | nil =>
    by_cases hp : conn.downlinkPending = []
    · by_cases hpl : conn.downlinkPadding = false
      · exact returns_plain hp hpl hroom hi he raw
      have hpa := Bool.of_not_eq_false hpl
      have hrest := he.2
      rw [if_pos hpa] at hrest
      cases hrest
      refine ⟨_, pollRead_at_end hp hpa, hi, [], he, rfl, ?_⟩
      simp [ahead, hp]
    · exact returns_pending hp hroom hi he raw
  | cons arr inner ih =>
    by_cases hp : conn.downlinkPending = []
    · by_cases hpl : conn.downlinkPadding = false
      · exact returns_plain hp hpl hroom hi he raw
      have hpa := Bool.of_not_eq_false hpl
      cases arr with
      | failed => exact absurd mem_cons_self hi.1
      | pending =>
        refine ⟨_, pollRead_waits hp hpa, hi.tail, rest, he, rfl, ?_⟩
        simp [ahead]
      | piece piece =>
        obtain ⟨hne, hle⟩ := hi.2 piece mem_cons_self
        obtain ⟨conn', events, rest', hu, he', rfl⟩ := expects_piece hpa he
        obtain ⟨step, hs, hr⟩ := ih hi.tail he'
        obtain ⟨rest'', he'', hb, hless⟩ := hr.next
        refine ⟨{ step with events := .read .inner :: events ++ step.events }, ?_,
          hr.steady, rest'', he'', ?_, ?_⟩
        · rw [pollRead_piece hp hpa hne hle, hu, Option.bind_some, hs]
          rfl
        · rw [hp]
          exact hb
        · simp only [ahead, length_cons, hp, nil_append] at hless ⊢
          omega
    · exact returns_pending hp hroom hi he raw

end PollRead

theorem readCalls_eq (hro : ∀ room ∈ rooms, 0 < room) (hi : Steady inn)
    (hex : Expects conn inn rest) (he : ahead conn inn rest ≤ rooms.length) :
    readCalls conn inn raw rooms = some (conn.downlinkPending ++ rest) := by
  induction rooms generalizing conn inn raw rest with
  | nil =>
    have hn : conn.downlinkPending ++ rest = [] := by
      refine length_eq_zero_iff.mp ?_
      rw [ahead, length_nil] at he
      omega
    rw [hn]
    rfl
  | cons room rooms ih =>
    obtain ⟨step, hs, hre⟩ := pollRead_returns (hro room mem_cons_self) hi hex raw
    obtain ⟨rest', he', hb, hless⟩ := hre.next
    rw [length_cons] at he
    have hrest : readCalls step.conn step.inner step.raw rooms =
        some (step.conn.downlinkPending ++ rest') :=
      ih (forall_mem_cons.mp hro).2 hre.steady he' (by omega)
    rw [readCalls, hs, hb, Option.bind_eq_bind, Option.bind_some, hrest]
    rfl

/-- A connection that has read nothing, and whose write side has not gone over to the raw
socket. -/
structure Unread (conn : VisionConn) : Prop where
  uuid : conn.userUuid.length = 16
  state : conn.downlinkState = ⟨-1, -1, -1, 0⟩
  pending : conn.downlinkPending = []
  padding : conn.downlinkPadding = true
  raw : conn.rawFallback = none

theorem unread_new (h : userUuid.length = 16)
    (innerRawTcp : Option TcpStream) : Unread (.new userUuid innerRawTcp) :=
  ⟨h, rfl, rfl, rfl, rfl⟩

theorem deliveries_first (hu : userUuid.length = 16)
    (hb : 5 ≤ buf.length) (hs : buf.length < 2 ^ 31) (ps : List Bytes) :
    deliveries userUuid ⟨-1, -1, -1, 0⟩ ((userUuid ++ buf) :: ps) =
      deliveries userUuid ⟨5, -1, -1, 0⟩ (buf :: ps) := by
  have hl : Live ⟨5, -1, -1, 0⟩ := .inl (by decide)
  have hrest := xtlsUnpadding_live hl hs le_rfl userUuid
  have hf : xtlsUnpadding (userUuid ++ buf).length userUuid ⟨-1, -1, -1, 0⟩ (userUuid ++ buf) =
      some (machine.feed ⟨5, -1, -1, 0⟩ buf) := by
    have hm : (userUuid ++ buf).length ≥ 21 ∧ userUuid.length = 16 ∧
        (userUuid ++ buf).take 16 = userUuid := by
      refine ⟨?_, hu, take_left' hu⟩
      rw [length_append]
      omega
    rw [xtlsUnpadding, if_pos ⟨rfl, rfl, rfl⟩, if_pos hm, drop_left' hu]
    exact hl.loop hs (by rw [length_append]; omega)
  rw [deliveries_cons hf, deliveries_cons hrest]

def CutEarly (front : List Block) (last : Block) (pieces : List Bytes) : Prop :=
  ∃ k j, last.LooksDone j ∧ (pieces.take k).flatten.length = 16 + frontLength front + j

theorem Block.LooksDone.pos {b : Block} {j : Nat} (h : b.LooksDone j) : 0 < j := by
  cases j with
  | zero => exact h.elim
  | succ j => exact Nat.succ_pos j

theorem cutEarly_iff {front : List Block} {last : Block} {buf : Bytes}
    (hu : userUuid.length = 16) (ps : List Bytes) :
    CutEarly front last ((userUuid ++ buf) :: ps) ↔ EndsEarly front last 0 (buf :: ps) := by
  refine exists_congr fun k => exists_congr fun j => and_congr_right fun hj => ?_
  have := hj.pos
  cases k with
  | zero => simp; omega
  | succ k =>
    simp
    omega

/-- Calls that are enough for what there is return the contents and what is behind the blocks
exactly if no piece ends where the last block looks complete. -/
theorem reads_contents_iff {conn : VisionConn} (hconn : Unread conn) {front : List Block}
    {last : Block} {further : Bytes} {inner raw : List Arrival} (hinner : Steady inner)
    (hstream : contents inner = conn.userUuid ++ blocksBytes front last ++ further)
    (hfirst : ∀ piece ∈ (piecesOf inner).head?, 21 ≤ piece.length) {rooms : List Nat}
    (hrooms : ∀ room ∈ rooms, 0 < room) (henough : backlog inner ≤ rooms.length) :
    readCalls conn inner raw rooms = some (front.flatMap (·.content) ++ last.content ++ further) ↔
      ¬CutEarly front last (piecesOf inner) := by
  have hsmall : ∀ piece ∈ piecesOf inner, piece.length < 2 ^ 31 := fun piece hpiece =>
    lt_of_le_of_lt (hinner.2 piece hpiece).2 (by decide)
  have hflatten := flatten_piecesOf inner
  rw [hstream, append_assoc] at hflatten
  have hexpects (rest : Bytes)
      (h : deliveries conn.userUuid ⟨-1, -1, -1, 0⟩ (piecesOf inner) = some rest) :
      Expects conn inner rest := by
    refine ⟨hconn.raw, ?_⟩
    rwa [if_pos hconn.padding, hconn.state]
  cases hpieces : piecesOf inner with
  | nil =>
    rw [hpieces, flatten_nil, eq_comm, append_eq_nil_iff] at hflatten
    have huuid := hconn.uuid
    rw [hflatten.1] at huuid
    cases huuid
  | cons piece pieces =>
    rw [hpieces] at hfirst hsmall hflatten hexpects
    have hlong := hfirst piece rfl
    rw [flatten_cons] at hflatten
    obtain ⟨buf, rfl⟩ : conn.userUuid <+: piece :=
      prefix_of_prefix_length_le ⟨_, hflatten.symm⟩ (prefix_append _ _) (by rw [hconn.uuid]; omega)
    rw [append_assoc, append_cancel_left_eq] at hflatten
    have hbuf : 5 ≤ buf.length := by
      rw [length_append, hconn.uuid] at hlong
      omega
    have hsmall' : ∀ p ∈ buf :: pieces, p.length < 2 ^ 31 := by
      rw [forall_mem_cons, length_append] at hsmall
      rw [forall_mem_cons]
      exact ⟨by omega, hsmall.2⟩
    have hstart : AtStart ⟨5, -1, -1, 0⟩ := ⟨rfl, by decide, by decide, rfl⟩
    rw [← flatten_cons] at hflatten
    have hne : blocksBytes front last ≠ [] := (reaches_blocks hstart.command front last).ne_nil
    obtain ⟨all, hall, hle, hiff⟩ := deliveries_blocks hstart conn.userUuid (c := [])
      (nil_append _) hne (by decide) hflatten hsmall'
    have hreads : readCalls conn inner raw rooms = some (conn.downlinkPending ++ all) := by
      refine readCalls_eq hrooms hinner (hexpects all ?_) ?_
      · rw [deliveries_first hconn.uuid hbuf (hsmall' buf mem_cons_self)]
        exact hall
      rw [hflatten] at hle
      rw [backlog, hstream] at henough
      rw [ahead, hconn.pending, nil_append]
      simp only [length_append] at henough hle
      omega
    rw [hreads, hconn.pending, nil_append, Option.some.injEq, cutEarly_iff hconn.uuid]
    exact hiff

theorem singleton_le (b : UInt8) : [b].length ≤ 65535 := by simp

def byteBlock (content padding : UInt8) : Block :=
  ⟨[content], [padding], singleton_le content, singleton_le padding⟩

def inTwoPieces : List Arrival :=
  [.piece (someUuid ++ [0, 0, 1, 0, 1, 97, 0]), .pending, .piece [1, 0, 1, 0, 1, 99, 0, 122]]

theorem not_cutEarly_inTwoPieces :
    ¬CutEarly [byteBlock 97 0] (byteBlock 99 0) (piecesOf inTwoPieces) := by
  rintro ⟨k, j, hj, hl⟩
  have hlt := hj.lt
  have hp := hj.pos
  have hf : frontLength [byteBlock 97 0] = 7 := by decide +kernel
  cases k with
  | zero => exact absurd hl (by simp; omega)
  | succ k =>
    cases k with
    | zero =>
      have h23 : 23 = 16 + 7 + j := hl
      omega
    | succ k =>
      have h31 : (someUuid ++ [0, 0, 1, 0, 1, 97, 0] ++
          ([1, 0, 1, 0, 1, 99, 0, 122] ++ (List.take k []).flatten)).length = 16 + 7 + j := hl
      simp [someUuid] at h31
      omega

theorem reads_contents_inTwoPieces : contents inTwoPieces =
        someUuid ++ blocksBytes [byteBlock 97 0] (byteBlock 99 0) ++ [122] ∧
      readCalls (.new someUuid none) inTwoPieces [] (List.replicate 34 1) = some [97, 99, 122] := by
  have hstream : contents inTwoPieces =
      someUuid ++ blocksBytes [byteBlock 97 0] (byteBlock 99 0) ++ [122] := by decide +kernel
  have hsteady : Steady inTwoPieces := ⟨by decide +kernel, by decide +kernel⟩
  refine ⟨hstream, (reads_contents_iff (unread_new rfl none) hsteady hstream ?_ ?_ ?_).mpr
    not_cutEarly_inTwoPieces⟩
  · decide +kernel
  · decide
  · decide +kernel

/-- A read that ends behind the command of the `End` block ends the padding: the rest of the
block arrives as data. -/
theorem header_delivered :
    contents [.piece (someUuid ++ [0, 0, 1, 0, 1, 97, 0, 1]), .piece [0, 1, 0, 1, 99, 0, 122]] =
        someUuid ++ blocksBytes [byteBlock 97 0] (byteBlock 99 0) ++ [122] ∧
      readCalls (.new someUuid none)
          [.piece (someUuid ++ [0, 0, 1, 0, 1, 97, 0, 1]), .piece [0, 1, 0, 1, 99, 0, 122]] []
          [100, 100, 100] = some [97, 0, 1, 0, 1, 99, 0, 122] := by
  decide +kernel

end XrayCore.Vless.Vision
