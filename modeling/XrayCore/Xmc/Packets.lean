import XrayCore.Lib.BigEndian

/-!
# Minecraft packets

A packet is its length, its id and its data; both numbers are `i32` in base 128, of at most five
bytes. `varint_size` and `write_varint` shift a number to the right until it is zero, which a
negative number never is: it stays at -1. So the loops have fuel here, and end when some is enough.
-/

namespace XrayCore.Xmc

open Lib List

inductive XmcError
  | eof
  | varintTooLarge
  | lengthUnderflow
  | badDataLength (n : Int)
  | badRecordLength (n : Int)
  | badTurnLength (n : Int)
  deriving DecidableEq

inductive Outcome (α : Type)
  | done (a : α) (rest : Bytes)
  | error (e : XmcError) (rest : Bytes)
  | overflow
  deriving DecidableEq

def Outcome.andThen (o : Outcome α) (f : α → Bytes → Option (Outcome β)) : Option (Outcome β) :=
  match o with
  | .done a rest => f a rest
  | .error e rest => some (.error e rest)
  | .overflow => some .overflow

def asI32 (n : Nat) : Int := (n : Int).bmod (2 ^ 32)

def readVarintLoop : Nat → Nat → Nat → Bytes → Outcome Int
  | 0, _, _, bytes => .error .varintTooLarge bytes
  | _ + 1, _, _, [] => .error .eof []
  | left + 1, position, value, b :: bytes =>
    let value := value ||| (((b &&& 0x7f).toNat <<< position) % 2 ^ 32)
    if b &&& 0x80 = 0 then .done (asI32 value) bytes
    else readVarintLoop left (position + 7) value bytes

def readVarint (bytes : Bytes) : Outcome Int := readVarintLoop 5 0 0 bytes

def varintSizeLoop : Nat → Int → Nat → Option Nat
  | 0, _, _ => none
  | fuel + 1, value, size =>
    if value >>> (7 : Nat) = 0 then some (size + 1) else varintSizeLoop fuel (value >>> (7 : Nat)) (size + 1)

def varintSize (fuel : Nat) (value : Int) : Option Nat := varintSizeLoop fuel value 0

def writeVarint : Nat → Int → Option Bytes
  | 0, _ => none
  | fuel + 1, value =>
    let b := UInt8.ofNat (value % 128).toNat
    if value >>> (7 : Nat) = 0 then some [b] else (writeVarint fuel (value >>> (7 : Nat))).map ((b ||| 0x80) :: ·)

def readExact (n : Nat) (a : α) (bytes : Bytes) : Outcome (α × Bytes) :=
  if bytes.length < n then .error .eof [] else .done (a, bytes.take n) (bytes.drop n)

def PACKET_DATA_MAX : Nat := 32 * 1024

/-- What is read behind the two numbers; the subtraction is checked in the async twin only. -/
def readData (checked : Bool) (packetLength packetId : Int) (bytes : Bytes) (idSize : Nat) :
    Option (Outcome (Int × Bytes)) :=
  let dataLength := packetLength - idSize
  if dataLength < -2 ^ 31 then some (if checked then .error .lengthUnderflow bytes else .overflow)
  else if dataLength < 0 ∨ PACKET_DATA_MAX < dataLength then
    some (.error (.badDataLength dataLength) bytes)
  else some (readExact dataLength.toNat packetId bytes)

/-- `read_packet`, and with `checked` its async twin. -/
def readPacket (checked : Bool) (fuel : Nat) (bytes : Bytes) : Option (Outcome (Int × Bytes)) :=
  (readVarint bytes).andThen fun packetLength bytes =>
    (readVarint bytes).andThen fun packetId bytes =>
      (varintSize fuel packetId).bind (readData checked packetLength packetId bytes)

def writePacket (fuel : Nat) (packetId : Int) (payload : Bytes) : Option Bytes := do
  let idSize ← varintSize fuel packetId
  let length ← writeVarint fuel (asI32 (idSize + payload.length))
  let id ← writeVarint fuel packetId
  some (length ++ id ++ payload)

def MAX_PADDING_TURN_LENGTH : Nat := 8 * 1024 * 1024

def readRecord (accepts : Int → Bool) (prefixLength recordLength : Int) (bytes : Bytes)
    (headerLength : Nat) : Option (Outcome (Unit × Bytes)) :=
  if recordLength < headerLength ∨ MAX_PADDING_TURN_LENGTH < recordLength then
    some (.error (.badRecordLength recordLength) bytes)
  else if 2 ^ 31 ≤ prefixLength + recordLength then some .overflow
  else if !accepts (prefixLength + recordLength) then
    some (.error (.badTurnLength (prefixLength + recordLength)) bytes)
  else some (readExact (recordLength - headerLength).toNat () bytes)

def readPaddingTurn (accepts : Int → Bool) (prefixLength : Int) (fuel : Nat) (bytes : Bytes) :
    Option (Outcome (Unit × Bytes)) :=
  (readVarint bytes).andThen fun recordLength bytes =>
    (varintSize fuel recordLength).bind (readRecord accepts prefixLength recordLength bytes)

def size128 (n : Nat) : Nat :=
  if n < 128 then 1 else if n < 16384 then 2 else if n < 2097152 then 3
  else if n < 268435456 then 4 else 5

theorem shiftRight_seven (n : Nat) : (n : Int) >>> (7 : Nat) = ((n / 128 : Nat) : Int) := by
  rw [Int.shiftRight_eq_div_pow]
  rfl

theorem shiftRight_neg {value : Int} (h : value < 0) : value >>> (7 : Nat) < 0 := by
  rw [Int.shiftRight_eq_div_pow]
  exact Int.ediv_lt_of_lt_mul (by decide) (by omega)

theorem varintSize_neg {value : Int} (h : value < 0) (fuel : Nat) : varintSize fuel value = none := by
  rw [varintSize]
  generalize 0 = size
  induction fuel generalizing value size with
  | zero => rfl
  | succ fuel ih => rw [varintSizeLoop, if_neg (shiftRight_neg h).ne, ih (shiftRight_neg h)]

theorem varintSize_ofNat {n : Nat} (hn : n < 2 ^ 31) (fuel : Nat) :
    varintSize (fuel + 5) n = some (size128 n) := by
  have hc (m : Nat) : ((m : Int) = 0) = (m = 0) := by simp
  simp only [varintSize, varintSizeLoop, shiftRight_seven, hc, Nat.div_div_eq_div_mul, size128]
  split_ifs <;> first | rfl | omega

theorem varintSizeLoop_mono (h : varintSizeLoop fuel value size = some n) (more : Nat) :
    varintSizeLoop (fuel + more) value size = some n := by
  induction fuel generalizing value size with
  | zero => cases h
  | succ fuel ih =>
    rw [Nat.succ_add]
    rw [varintSizeLoop] at h ⊢
    split at h
    · next hz => rwa [if_pos hz]
    · next hmore => rw [if_neg hmore, ih h]

theorem varintSize_eq_some (hlt : value < 2 ^ 31)
    (h : varintSize fuel value = some n) : 0 ≤ value ∧ n = size128 value.toNat := by
  have hp : 0 ≤ value := by
    by_contra hn
    rw [varintSize_neg (not_le.mp hn)] at h
    cases h
  obtain ⟨m, rfl⟩ := Int.eq_ofNat_of_zero_le hp
  have hmore := varintSize_ofNat (n := m) (by omega) fuel
  rw [varintSize, add_comm] at hmore
  have hm := varintSizeLoop_mono h 5
  rw [add_comm, hmore] at hm
  exact ⟨hp, (Option.some.inj hm).symm⟩

def Outcome.rest : Outcome α → Option Bytes
  | .done _ rest => some rest
  | .error _ rest => some rest
  | .overflow => none

theorem rest_readVarintLoop (left position value : Nat) (bytes : Bytes) :
    ∃ rest, (readVarintLoop left position value bytes).rest = some rest ∧
      bytes.length ≤ rest.length + left := by
  fun_induction readVarintLoop left position value bytes with
  | case1 => exact ⟨_, rfl, le_rfl⟩
  | case2 => exact ⟨[], rfl, by simp⟩
  | case3 => exact ⟨_, rfl, by simp⟩
  | case4 left position value b bytes v' hmore ih =>
    obtain ⟨rest, hrest, hle⟩ := ih
    exact ⟨rest, hrest, by rw [length_cons]; omega⟩

theorem asI32_range (n : Nat) : -2 ^ 31 ≤ asI32 n ∧ asI32 n < 2 ^ 31 := by
  unfold asI32
  rw [Int.bmod_def]
  split_ifs <;> omega

theorem asI32_of_lt (h : n < 2 ^ 31) : asI32 n = n := by
  unfold asI32
  rw [Int.bmod_def]
  split_ifs <;> omega

theorem readVarintLoop_i32
    (h : readVarintLoop left position value bytes = .done v rest) : -2 ^ 31 ≤ v ∧ v < 2 ^ 31 := by
  fun_induction readVarintLoop left position value bytes with
  | case1 | case2 => cases h
  | case3 left position value b bytes va' =>
    rw [Outcome.done.injEq] at h
    rw [← h.1]
    exact asI32_range va'
  | case4 left position value b bytes va' hmore ih => exact ih h

theorem digit_bits : ∀ m < 128, (UInt8.ofNat m &&& 0x80 = 0 ∧ (UInt8.ofNat m &&& 0x7f).toNat = m) ∧
    (UInt8.ofNat m ||| 0x80) &&& 0x80 ≠ 0 ∧ ((UInt8.ofNat m ||| 0x80) &&& 0x7f).toNat = m := by
  decide

theorem or_digit (hv : value < 2 ^ position) (hm : value + m * 2 ^ position < 2 ^ 32) :
    value ||| ((m <<< position) % 2 ^ 32) = value + m * 2 ^ position := by
  rw [Nat.mod_eq_of_lt (by rw [Nat.shiftLeft_eq]; omega), Nat.or_comm,
    ← Nat.shiftLeft_add_eq_or_of_lt hv, Nat.shiftLeft_eq, add_comm]

theorem readVarintLoop_writeVarint (left n position value : Nat) (hn : n < 128 ^ (left + 1))
    (hv : value < 2 ^ position) (hfits : value + n * 2 ^ position < 2 ^ 32) :
    ∃ w, (∀ fuel, writeVarint (fuel + (left + 1)) n = some w) ∧
      ∀ rest, readVarintLoop (left + 1) position value (w ++ rest) =
        .done (asI32 (value + n * 2 ^ position)) rest := by
  have hd : ((n : Int) % 128).toNat = n % 128 := by omega
  obtain ⟨⟨hstop, hlo⟩, hmore, hl'⟩ := digit_bits (n % 128) (Nat.mod_lt n (by decide))
  by_cases hl : n / 128 = 0
  · -- The last digit is the number.
    have hn : n % 128 = n := by omega
    refine ⟨[UInt8.ofNat (n % 128)], fun fuel => ?_, fun rest => ?_⟩
    · rw [← add_assoc, writeVarint, shiftRight_seven, hl, hd]
      rfl
    · rw [singleton_append, readVarintLoop, if_pos hstop, hlo, hn, or_digit hv hfits]
  · cases left with
    | zero => exact absurd (Nat.div_eq_of_lt (by simpa using hn)) hl
    | succ left =>
      have hp : (2 : Nat) ^ (position + 7) = 128 * 2 ^ position := by rw [pow_add]; omega
      have hs : n * 2 ^ position = n % 128 * 2 ^ position + n / 128 * 2 ^ (position + 7) := by
        rw [hp, ← mul_assoc, ← add_mul, Nat.mod_add_div']
      have hsm : n % 128 * 2 ^ position ≤ 127 * 2 ^ position := Nat.mul_le_mul_right _ (by omega)
      obtain ⟨w, hw, hr⟩ := readVarintLoop_writeVarint left (n / 128) (position + 7)
        (value + n % 128 * 2 ^ position) (Nat.div_lt_of_lt_mul (by rwa [← pow_succ'])) (by omega) (by omega)
      refine ⟨(UInt8.ofNat (n % 128) ||| 0x80) :: w, fun fuel => ?_, fun rest => ?_⟩
      · rw [← add_assoc, writeVarint, shiftRight_seven, hd, if_neg (by exact_mod_cast hl), hw]
        rfl
      · rw [cons_append, readVarintLoop, if_neg hmore, hl', or_digit hv (by omega), hr,
          hs, add_assoc]

theorem readVarint_writeVarint {n : Nat} (hn : n < 2 ^ 31) :
    ∃ w, (∀ fuel, writeVarint (fuel + 5) n = some w) ∧
      ∀ rest, readVarint (w ++ rest) = .done n rest := by
  obtain ⟨w, hw, hr⟩ := readVarintLoop_writeVarint 4 n 0 0 (by omega) (by decide) (by omega)
  refine ⟨w, hw, fun rest => ?_⟩
  rw [readVarint, hr, pow_zero, mul_one, zero_add, asI32_of_lt hn]

def Outcome.Leaves (o : Outcome α) (bytes : Bytes) (n : Nat) : Prop :=
  ∃ rest, o.rest = some rest ∧ bytes.length ≤ rest.length + n

/-- With enough fuel a call ends, without an overflow, and takes no more than the prefixes and so
many bytes. -/
def Ends (run : Nat → Option (Outcome α)) (bytes : Bytes) (max : Nat) : Prop :=
  ∃ fuel o, run fuel = some o ∧ o.Leaves bytes (10 + max)

theorem leaves_readExact (n : Nat) (a : α) (bytes : Bytes) : (readExact n a bytes).Leaves bytes n := by
  rw [readExact]
  split
  · exact ⟨[], rfl, by rw [length_nil]; omega⟩
  · exact ⟨_, rfl, by rw [length_drop]; omega⟩

theorem Outcome.Leaves.mono {o : Outcome α} {bytes before : Bytes} {n k m : Nat}
    (h : o.Leaves bytes n) (hb : before.length ≤ bytes.length + k) (hm : n + k ≤ m) :
    o.Leaves before m := by
  obtain ⟨rest, hrest, hle⟩ := h
  exact ⟨rest, hrest, by omega⟩

theorem readVarint_cases (bytes : Bytes) :
    (∃ v rest, readVarint bytes = .done v rest ∧ v < 2 ^ 31 ∧ bytes.length ≤ rest.length + 5) ∨
      ∃ e rest, readVarint bytes = .error e rest ∧ bytes.length ≤ rest.length + 5 := by
  obtain ⟨rest, hrest, hle⟩ := rest_readVarintLoop 5 0 0 bytes
  rw [readVarint]
  cases h : readVarintLoop 5 0 0 bytes with
  | done v left =>
    rw [h, Outcome.rest, Option.some.injEq] at hrest
    exact .inl ⟨v, left, rfl, (readVarintLoop_i32 h).2, hrest ▸ hle⟩
  | error e left =>
    rw [h, Outcome.rest, Option.some.injEq] at hrest
    exact .inr ⟨e, left, rfl, hrest ▸ hle⟩
  | overflow =>
    rw [h] at hrest
    cases hrest

theorem ends_error {bytes rest : Bytes} {max k : Nat} (e : XmcError) (hk : k ≤ 10)
    (h : bytes.length ≤ rest.length + k) :
    Ends (fun _ => some (.error e rest : Outcome α)) bytes max :=
  ⟨0, _, rfl, rest, rfl, by omega⟩

theorem ends_bind {value : Int} (hlt : value < 2 ^ 31) {body : Nat → Option (Outcome α)}
    {bytes : Bytes} {max : Nat} :
    Ends (fun fuel => (varintSize fuel value).bind body) bytes max ↔ 0 ≤ value ∧
      ∃ o, body (size128 value.toNat) = some o ∧ o.Leaves bytes (10 + max) := by
  constructor
  · rintro ⟨fuel, o, hr, hl⟩
    obtain ⟨size, hsize, hr⟩ := Option.bind_eq_some_iff.mp hr
    obtain ⟨hp, rfl⟩ := varintSize_eq_some hlt hsize
    exact ⟨hp, o, hr, hl⟩
  · rintro ⟨hp, o, hr, hl⟩
    obtain ⟨n, rfl⟩ := Int.eq_ofNat_of_zero_le hp
    have hsize := varintSize_ofNat (n := n) (by omega) 0
    exact ⟨0 + 5, o, by simp only [hsize]; exact hr, hl⟩

theorem readData_iff {checked : Bool} {length id : Int} {bytes before : Bytes} {size : Nat}
    (hb : before.length ≤ bytes.length + 10) :
    (∃ o, readData checked length id bytes size = some o ∧
      o.Leaves before (10 + PACKET_DATA_MAX)) ↔ checked = true ∨ -2 ^ 31 ≤ length - size := by
  have hl (e : XmcError) :
      Outcome.Leaves (.error e bytes : Outcome (Int × Bytes)) before (10 + PACKET_DATA_MAX) :=
    ⟨bytes, rfl, by omega⟩
  rw [readData]
  split
  · next hunder =>
    cases checked with
    | false => simp [Outcome.Leaves, Outcome.rest]; omega
    | true => exact iff_of_true ⟨_, rfl, hl _⟩ (.inl rfl)
  · next hfits =>
    refine iff_of_true ?_ (.inr (not_lt.mp hfits))
    split
    · exact ⟨_, rfl, hl _⟩
    · exact ⟨_, rfl, (leaves_readExact _ id bytes).mono hb (by omega)⟩

theorem readRecord_iff {accepts : Int → Bool} {prefixLength length : Int} {bytes before : Bytes}
    {size : Nat} (hb : before.length ≤ bytes.length + 5) :
    (∃ o, readRecord accepts prefixLength length bytes size = some o ∧
      o.Leaves before (10 + MAX_PADDING_TURN_LENGTH)) ↔
      length < size ∨ MAX_PADDING_TURN_LENGTH < length ∨ prefixLength + length < 2 ^ 31 := by
  have hl (e : XmcError) : Outcome.Leaves (.error e bytes : Outcome (Unit × Bytes)) before
        (10 + MAX_PADDING_TURN_LENGTH) := ⟨bytes, rfl, by omega⟩
  rw [readRecord]
  split
  · next hba =>
    exact iff_of_true ⟨_, rfl, hl _⟩ (hba.imp_right .inl)
  · next hg =>
    split
    · next ho => simp [Outcome.Leaves, Outcome.rest]; omega
    · next hfits =>
      refine iff_of_true ?_ (.inr (.inr (not_le.mp hfits)))
      split
      · exact ⟨_, rfl, hl _⟩
      · exact ⟨_, rfl, (leaves_readExact _ () bytes).mono hb (by omega)⟩

def numbers (bytes : Bytes) : Option (Int × Int) :=
  match readVarint bytes with
  | .done length rest =>
    match readVarint rest with
    | .done id _ => some (length, id)
    | _ => none
  | _ => none

theorem readPacket_ends_iff (checked : Bool) (bytes : Bytes) :
    Ends (readPacket checked · bytes) bytes PACKET_DATA_MAX ↔
      ∀ length id, numbers bytes = some (length, id) →
        0 ≤ id ∧ (checked = true ∨ -2 ^ 31 ≤ length - size128 id.toNat) := by
  rcases readVarint_cases bytes with ⟨length, rest, hl, -, hle⟩ | ⟨e, rest, hl, hle⟩
  · rcases readVarint_cases rest with ⟨id, rest', hid, hlt, hle'⟩ | ⟨e, rest', hid, hle'⟩
    · simp only [readPacket, numbers, hl, Outcome.andThen, hid, ends_bind hlt]
      rw [readData_iff (by omega)]
      simp
    · simp only [readPacket, numbers, hl, Outcome.andThen, hid]
      exact iff_of_true (ends_error e le_rfl (by omega)) (by simp)
  · simp only [readPacket, numbers, hl, Outcome.andThen]
    exact iff_of_true (ends_error e (by decide) hle) (by simp)

theorem readPaddingTurn_ends_iff (accepts : Int → Bool) (prefixLength : Int) (bytes : Bytes) :
    Ends (readPaddingTurn accepts prefixLength · bytes) bytes MAX_PADDING_TURN_LENGTH ↔
      ∀ length rest, readVarint bytes = .done length rest →
        0 ≤ length ∧ (length < size128 length.toNat ∨ MAX_PADDING_TURN_LENGTH < length ∨
          prefixLength + length < 2 ^ 31) := by
  rcases readVarint_cases bytes with ⟨length, rest, hl, hlt, hle⟩ | ⟨e, rest, hl, hle⟩
  · simp only [readPaddingTurn, hl, Outcome.andThen, ends_bind hlt]
    rw [readRecord_iff hle]
    simp
  · simp only [readPaddingTurn, hl, Outcome.andThen]
    exact iff_of_true (ends_error e (by decide) hle) (by simp)

theorem readPacket_writePacket (checked : Bool) {n : Nat} (hlt : n < 2 ^ 31) {payload : Bytes}
    (hl : payload.length ≤ PACKET_DATA_MAX) : ∃ fuel wire, writePacket fuel n payload = some wire ∧
      ∃ fuel, readPacket checked fuel wire = some (.done ((n : Int), payload) []) := by
  have hsize := varintSize_ofNat hlt 0
  have hs : size128 n ≤ 5 := by
    unfold size128
    split_ifs <;> decide
  have ht : size128 n + payload.length < 2 ^ 31 := by
    rw [PACKET_DATA_MAX] at hl
    omega
  obtain ⟨w, hw, hr⟩ := readVarint_writeVarint hlt
  obtain ⟨w', hw', hr'⟩ := readVarint_writeVarint ht
  have hdata : ((size128 n + payload.length : Nat) : Int) - size128 n = payload.length := by omega
  refine ⟨0 + 5, w' ++ w ++ payload, ?_, 0 + 5, ?_⟩
  · unfold writePacket
    rw [hsize, Option.bind_eq_bind, Option.bind_some, asI32_of_lt ht, hw', hw]
    rfl
  rw [append_assoc]
  simp only [readPacket, hr', hr, Outcome.andThen, hsize, Option.bind_some, readData, hdata]
  rw [if_neg (by omega), if_neg (by omega)]
  simp [readExact]

/-- Reading ends but for a negative id and a length that overflows; writing, but for a negative id,
and then it is undone by reading. -/
theorem packets_iff (checked : Bool) (bytes : Bytes) :
    (Ends (readPacket checked · bytes) bytes PACKET_DATA_MAX ↔
      ∀ length id, numbers bytes = some (length, id) →
        0 ≤ id ∧ (checked = true ∨ -2 ^ 31 ≤ length - size128 id.toNat)) ∧ (∀ accepts prefixLength,
      Ends (readPaddingTurn accepts prefixLength · bytes) bytes MAX_PADDING_TURN_LENGTH ↔
        ∀ length rest, readVarint bytes = .done length rest →
          0 ≤ length ∧ (length < size128 length.toNat ∨ MAX_PADDING_TURN_LENGTH < length ∨
            prefixLength + length < 2 ^ 31)) ∧
    ∀ (id : Int32) payload, payload.length ≤ PACKET_DATA_MAX →
      ((∃ fuel wire, writePacket fuel id.toInt payload = some wire ∧
        ∃ fuel, readPacket checked fuel wire = some (.done (id.toInt, payload) [])) ↔
        0 ≤ id.toInt) := by
  refine ⟨readPacket_ends_iff checked bytes,
    fun accepts prefixLength => readPaddingTurn_ends_iff accepts prefixLength bytes,
    fun id payload hlen => ⟨?_, fun h => ?_⟩⟩
  · rintro ⟨fuel, wire, hwrite, -⟩
    obtain ⟨size, hsize, -⟩ := Option.bind_eq_some_iff.mp hwrite
    exact (varintSize_eq_some id.toInt_lt hsize).1
  obtain ⟨n, hn⟩ := Int.eq_ofNat_of_zero_le h
  have hlt := id.toInt_lt
  rw [hn] at hlt ⊢
  exact readPacket_writePacket checked (by exact_mod_cast hlt) hlen

/-- The id -1 keeps both sides busy; the least length overflows. -/
theorem endless : (∀ fuel, readPacket true fuel [6, 255, 255, 255, 255, 15] = none) ∧
    (∀ fuel, writePacket fuel (-1) [] = none) ∧
    (∀ accepts fuel, readPaddingTurn accepts 0 fuel [255, 255, 255, 255, 15] = none) ∧
    readPacket false 5 [128, 128, 128, 128, 8, 0] = some .overflow := by
  have hneg := varintSize_neg (by decide : (-1 : Int) < 0)
  have hread : readVarint [255, 255, 255, 255, 15] = .done (-1) [] := by decide +kernel
  refine ⟨fun fuel => ?_, fun fuel => ?_, fun accepts fuel => ?_, by decide +kernel⟩
  · have hlength : readVarint [6, 255, 255, 255, 255, 15] = .done 6 [255, 255, 255, 255, 15] := by
      decide +kernel
    simp [readPacket, hlength, Outcome.andThen, hread, hneg]
  · simp [writePacket, hneg]
  · simp [readPaddingTurn, hread, Outcome.andThen, hneg]

end XrayCore.Xmc
