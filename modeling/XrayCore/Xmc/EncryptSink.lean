import XrayCore.Lib.Mealy
import XrayCore.Lib.Polling

/-!
# Encrypted writing

CFB8 encrypts byte by byte and shifts each byte of ciphertext into its register. `EncryptSink`
encrypts a whole buffer before it knows how much of it the inner writer takes, and reports all of it
as written.
-/

namespace XrayCore.Xmc

open Lib List

abbrev BlockCipher := Bytes → UInt8

def encryptByte (cipher : BlockCipher) (iv : Bytes) (b : UInt8) : Bytes × UInt8 :=
  let c := b ^^^ cipher iv
  (iv.drop 1 ++ [c], c)

def decryptByte (cipher : BlockCipher) (iv : Bytes) (c : UInt8) : Bytes × UInt8 :=
  (iv.drop 1 ++ [c], c ^^^ cipher iv)

def encrypt (cipher : BlockCipher) : Bytes → Bytes → Bytes × Bytes := mealy (encryptByte cipher)

def decrypt (cipher : BlockCipher) : Bytes → Bytes → Bytes × Bytes := mealy (decryptByte cipher)

def pollWrite (cipher : BlockCipher) (iv buf : Bytes) : Answer → PollResult Unit Nat × Bytes × Bytes
  | .pending => (.pending, (encrypt cipher iv buf).1, [])
  | .failed => (.failed (), (encrypt cipher iv buf).1, [])
  | .ready n => (.ready buf.length, (encrypt cipher iv buf).1, (encrypt cipher iv buf).2.take n)

def writes (cipher : BlockCipher) : Bytes → List (Bytes × Answer) → Bytes × Bytes
  | _, [] => ([], [])
  | iv, (buf, answer) :: calls =>
    let (result, iv, wire) := pollWrite cipher iv buf answer
    let (wires, reported) := writes cipher iv calls
    (wire ++ wires, (match result with
      | .ready n => buf.take n
      | _ => []) ++ reported)

theorem decrypt_encrypt (cipher : BlockCipher) (iv data : Bytes) :
    decrypt cipher iv (encrypt cipher iv data).2 = ((encrypt cipher iv data).1, data) := by
  induction data generalizing iv with
  | nil => rfl
  | cons b data ih =>
    have hb : b ^^^ cipher iv ^^^ cipher iv = b := by
      rw [UInt8.xor_assoc, UInt8.xor_self, UInt8.xor_zero]
    have hrest := ih (iv.drop 1 ++ [b ^^^ cipher iv])
    simp only [decrypt, encrypt, mealy, decryptByte, encryptByte] at hrest ⊢
    rw [hb, hrest]

def answeredWith (calls : List (Bytes × Nat)) : List (Bytes × Answer) :=
  calls.map fun call => (call.1, .ready call.2)

theorem length_writes_le (cipher : BlockCipher) (iv : Bytes) (calls : List (Bytes × Nat)) :
    (writes cipher iv (answeredWith calls)).1.length ≤ (writes cipher iv (answeredWith calls)).2.length := by
  induction calls generalizing iv with
  | nil => rfl
  | cons call calls ih =>
    have hrest := ih (encrypt cipher iv call.1).1
    simp only [answeredWith, map_cons, writes, pollWrite, take_length, length_append,
      encrypt, length_mealy, length_take] at hrest ⊢
    omega

/-- Without `Pending`, what comes out at the other end is what was reported if and only if there are
no short writes. -/
theorem decrypts_iff (cipher : BlockCipher) (iv : Bytes) (calls : List (Bytes × Nat)) :
    (decrypt cipher iv (writes cipher iv (answeredWith calls)).1).2 =
        (writes cipher iv (answeredWith calls)).2 ↔ ∀ call ∈ calls, call.1.length ≤ call.2 := by
  induction calls generalizing iv with
  | nil => simp [answeredWith, writes, decrypt, mealy]
  | cons call calls ih =>
    obtain ⟨buf, n⟩ := call
    have hlen := length_writes_le cipher (encrypt cipher iv buf).1 calls
    rw [forall_mem_cons, ← ih (encrypt cipher iv buf).1]
    simp only [answeredWith, map_cons, writes, pollWrite, take_length] at hlen ⊢
    by_cases hn : buf.length ≤ n
    · have hall : (encrypt cipher iv buf).2.take n = (encrypt cipher iv buf).2 :=
        take_of_length_le (by simpa [encrypt] using hn)
      have hback := decrypt_encrypt cipher iv buf
      rw [decrypt] at hback ⊢
      rw [hall, mealy_append, hback]
      simp [hn]
    · -- What is missing on the wire never comes.
      refine iff_of_false (fun heq => ?_) fun h => hn h.1
      have hlen' := congrArg length heq
      rw [decrypt, length_mealy, length_append, length_append, length_take] at hlen'
      omega

/-- A write that is repeated behind `Pending`, and a short one. -/
theorem garbled : (decrypt (·.getD 15 0) (replicate 16 9)
      (writes (·.getD 15 0) (replicate 16 9) [([1], .pending), ([1], .ready 1)]).1).2 ≠
      (writes (·.getD 15 0) (replicate 16 9) [([1], .pending), ([1], .ready 1)]).2 ∧
    (decrypt (·.getD 15 0) (replicate 16 9)
      (writes (·.getD 15 0) (replicate 16 9) [([1, 2], .ready 1)]).1).2 ≠
      (writes (·.getD 15 0) (replicate 16 9) [([1, 2], .ready 1)]).2 := by decide +kernel

end XrayCore.Xmc
