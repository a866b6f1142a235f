/-
Frankengit/Lib/Hex.lean

Bytes as lowercase hexadecimal text, two digits a byte.  `decode` takes
lowercase digits only, so a byte string has one spelling and `decode` undoes
`encode`.
-/
import Mathlib.Tactic

namespace Hex

/-- The digit of a number below sixteen. -/
def digit (n : ℕ) : UInt8 := UInt8.ofNat (if n < 10 then 0x30 + n else 0x57 + n)

/-- The number of a digit. -/
def nibble (byte : UInt8) : Option ℕ :=
  if 0x30 ≤ byte ∧ byte ≤ 0x39 then some (byte.toNat - 0x30)
  else if 0x61 ≤ byte ∧ byte ≤ 0x66 then some (byte.toNat - 0x57)
  else none

variable (bytes : List UInt8)

def encode : List UInt8 :=
  bytes.flatMap fun byte => [digit (byte.toNat / 16), digit (byte.toNat % 16)]

def decode : List UInt8 → Option (List UInt8)
  | [] => some []
  | [_] => none
  | high :: low :: rest => do
    let high ← nibble high
    let low ← nibble low
    let rest ← decode rest
    return UInt8.ofNat (16 * high + low) :: rest

theorem nibble_digit {n : ℕ} (h : n < 16) : nibble (digit n) = some n := by
  have hall : ∀ k : Fin 16, nibble (digit k) = some k.val := by decide
  exact hall ⟨n, h⟩

theorem encode_cons (byte : UInt8) (bytes : List UInt8) :
    encode (byte :: bytes) = digit (byte.toNat / 16) :: digit (byte.toNat % 16)
      :: encode bytes := by
  simp [encode]

theorem length_encode : (encode bytes).length = 2 * bytes.length := by
  induction bytes with
  | nil => rfl
  | cons byte bytes ih =>
    rw [encode_cons, List.length_cons, List.length_cons, List.length_cons, ih]
    omega

theorem decode_encode : decode (encode bytes) = some bytes := by
  induction bytes with
  | nil => rfl
  | cons byte bytes ih =>
    have hbyte : byte.toNat < 256 := byte.toNat_lt
    have hhigh := nibble_digit (n := byte.toNat / 16) (by omega)
    have hlow := nibble_digit (n := byte.toNat % 16) (by omega)
    rw [encode_cons, decode, hhigh, hlow, ih]
    show some (UInt8.ofNat (16 * (byte.toNat / 16) + byte.toNat % 16) :: bytes) = _
    rw [Nat.div_add_mod, UInt8.ofNat_toNat]

/-- Only digits are written. -/
theorem eq_digit_of_mem_encode {bytes : List UInt8} {byte : UInt8} (h : byte ∈ encode bytes) :
    ∃ n, n < 16 ∧ byte = digit n := by
  obtain ⟨source, -, hdigit⟩ := List.mem_flatMap.mp h
  have hsrc : source.toNat < 256 := source.toNat_lt
  rcases List.mem_pair.mp hdigit with rfl | rfl
  · exact ⟨_, by omega, rfl⟩
  · exact ⟨_, by omega, rfl⟩

/-- A byte that is no digit does not occur. -/
theorem not_mem_encode {bytes : List UInt8} {byte : UInt8} (h : nibble byte = none) :
    byte ∉ encode bytes := by
  intro hmem
  obtain ⟨n, hn, rfl⟩ := eq_digit_of_mem_encode hmem
  rw [nibble_digit hn] at h
  cases h

end Hex
