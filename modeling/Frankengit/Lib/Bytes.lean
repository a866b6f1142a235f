/-
Frankengit/Lib/Bytes.lean

Fixed-width big-endian numbers and self-delimiting encodings.

`bigEndian width n` keeps the low `width` bytes of `n`; `ofBigEndian` reads a
byte string back.

An encoding is `Delimited` if no two of its words can be continued to the same
string.  Such encodings may be written one after the other and read apart
again.
-/
import Mathlib.Tactic

namespace Bytewise

/-- The low `width` bytes of a number, most significant first. -/
def bigEndian : ℕ → ℕ → List UInt8
  | 0, _ => []
  | width + 1, n => bigEndian width (n / 256) ++ [UInt8.ofNat (n % 256)]

/-- The number a byte string spells. -/
def ofBigEndian (bytes : List UInt8) : ℕ :=
  bytes.foldl (fun acc byte => acc * 256 + byte.toNat) 0

@[simp] theorem length_bigEndian (width n : ℕ) : (bigEndian width n).length = width := by
  induction width generalizing n with
  | zero => rfl
  | succ width ih => simp [bigEndian, ih]

@[simp] theorem ofBigEndian_nil : ofBigEndian [] = 0 := rfl

theorem ofBigEndian_concat (bytes : List UInt8) (byte : UInt8) :
    ofBigEndian (bytes ++ [byte]) = ofBigEndian bytes * 256 + byte.toNat := by
  simp [ofBigEndian]

theorem toNat_ofNat_mod (n : ℕ) : (UInt8.ofNat (n % 256)).toNat = n % 256 := by
  exact Nat.mod_mod_of_dvd n (dvd_refl 256)

theorem ofBigEndian_bigEndian (width n : ℕ) :
    ofBigEndian (bigEndian width n) = n % 256 ^ width := by
  induction width generalizing n with
  | zero => simp [bigEndian, Nat.mod_one]
  | succ width ih =>
    rw [bigEndian, ofBigEndian_concat, ih, toNat_ofNat_mod, pow_succ', Nat.mod_mul]
    omega

theorem ofBigEndian_bigEndian_of_lt {width n : ℕ} (h : n < 256 ^ width) :
    ofBigEndian (bigEndian width n) = n := by
  rw [ofBigEndian_bigEndian, Nat.mod_eq_of_lt h]

/-- Numbers of one width have different spellings. -/
theorem bigEndian_injective {width m n : ℕ} (hm : m < 256 ^ width) (hn : n < 256 ^ width)
    (h : bigEndian width m = bigEndian width n) : m = n := by
  rw [← ofBigEndian_bigEndian_of_lt hm, h, ofBigEndian_bigEndian_of_lt hn]

/-! ### Self-delimiting encodings -/

/-- A word of the encoding ends where it ends: two words continued to the same
string are the same word. -/
def Delimited {α : Type} (encode : α → List UInt8) : Prop :=
  ∀ ⦃a b : α⦄ ⦃x y : List UInt8⦄, encode a ++ x = encode b ++ y → a = b ∧ x = y

variable {α β : Type}

/-- Words of one width. -/
theorem Delimited.of_width {encode : α → List UInt8} (width : ℕ)
    (hwidth : ∀ a, (encode a).length = width) (hinj : Function.Injective encode) :
    Delimited encode := by
  intro a b x y h
  obtain ⟨hword, hrest⟩ := List.append_inj h ((hwidth a).trans (hwidth b).symm)
  exact ⟨hinj hword, hrest⟩

/-- A byte string after its own length. -/
theorem Delimited.lengthPrefixed {encode : α → List UInt8} (hinj : Function.Injective encode)
    (width : ℕ) (hfits : ∀ a, (encode a).length < 256 ^ width) :
    Delimited fun a => bigEndian width (encode a).length ++ encode a := by
  intro a b x y h
  simp only [List.append_assoc] at h
  obtain ⟨hlen, hrest⟩ := List.append_inj h (by simp)
  obtain ⟨hword, hend⟩ := List.append_inj hrest (bigEndian_injective (hfits a) (hfits b) hlen)
  exact ⟨hinj hword, hend⟩

end Bytewise
