/-
Frankengit/Crypto/Oid.lean

Native object identities as text (`fgit-types`, `native.rs`): lowercase
hexadecimal of the algorithm's width.
-/
import Mathlib.Data.Set.Finite.List
import Frankengit.Lib.Hex
import Frankengit.Crypto.Merkle

namespace Frankengit.Crypto

/-- Bytes in a digest of the algorithm. -/
def digestLen : GitHashAlgorithm → ℕ
  | .sha1 => 20
  | .sha256 => 32

variable (algorithm : GitHashAlgorithm) (oid : GitOid)

namespace GitOid

theorem length_bytes : oid.bytes.length = digestLen oid.algorithm := by
  rw [oid.width]
  rfl

/-- There are as many identities as there are digests. -/
instance : Finite GitOid := by
  have hbyte : Finite UInt8 := Finite.of_injective UInt8.toFin fun _ _ => UInt8.toFin_inj.mp
  have hbytes : Finite {bytes : Bytes // bytes.length ≤ 32} := List.finite_length_le UInt8 32
  have hle : ∀ oid : GitOid, oid.bytes.length ≤ 32 := by
    intro oid
    rw [oid.width]
    cases oid.algorithm <;> decide
  have hcode : ∀ algorithm, codePoint algorithm < 3 := by
    intro algorithm
    cases algorithm <;> decide
  refine Finite.of_injective
    (fun oid : GitOid => ((⟨codePoint oid.algorithm, hcode _⟩ : Fin 3),
      (⟨oid.bytes, hle oid⟩ : {bytes : Bytes // bytes.length ≤ 32}))) ?_
  intro a b h
  obtain ⟨halg, hbytes⟩ := Prod.mk.inj h
  exact GitOid.ext (codePoint_injective (Fin.val_eq_of_eq halg)) (congrArg Subtype.val hbytes)

/-- The identity whose bytes are all the same. -/
def filled (byte : UInt8) : GitOid :=
  ⟨algorithm, List.replicate (digestLen algorithm) byte, by cases algorithm <;> rfl⟩

/-- The identity that stands for no object. -/
def zero : GitOid :=
  ⟨algorithm, List.replicate (digestLen algorithm) 0, by cases algorithm <;> rfl⟩

def toHex : Bytes := Hex.encode oid.bytes

/-- Read an identity.  Callers look at no more of a refusal than that it is one. -/
def fromHex (text : Bytes) : Option GitOid :=
  match Hex.decode text with
  | none => none
  | some bytes =>
    if h : bytes.length = digestLen algorithm then some ⟨algorithm, bytes, h⟩ else none

theorem length_toHex : oid.toHex.length = digestLen oid.algorithm * 2 := by
  rw [toHex, Hex.length_encode, length_bytes, Nat.mul_comm]

theorem fromHex_toHex : fromHex oid.algorithm oid.toHex = some oid := by
  rw [fromHex, toHex, Hex.decode_encode]
  exact dif_pos oid.length_bytes

end GitOid

end Frankengit.Crypto
