/-
Frankengit/Types/Label.lean

Labels (`fgit-types`, `label.rs`): short ASCII texts that name things.
`AsciiSlug` carries the fact that its bytes passed the checks of `tryNew`,
its one constructor.  A label of one role (`Label`) is a slug; labels of
different roles cannot be confused.  Labels are ordered bytewise.
-/
import Frankengit.Types.RefName

namespace Frankengit

namespace AsciiSlug

/-- The longest label. -/
def maxLabelLen : ℕ := 64

def byteIsPermitted (byte : UInt8) : Bool :=
  (0x61 ≤ byte && byte ≤ 0x7a) || (0x30 ≤ byte && byte ≤ 0x39)
    || [0x2d, 0x5f, 0x2e, 0x2f].contains byte

/-- The first defect of a label. -/
def defect (field : String) (source : Bytes) : Option TypeRefusal :=
  if source = [] ∨ maxLabelLen < source.length then
    some (.lengthOutOfRange field source.length 1 maxLabelLen)
  else
    match source.zipIdx.find? fun e => !byteIsPermitted e.1 with
    | some (byte, offset) => some (.byteNotPermitted field offset byte)
    | none => none

end AsciiSlug

/-- A label's text. -/
@[ext] structure AsciiSlug where
  bytes : Bytes
  wellFormed : AsciiSlug.defect "" bytes = none

namespace AsciiSlug

/-- Which field is named in a refusal does not decide whether there is one. -/
theorem defect_field {field : String} {source : Bytes} (h : defect field source = none) :
    defect "" source = none := by
  unfold defect at h ⊢
  repeat' split at h
  all_goals simp_all

def tryNew (field : String) (source : Bytes) : Except TypeRefusal AsciiSlug :=
  match h : defect field source with
  | some refusal => .error refusal
  | none => .ok ⟨source, defect_field h⟩

/-- The order of the source: bytewise. -/
def key (slug : AsciiSlug) : List ℕ := slug.bytes.map UInt8.toNat

theorem key_injective : Function.Injective key := by
  intro a b h
  exact AsciiSlug.ext (List.map_injective_iff.mpr (fun _ _ => UInt8.toNat_inj.mp) h)

instance : LinearOrder AsciiSlug := LinearOrder.lift' key key_injective

end AsciiSlug

/-! ### Labels of one role -/

/-- What a label names. -/
inductive LabelRole where
  | evidenceKind | issuerLabel | aggregateName | labelName | ruleId | policyName
deriving DecidableEq

namespace LabelRole

/-- The name a refusal gives the label. -/
def field : LabelRole → String
  | evidenceKind => "EvidenceKind"
  | issuerLabel => "IssuerLabel"
  | aggregateName => "AggregateName"
  | labelName => "LabelName"
  | ruleId => "RuleId"
  | policyName => "PolicyName"

end LabelRole

/-- A label of one role. -/
@[ext] structure Label (role : LabelRole) where
  slug : AsciiSlug

abbrev EvidenceKind := Label .evidenceKind
abbrev IssuerLabel := Label .issuerLabel
abbrev AggregateName := Label .aggregateName
abbrev LabelName := Label .labelName
abbrev RuleId := Label .ruleId
abbrev PolicyName := Label .policyName

namespace Label

variable {role : LabelRole}

instance : LinearOrder (Label role) := LinearOrder.lift' slug fun _ _ => Label.ext

instance (priority := high) : Std.TransCmp (compare : Label role → Label role → Ordering) :=
  BTree.transCmp_compare

def bytes (label : Label role) : Bytes := label.slug.bytes

def tryNew (source : Bytes) : Except TypeRefusal (Label role) :=
  Label.mk <$> AsciiSlug.tryNew role.field source

theorem key_eq_iff {a b : Label role} : a.slug.key = b.slug.key ↔ a = b := by
  rw [AsciiSlug.key_injective.eq_iff, Label.ext_iff]

end Label

end Frankengit
