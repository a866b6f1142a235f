/-
Frankengit/Types/RefName.lean

Ref names (`fgit-types`, `refs.rs`).  A ref name is a byte string that
passed Git's name rules; `RefName` carries that fact, so a malformed name
cannot be built.  `validate` is the one constructor of the source: it looks
for the first defect in the source's order of checks and refuses with it.

The canonical namespace of the reference model (`fgit-reference`,
`refs.rs`) is the names under `refs`, and a name's scope is the component
that follows.
-/
import Frankengit.Types.Basic

namespace Frankengit

/-- Why a typed value was refused at construction. -/
inductive TypeRefusal where
  | lengthOutOfRange (field : String) (observed minimum maximum : ℕ)
  | byteNotPermitted (field : String) (offset : ℕ) (byte : UInt8)
  | refNameStructureInvalid (reason : String) (offset : ℕ)
deriving DecidableEq

variable (source : List UInt8)

namespace RefName

/-- Longest accepted name. -/
def maxRefNameLen : ℕ := 1024

/-- Control bytes, DEL, blank and the bytes with a meaning in Git's
revision grammar. -/
def byteIsForbidden (byte : UInt8) : Bool :=
  byte < 0x20 || byte == 0x7f || [0x20, 0x7e, 0x5e, 0x3a, 0x3f, 0x2a, 0x5b, 0x5c].contains byte

/-- The slash-separated components of a byte string. -/
def componentsOf : List (List UInt8) :=
  source.splitOn 0x2f

/-- The defect the pair at `offset` starts, if any. -/
def pairDefect : ℕ → List UInt8 → Option TypeRefusal
  | offset, a :: b :: rest =>
    if a = 0x2e ∧ b = 0x2e then some (.refNameStructureInvalid "double_dot" (offset + 1))
    else if a = 0x40 ∧ b = 0x7b then
      some (.refNameStructureInvalid "at_brace_sequence" (offset + 1))
    else pairDefect (offset + 1) (b :: rest)
  | _, _ => none

/-- The first component defect, scanning from the component that starts at
`start`. -/
def componentDefect : ℕ → List (List UInt8) → Option TypeRefusal
  | _, [] => none
  | start, component :: rest =>
    let stop := start + component.length
    if component = [] then some (.refNameStructureInvalid "empty_component" stop)
    else if component.head? = some 0x2e then
      some (.refNameStructureInvalid "component_starts_with_dot" start)
    else if [0x2e, 0x6c, 0x6f, 0x63, 0x6b] <:+ component then
      some (.refNameStructureInvalid "component_ends_with_dot_lock" (stop - 5))
    else componentDefect (stop + 1) rest

/-- The first defect of a name, in the source's order of checks. -/
def defect (allowOneLevel : Bool) : Option TypeRefusal :=
  if source = [] ∨ maxRefNameLen < source.length then
    some (.lengthOutOfRange "RefName" source.length 1 maxRefNameLen)
  else
    match source.zipIdx.find? fun e => byteIsForbidden e.1 with
    | some (byte, offset) => some (.byteNotPermitted "RefName" offset byte)
    | none =>
      if source = [0x40] then some (.refNameStructureInvalid "name_is_bare_at_sign" 0)
      else
        match pairDefect 0 source with
        | some refusal => some refusal
        | none =>
          if source.getLast? = some 0x2e then
            some (.refNameStructureInvalid "name_ends_with_dot" (source.length - 1))
          else if source.getLast? = some 0x2f then
            some (.refNameStructureInvalid "name_ends_with_slash" (source.length - 1))
          else if source.head? = some 0x2f then
            some (.refNameStructureInvalid "name_starts_with_slash" 0)
          else
            match componentDefect 0 (componentsOf source) with
            | some refusal => some refusal
            | none =>
              if (componentsOf source).length < 2 ∧ allowOneLevel = false then
                some (.refNameStructureInvalid "name_is_one_level" 0)
              else none

/-- Allowing one-level names drops the last check only. -/
theorem defect_one_level {source : List UInt8} {allowOneLevel : Bool}
    (h : defect source allowOneLevel = none) : defect source true = none := by
  unfold defect at h ⊢
  repeat' split at h
  all_goals simp_all

end RefName

/-- A ref scope, ordered bytewise. -/
@[ext] structure Scope where
  bytes : List UInt8

instance : LinearOrder Scope :=
  LinearOrder.lift' (fun s => s.bytes.map UInt8.toNat) fun _ _ h =>
    Scope.ext (List.map_injective_iff.mpr (fun _ _ => UInt8.toNat_inj.mp) h)

/-- A ref name that passed the name rules. -/
@[ext] structure RefName where
  bytes : List UInt8
  wellFormed : RefName.defect bytes true = none

variable (name : RefName)

namespace RefName

/-- Build a name or refuse with its first defect. -/
def validate (allowOneLevel : Bool) : Except TypeRefusal RefName :=
  match h : defect source allowOneLevel with
  | some refusal => .error refusal
  | none => .ok ⟨source, defect_one_level h⟩

theorem length_bounds : ¬ (name.bytes = [] ∨ maxRefNameLen < name.bytes.length) := by
  intro hlen
  have h := name.wellFormed
  rw [defect, if_pos hlen] at h
  cases h

/-- A name is not too long. -/
theorem length_le : name.bytes.length ≤ maxRefNameLen :=
  Nat.le_of_not_lt (not_or.mp name.length_bounds).2

theorem bytes_of_validate {source : List UInt8} {allowOneLevel : Bool} {name : RefName}
    (h : validate source allowOneLevel = .ok name) : name.bytes = source := by
  unfold validate at h
  split at h
  · cases h
  · exact (congrArg RefName.bytes (Except.ok.inj h)).symm

/-- A name holds no forbidden byte. -/
theorem allowed : ∀ byte ∈ name.bytes, ¬ byteIsForbidden byte := by
  have h := name.wellFormed
  rw [defect, if_neg name.length_bounds] at h
  split at h
  · cases h
  · next hfind =>
    rw [List.find?_eq_none] at hfind
    intro byte hmem
    obtain ⟨index, hindex⟩ := List.mem_iff_getElem?.mp hmem
    exact hfind (byte, index) (List.mem_zipIdx_iff_getElem?.mpr hindex)

/-- The order of the source: bytewise lexicographic. -/
def key : List ℕ := name.bytes.map UInt8.toNat

theorem key_injective : Function.Injective key := by
  intro a b h
  have hbytes := List.map_injective_iff.mpr (fun _ _ => UInt8.toNat_inj.mp) h
  exact RefName.ext hbytes

instance : LinearOrder RefName := LinearOrder.lift' key key_injective

/-- The slash-separated components of the name. -/
def components : List (List UInt8) := componentsOf name.bytes

/-- Whether the name lies strictly under a namespace, given with or without
its trailing slash. -/
def isUnder (space : List UInt8) : Bool :=
  let space := if space.getLast? = some 0x2f then space.dropLast else space
  space.isPrefixOf name.bytes && name.bytes[space.length]? == some 0x2f

/-- The namespace of canonical refs, `refs`. -/
def canonicalRefSpace : List UInt8 := [0x72, 0x65, 0x66, 0x73]

/-- Whether the name lies in the canonical namespace. -/
def isCanonical : Bool := name.isUnder canonicalRefSpace

/-- The component after `refs`: the unit policy protects and grants. -/
def scopeOf : Option Scope :=
  if name.isCanonical then name.components[1]?.map Scope.mk else none

end RefName

end Frankengit
