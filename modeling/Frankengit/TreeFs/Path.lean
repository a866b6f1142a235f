/-
Frankengit/TreeFs/Path.lean

Repository paths (`fgit-treefs`, `path.rs`).  The source keeps the bytes of a
path and splits them at the separator whenever it needs the components; here a
path is the list of its components, and its bytes are joined when they are
needed, for the order of maps.  Containment is by components.
-/
import Frankengit.Types.Basic

namespace Frankengit.TreeFs

open List

/-- What stands between two components. -/
def separator : UInt8 := 0x2F

@[ext] structure TreePath where
  components : List Bytes
  nonempty : components ≠ []
  plain : ∀ component ∈ components, component ≠ [] ∧ separator ∉ component

variable (path : TreePath)

namespace TreePath

def asBytes : Bytes := [separator].intercalate path.components

theorem asBytes_injective : Function.Injective asBytes := by
  intro p q h
  apply TreePath.ext
  have hp := splitOn_intercalate separator (fun c hc => (p.plain c hc).2) p.nonempty
  have hq := splitOn_intercalate separator (fun c hc => (q.plain c hc).2) q.nonempty
  rw [← hp, ← hq]
  exact congrArg (splitOn separator) h

/-- The order of the source: by bytes. -/
def key : List ℕ := path.asBytes.map UInt8.toNat

theorem key_injective : Function.Injective key :=
  (map_injective_iff.mpr fun _ _ => UInt8.toNat_inj.mp).comp asBytes_injective

instance : LinearOrder TreePath := LinearOrder.lift' key key_injective

/-- Whether a path is `scope` or lies beneath it. -/
def startsWith (path scope : TreePath) : Bool := scope.components.isPrefixOf path.components

theorem startsWith_iff {path scope : TreePath} :
    path.startsWith scope ↔ scope.components <+: path.components :=
  isPrefixOf_iff_prefix

theorem startsWith_refl : path.startsWith path :=
  startsWith_iff.mpr (prefix_refl _)

theorem startsWith_trans {path middle scope : TreePath} (h : path.startsWith middle)
    (h' : middle.startsWith scope) : path.startsWith scope :=
  startsWith_iff.mpr ((startsWith_iff.mp h').trans (startsWith_iff.mp h))

/-- Two paths with a path beneath both lie beneath one another. -/
theorem startsWith_total {path p q : TreePath} (hp : path.startsWith p) (hq : path.startsWith q) :
    p.startsWith q ∨ q.startsWith p := by
  rw [startsWith_iff] at hp hq
  rcases prefix_or_prefix_of_prefix hp hq with h | h
  · exact .inr (startsWith_iff.mpr h)
  · exact .inl (startsWith_iff.mpr h)

/-! ### Ancestors -/

/-- The path of the first components, at least one of them. -/
def upTo (n : ℕ) : TreePath where
  components := path.components.take (n + 1)
  nonempty h := (take_eq_nil_iff.mp h).elim (by omega) path.nonempty
  plain c hc := path.plain c (mem_of_mem_take hc)

/-- Every proper ancestor, shallowest first. -/
def ancestors : List TreePath :=
  (List.range (path.components.length - 1)).map path.upTo

/-- Whether a path lies beneath `scope` and is another path. -/
def below (path scope : TreePath) : Bool := path.startsWith scope && path ≠ scope

theorem mem_ancestors {path ancestor : TreePath} :
    ancestor ∈ path.ancestors ↔ path.below ancestor := by
  simp only [ancestors, mem_map, mem_range, below, Bool.and_eq_true, decide_eq_true_eq,
    startsWith_iff]
  constructor
  · rintro ⟨n, hn, rfl⟩
    have hupTo : (path.upTo n).components <+: path.components := take_prefix _ _
    refine ⟨hupTo, fun heq => ?_⟩
    have hlen := congrArg (fun p : TreePath => p.components.length) heq
    simp only [upTo, length_take] at hlen
    omega
  · rintro ⟨hbelow, hne⟩
    have hpos := length_pos_iff.mpr ancestor.nonempty
    have hlt : ancestor.components.length < path.components.length := by
      refine lt_of_le_of_ne hbelow.length_le fun heq => hne ?_
      exact TreePath.ext (hbelow.eq_of_length heq).symm
    refine ⟨ancestor.components.length - 1, by omega, TreePath.ext ?_⟩
    show path.components.take (ancestor.components.length - 1 + 1) = ancestor.components
    rw [Nat.sub_add_cancel hpos]
    exact (prefix_iff_eq_take.mp hbelow).symm

end TreePath

end Frankengit.TreeFs
