/-
Frankengit/Crypto/Absence.lean

Places in a Merkle tree (crate `fgit-crypto`, module `merkle`): what a
membership proof says about the position of its leaf, and ordered
non-membership on top of it.

A root does not commit to the number of leaves.  A proof is accepted under
every index and count that give the leaf's own turns, so its index is the leaf's
only if its count is the tree's (`get_index_of_verify`).

Absence is shown by the leaves around the missing key.  The ref state and the
object closure do it the same way over their own entries, so the construction
is given once, over a `KeyedTree`, and each of them is an instance.  It needs
less than positions: first, last and neighbouring leaves are what they claim
to be under any count.
-/
import Frankengit.Crypto.Merkle
import Frankengit.Lib.MerklePath

namespace Frankengit.Crypto

open Bytewise Fallible List Index Merkle Nat

/-! ### Positions -/

section Positions

variable {D : Type} [DecidableEq D] {H : Hash D} {schema : SchemaId} {leaves : List D}

/-- What an accepted proof folded. -/
theorem refold_of_verify {root x : D} {proof : MerkleProof D}
    (h : verifyMerkleProof H schema root x proof = true) : proof.index < proof.leafCount ∧
      refold (node H schema) proof.leafCount x proof.index proof.leafCount proof.siblings
        = some root := by
  rw [verifyMerkleProof_iff, merkleRootFromProof] at h
  split at h
  · cases h
  · next hshape => exact ⟨by omega, h⟩

/-- **Position binding.**  An accepted proof claims the place of its leaf, and is then
the proof the tree gives for it, exactly if it claims the number of leaves the tree
has. -/
theorem get_index_of_verify {x : D} {proof : MerkleProof D}
    (hverify : verifyMerkleProof H schema (merkleRoot H schema leaves) x proof = true) :
    (proof.leafCount = leaves.length ∧ leaves[proof.index]? = some x ∧
      merkleProof H schema leaves proof.index = .ok proof) ↔ proof.leafCount = leaves.length := by
  obtain ⟨index, leafCount, siblings⟩ := proof
  obtain ⟨hindex, hfold⟩ := refold_of_verify hverify
  refine ⟨And.left, fun hcount => ⟨hcount, ?_⟩⟩
  dsimp only at hcount hindex hfold ⊢
  subst hcount
  have hne : leaves ≠ [] := ne_nil_of_length_pos (zero_lt_of_lt hindex)
  obtain ⟨rfl, rfl⟩ := eq_of_refold (emptyMerkleRoot H schema) node_injective hindex
    (le_succ _) hfold
  refine ⟨getElem?_eq_getElem hindex, ?_⟩
  rw [merkleProof, if_neg hne, dif_pos hindex]

omit [DecidableEq D] in
/-- A proof names the place it was asked for. -/
theorem merkleProof_place {index : ℕ} {proof : MerkleProof D}
    (h : merkleProof H schema leaves index = .ok proof) :
    proof.index = index ∧ proof.leafCount = leaves.length := by
  unfold merkleProof at h
  split at h
  · cases h
  · split at h
    · obtain rfl := Except.ok.inj h
      exact ⟨rfl, rfl⟩
    · cases h

end Positions

/-- The second of three leaves, with its own proof. -/
theorem get_index_of_verify_three :
    ∃ (leaves : List Bytes) (x : Bytes) (proof : MerkleProof Bytes),
      verifyMerkleProof spelledHash refStateSchema
        (merkleRoot spelledHash refStateSchema leaves) x proof = true ∧
      proof.leafCount = 3 ∧ leaves.length = 3 ∧ leaves[proof.index]? = some x := by
  let leaf (byte : UInt8) : Bytes := merkleLeaf spelledHash refStateSchema [[byte]]
  let proof : MerkleProof Bytes := ⟨1, 3, [leaf 1, leaf 3]⟩
  have hverify : verifyMerkleProof spelledHash refStateSchema
      (merkleRoot spelledHash refStateSchema [leaf 1, leaf 2, leaf 3]) (leaf 2) proof = true := by
    decide +kernel
  exact ⟨[leaf 1, leaf 2, leaf 3], leaf 2, proof, hverify, rfl, rfl,
    ((get_index_of_verify hverify).mpr rfl).2.1⟩

/-- Three distinct leaves.  The last one is promoted, so it is accepted as the
second of two: neither the count nor the index is the tree's. -/
theorem promoted_leaf_misplaced :
    ∃ (leaves : List Bytes) (x : Bytes) (proof : MerkleProof Bytes),
      leaves.Nodup ∧ (∀ d ∈ leaves, IsLeaf spelledHash d) ∧ IsLeaf spelledHash x ∧
      verifyMerkleProof spelledHash refStateSchema
        (merkleRoot spelledHash refStateSchema leaves) x proof = true ∧
      proof.leafCount ≠ leaves.length ∧ leaves[proof.index]? ≠ some x := by
  let leaf (byte : UInt8) : Bytes := merkleLeaf spelledHash refStateSchema [[byte]]
  refine ⟨[leaf 1, leaf 2, leaf 3], leaf 3,
    ⟨1, 2, [node spelledHash refStateSchema (leaf 1) (leaf 2)]⟩, by decide +kernel, ?_,
    ⟨_, _, rfl⟩, by decide +kernel, by decide, by decide +kernel⟩
  simp only [forall_mem_cons, not_mem_nil, false_implies, implies_true, and_true]
  exact ⟨⟨_, _, rfl⟩, ⟨_, _, rfl⟩, ⟨_, _, rfl⟩⟩

/-! ### Ordered non-membership -/

/-- How a tree is built over its entries: the key they are sorted by, the
parts their leaves are hashed from, and the refusal for a key that is there. -/
structure KeyedTree {D : Type} (H : Hash D) (α κ : Type) where
  schema : SchemaId
  key : α → κ
  parts : α → List Bytes
  isPresent : MerkleRefusal
  leaf_injective : Function.Injective fun entry => merkleLeaf H schema (parts entry)

/-- One existing entry, with the path that proves it is in the tree. -/
structure Neighbour (α D : Type) where
  entry : α
  proof : MerkleProof D

/-- Evidence that a key is absent: the four places where it can fail to be. -/
inductive NonMembershipProof (α D : Type) where
  | emptyState
  | beforeFirst (first : Neighbour α D)
  | between (predecessor successor : Neighbour α D)
  | afterLast (last : Neighbour α D)

namespace KeyedTree

variable {D α κ : Type} {H : Hash D}

/-- The leaf of an entry. -/
def leaf (T : KeyedTree H α κ) (entry : α) : D := merkleLeaf H T.schema (T.parts entry)

/-- The root over sorted entries. -/
def root (T : KeyedTree H α κ) (ordered : List α) : RootDigest D :=
  ⟨sha256Id, merkleRoot H T.schema (ordered.map T.leaf)⟩

/-- The entry at an index, with its path. -/
def neighbour (T : KeyedTree H α κ) (ordered : List α) (index : Fin ordered.length) :
    Except MerkleRefusal (Neighbour α D) := do
  let proof ← merkleProof H T.schema (ordered.map T.leaf) index
  return ⟨ordered.get index, proof⟩

/-- The proof that a key is absent from sorted entries. -/
def nonMembershipProof [LinearOrder κ] (T : KeyedTree H α κ) (ordered : List α) (key : κ) :
    Except MerkleRefusal (NonMembershipProof α D) :=
  let insertion := insertionPoint T.key ordered key
  if hempty : ordered.length = 0 then .ok .emptyState
  else if (ordered[insertion]?).any fun entry => T.key entry = key then .error T.isPresent
  else if insertion = 0 then do
    let first ← T.neighbour ordered ⟨0, Nat.pos_of_ne_zero hempty⟩
    return .beforeFirst first
  else if hlast : insertion = ordered.length then do
    let last ← T.neighbour ordered ⟨ordered.length - 1, Nat.sub_one_lt hempty⟩
    return .afterLast last
  else do
    have hins : insertion < ordered.length :=
      lt_of_le_of_ne (insertionPoint_le _ _) hlast
    let predecessor ← T.neighbour ordered
      ⟨insertion - 1, lt_of_le_of_lt (Nat.sub_le _ _) hins⟩
    let successor ← T.neighbour ordered ⟨insertion, hins⟩
    return .between predecessor successor

variable [DecidableEq D]

def verifyMembership (T : KeyedTree H α κ) (root : RootDigest D) (entry : α)
    (proof : MerkleProof D) : Bool :=
  if root.algorithm ≠ sha256Id then false
  else verifyMerkleProof H T.schema root.bytes (T.leaf entry) proof

/-- Whether a root commits to entries without a key. -/
def verifyNonMembership [LinearOrder κ] (T : KeyedTree H α κ) (root : RootDigest D) (key : κ)
    (proof : NonMembershipProof α D) : Bool :=
  let holds (neighbour : Neighbour α D) := T.verifyMembership root neighbour.entry neighbour.proof
  if root.algorithm ≠ sha256Id then false
  else
    match proof with
    | .emptyState => root.bytes = emptyMerkleRoot H T.schema
    | .beforeFirst first => first.proof.index = 0 && key < T.key first.entry && holds first
    | .afterLast last =>
      last.proof.index + 1 = last.proof.leafCount && T.key last.entry < key && holds last
    | .between predecessor successor =>
      predecessor.proof.leafCount = successor.proof.leafCount &&
        predecessor.proof.index + 1 = successor.proof.index &&
        T.key predecessor.entry < key && key < T.key successor.entry &&
        holds predecessor && holds successor

/-! #### What a root says about sorted entries -/

variable (T : KeyedTree H α κ)

omit [DecidableEq D] in
theorem isLeaf_leaf (entry : α) : (hashing H T.schema).IsLeaf (T.leaf entry) :=
  ⟨_, _, rfl⟩

omit [DecidableEq D] in
theorem isLeaf_of_mem (ordered : List α) :
    ∀ d ∈ ordered.map T.leaf, (hashing H T.schema).IsLeaf d :=
  forall_mem_map.mpr fun entry _ => T.isLeaf_leaf entry

variable {T : KeyedTree H α κ} {ordered : List α}

omit [DecidableEq D] in
/-- Only no entries have the root of no entries. -/
theorem eq_nil_of_root (h : (T.root ordered).bytes = emptyMerkleRoot H T.schema) :
    ordered = [] := by
  have hempty : merkleRoot H T.schema (ordered.map T.leaf) = merkleRoot H T.schema [] := h
  have hnil := root_injective (hashing H T.schema) (T.isLeaf_of_mem ordered) (by simp) hempty
  exact map_eq_nil_iff.mp hnil

/-- What an accepted neighbour folded. -/
theorem refold_of_verifyMembership {entry : α} {proof : MerkleProof D}
    (h : T.verifyMembership (T.root ordered) entry proof = true) : proof.index < proof.leafCount ∧
      refold (hashing H T.schema).node proof.leafCount (T.leaf entry) proof.index
          proof.leafCount proof.siblings
        = some (Merkle.root (hashing H T.schema).node (hashing H T.schema).empty
            (ordered.map T.leaf)) := by
  have hverify : verifyMerkleProof H T.schema (merkleRoot H T.schema (ordered.map T.leaf))
      (T.leaf entry) proof = true := by
    simpa [verifyMembership, root] using h
  exact refold_of_verify hverify

theorem first_of_verify {first : Neighbour α D} (hindex : first.proof.index = 0)
    (h : T.verifyMembership (T.root ordered) first.entry first.proof = true) :
    ∃ after, ordered = first.entry :: after := by
  obtain ⟨-, hfold⟩ := refold_of_verifyMembership h
  rw [hindex] at hfold
  obtain ⟨after, hleaves⟩ := first_of_refold _ (T.isLeaf_of_mem ordered) (T.isLeaf_leaf _) hfold
  obtain ⟨entry, rest, rfl, hleaf, -⟩ := map_eq_cons_iff.mp hleaves
  obtain rfl := T.leaf_injective hleaf
  exact ⟨rest, rfl⟩

theorem last_of_verify {last : Neighbour α D} (hindex : last.proof.index + 1 = last.proof.leafCount)
    (h : T.verifyMembership (T.root ordered) last.entry last.proof = true) :
    ∃ before, ordered = before ++ [last.entry] := by
  obtain ⟨-, hfold⟩ := refold_of_verifyMembership h
  obtain ⟨before, hleaves⟩ := last_of_refold _ (T.isLeaf_of_mem ordered)
    (T.isLeaf_leaf _) hindex hfold
  obtain ⟨entries, tail, rfl, -, htail⟩ := map_eq_append_iff.mp hleaves
  obtain ⟨entry, rfl, hleaf⟩ := map_eq_singleton_iff.mp htail
  obtain rfl := T.leaf_injective hleaf
  exact ⟨entries, rfl⟩

theorem adjacent_of_verify {predecessor successor : Neighbour α D}
    (hcount : predecessor.proof.leafCount = successor.proof.leafCount)
    (hindex : predecessor.proof.index + 1 = successor.proof.index)
    (h : T.verifyMembership (T.root ordered) predecessor.entry predecessor.proof = true)
    (h' : T.verifyMembership (T.root ordered) successor.entry successor.proof = true) :
    ∃ before after, ordered = before ++ predecessor.entry :: successor.entry :: after := by
  obtain ⟨-, hfold⟩ := refold_of_verifyMembership h
  obtain ⟨hbound, hfold'⟩ := refold_of_verifyMembership h'
  rw [← hindex, ← hcount] at hbound hfold'
  obtain ⟨before, after, hleaves⟩ := adjacent_of_refold _ (T.isLeaf_of_mem ordered)
    (T.isLeaf_leaf _) (T.isLeaf_leaf _) hbound (le_succ _) hfold hfold'
  obtain ⟨entries, tail, rfl, -, htail⟩ := map_eq_append_iff.mp hleaves
  obtain ⟨entry, rest, rfl, hleaf, hrest⟩ := map_eq_cons_iff.mp htail
  obtain ⟨entry', rest', rfl, hleaf', -⟩ := map_eq_cons_iff.mp hrest
  obtain rfl := T.leaf_injective hleaf
  obtain rfl := T.leaf_injective hleaf'
  exact ⟨entries, rest', rfl⟩

/-! #### Soundness and completeness -/

variable [LinearOrder κ]

/-- Whatever is accepted, the key is the key of no entry. -/
theorem absent_of_verify (hstrict : ordered.Pairwise fun a b => T.key a < T.key b) {key : κ}
    {proof : NonMembershipProof α D} (h : T.verifyNonMembership (T.root ordered) key proof = true) :
    key ∉ ordered.map T.key := by
  have halg : ¬ (T.root ordered).algorithm ≠ sha256Id := not_not.mpr rfl
  simp only [verifyNonMembership, if_neg halg] at h
  cases proof with
  | emptyState =>
    rw [eq_nil_of_root (of_decide_eq_true h)]
    simp
  | beforeFirst first =>
    simp only [Bool.and_eq_true, decide_eq_true_eq] at h
    obtain ⟨⟨hindex, hlt⟩, hholds⟩ := h
    obtain ⟨after, hordered⟩ := first_of_verify hindex hholds
    exact absent_of_lt_first hstrict hordered hlt
  | afterLast last =>
    simp only [Bool.and_eq_true, decide_eq_true_eq] at h
    obtain ⟨⟨hindex, hlt⟩, hholds⟩ := h
    obtain ⟨before, hordered⟩ := last_of_verify hindex hholds
    exact absent_of_last_lt hstrict hordered hlt
  | between predecessor successor =>
    simp only [Bool.and_eq_true, decide_eq_true_eq] at h
    obtain ⟨⟨⟨⟨⟨hcount, hindex⟩, hlower⟩, hupper⟩, hholds⟩, hholds'⟩ := h
    obtain ⟨before, after, hordered⟩ := adjacent_of_verify hcount hindex hholds hholds'
    exact absent_of_between hstrict hordered hlower hupper

omit [LinearOrder κ] in
/-- The neighbour at an index is accepted there. -/
theorem neighbour_ok (ordered : List α) (index : Fin ordered.length) :
    ∃ proof, T.neighbour ordered index = .ok ⟨ordered.get index, proof⟩ ∧
      proof.index = index ∧ proof.leafCount = ordered.length ∧
      T.verifyMembership (T.root ordered) (ordered.get index) proof = true := by
  have hindex : (index : ℕ) < (ordered.map T.leaf).length := by simp
  obtain ⟨proof, hproof, hverify⟩ :=
    verify_merkleProof (H := H) T.schema (ordered.map T.leaf) hindex
  obtain ⟨hplace, hcount⟩ := merkleProof_place hproof
  refine ⟨proof, ?_, hplace, by simpa using hcount, ?_⟩
  · rw [neighbour, hproof]
    rfl
  · simpa [verifyMembership, root] using hverify

/-- A key that is absent has a proof, and the proof is accepted. -/
theorem nonMembershipProof_ok {key : κ} (habsent : key ∉ ordered.map T.key) :
    ∃ proof, T.nonMembershipProof ordered key = .ok proof ∧
      T.verifyNonMembership (T.root ordered) key proof = true := by
  have halg : ¬ (T.root ordered).algorithm ≠ sha256Id := not_not.mpr rfl
  have hne : ∀ entry ∈ ordered, T.key entry ≠ key := by
    intro entry hentry heq
    exact habsent (heq ▸ mem_map_of_mem hentry)
  have hmissing : ¬ (ordered[insertionPoint T.key ordered key]?).any
      (fun entry => T.key entry = key) = true := by
    simp only [Option.any_eq_true, decide_eq_true_eq, not_exists, not_and]
    intro entry hentry
    exact hne entry (mem_of_getElem? hentry)
  have habove : ∀ h : insertionPoint T.key ordered key < ordered.length,
      key < T.key (ordered.get ⟨_, h⟩) := by
    intro h
    exact lt_of_le_of_ne (le_insertionPoint h) (hne _ (get_mem _ _)).symm
  simp only [nonMembershipProof, if_neg hmissing]
  simp only [verifyNonMembership, if_neg halg]
  -- the branches of the construction are the places of the key
  split_ifs with hempty hfirst hlast
  · obtain rfl := length_eq_zero_iff.mp hempty
    exact ⟨.emptyState, rfl, decide_eq_true rfl⟩
  · have hpos : 0 < ordered.length := pos_of_ne_zero hempty
    have hlt := habove (hfirst.symm ▸ hpos)
    simp only [hfirst] at hlt
    obtain ⟨proof, hproof, hplace, -, hholds⟩ := T.neighbour_ok ordered ⟨0, hpos⟩
    rw [hproof]
    refine ⟨_, rfl, ?_⟩
    simp only [hplace, hholds, hlt, decide_true, Bool.and_self]
  · have hend : ordered.length - 1 < ordered.length := sub_one_lt hempty
    have hbelow : ordered.length - 1 < insertionPoint T.key ordered key := by omega
    have hlt := lt_of_lt_insertionPoint hend hbelow
    have hplaced : ordered.length - 1 + 1 = ordered.length := by omega
    obtain ⟨proof, hproof, hplace, hcount, hholds⟩ := T.neighbour_ok ordered ⟨_, hend⟩
    rw [hproof]
    refine ⟨_, rfl, ?_⟩
    simp only [hplace, hcount, hholds, hlt, hplaced, decide_true, Bool.and_self]
  · have hle : insertionPoint T.key ordered key ≤ ordered.length :=
      insertionPoint_le _ _
    have hin : insertionPoint T.key ordered key < ordered.length := by omega
    have hbefore : insertionPoint T.key ordered key - 1 < ordered.length := by omega
    have hlower := lt_of_lt_insertionPoint hbefore (sub_one_lt hfirst)
    have hplaced : insertionPoint T.key ordered key - 1 + 1
        = insertionPoint T.key ordered key := by omega
    obtain ⟨proof, hproof, hplace, hcount, hholds⟩ := T.neighbour_ok ordered ⟨_, hbefore⟩
    obtain ⟨proof', hproof', hplace', hcount', hholds'⟩ := T.neighbour_ok ordered ⟨_, hin⟩
    rw [hproof, hproof']
    refine ⟨_, rfl, ?_⟩
    simp only [hplace, hplace', hcount, hcount', hholds, hholds', hlower, habove hin, hplaced,
      decide_true, Bool.and_self]

omit [DecidableEq D] in
/-- A key that is present is refused. -/
theorem nonMembershipProof_present (hstrict : ordered.Pairwise fun a b => T.key a < T.key b)
    {key : κ} (hpresent : key ∈ ordered.map T.key) :
    T.nonMembershipProof ordered key = .error T.isPresent := by
  obtain ⟨h, heq⟩ := eq_insertionPoint (hstrict.imp le_of_lt) hpresent
  have hempty : ¬ ordered.length = 0 := by omega
  have hfound : (ordered[insertionPoint T.key ordered key]?).any
      (fun entry => T.key entry = key) = true := by
    rw [getElem?_eq_getElem h]
    simpa using heq
  simp only [nonMembershipProof, dif_neg hempty, if_pos hfound]

/-- **Absence**, for entries with distinct keys: a proof is built exactly for
the keys that are absent, it is accepted, and nothing else is accepted. -/
theorem nonMembership_iff {entries : List α} (h : (entries.map T.key).Nodup) (key : κ) :
    ((∃ proof, T.nonMembershipProof (sortByKey T.key entries) key = .ok proof) ↔
      key ∉ entries.map T.key) ∧
    (∀ proof, T.nonMembershipProof (sortByKey T.key entries) key = .ok proof →
      T.verifyNonMembership (T.root (sortByKey T.key entries)) key proof = true) ∧
    (∀ proof, T.verifyNonMembership (T.root (sortByKey T.key entries)) key proof = true →
      key ∉ entries.map T.key) := by
  have hstrict := strict_sortByKey h
  have hkeys : key ∈ (sortByKey T.key entries).map T.key ↔ key ∈ entries.map T.key :=
    ((perm_insertionSort _ entries).map T.key).mem_iff
  rw [← hkeys]
  generalize sortByKey T.key entries = ordered at hstrict
  by_cases hkey : key ∈ ordered.map T.key
  · have hrefused := nonMembershipProof_present hstrict hkey
    refine ⟨⟨?_, fun habsent => absurd hkey habsent⟩, ?_, fun proof => absent_of_verify hstrict⟩
    · rintro ⟨proof, hproof⟩
      cases hrefused.symm.trans hproof
    · intro proof hproof
      cases hrefused.symm.trans hproof
  · obtain ⟨proof, hproof, hverify⟩ := nonMembershipProof_ok hkey
    refine ⟨⟨fun _ => hkey, fun _ => ⟨proof, hproof⟩⟩, ?_, fun _ _ => hkey⟩
    intro proof' hproof'
    obtain rfl := Except.ok.inj (hproof.symm.trans hproof')
    exact hverify

end KeyedTree

/-! ### The ref state -/

section RefState

variable {D : Type} (H : Hash D)

def refStateTree : KeyedTree H (RefName × GitOid) RefName where
  schema := refStateSchema
  key := Prod.fst
  parts entry := [bigEndian 4 entry.1.bytes.length, entry.1.bytes,
    bigEndian 2 (codePoint entry.2.algorithm), entry.2.bytes]
  isPresent := .refIsPresent
  leaf_injective := by
    intro entry entry' h
    obtain ⟨hname, hoid⟩ := refStateLeaf_injective h
    exact Prod.ext hname hoid

abbrev RefStateNonMembershipProof (D : Type) := NonMembershipProof (RefName × GitOid) D

/-- The proof that a name is absent. -/
def refStateNonMembershipProof (entries : List (RefName × GitOid)) (name : RefName) :
    Except MerkleRefusal (RefStateNonMembershipProof D) := do
  let ordered ← sortedRefStateEntries entries
  (refStateTree H).nonMembershipProof ordered name

variable [DecidableEq D]

def verifyRefStateNonMembership (root : RootDigest D) (name : RefName)
    (proof : RefStateNonMembershipProof D) : Bool :=
  (refStateTree H).verifyNonMembership root name proof

/-- A neighbour is checked as a member of the ref state. -/
example (root : RootDigest D) (name : RefName) (oid : GitOid) (proof : MerkleProof D) :
    (refStateTree H).verifyMembership root (name, oid) proof
      = verifyRefStateMembership H root name oid proof := rfl

end RefState

/-! ### The object closure -/

section ObjectClosure

variable {D : Type} (H : Hash D)

def objectClosureSchema : SchemaId := ⟨ascii "object-closure-merkle", 1, 0, by decide⟩

/-- The leaf of one object. -/
def objectClosureLeaf (oid : GitOid) : D :=
  merkleLeaf H objectClosureSchema [bigEndian 2 (codePoint oid.algorithm), oid.bytes]

variable {H} in
/-- A leaf determines its object. -/
theorem objectClosureLeaf_injective : Function.Injective (objectClosureLeaf H) := by
  intro oid oid' h
  have hbytes := internalDigestOverParts_flatten h
  simp only [flatten_cons, flatten_nil, append_nil] at hbytes
  obtain ⟨halg, hoid⟩ := codePoint_delimited hbytes
  exact GitOid.ext halg hoid

def objectClosureTree : KeyedTree H GitOid GitOid where
  schema := objectClosureSchema
  key oid := oid
  parts oid := [bigEndian 2 (codePoint oid.algorithm), oid.bytes]
  isPresent := .objectIsPresent
  leaf_injective := objectClosureLeaf_injective

/-- Sort objects and reject duplicates. -/
def sortedObjectClosureEntries (objects : List GitOid) : Except MerkleRefusal (List GitOid) :=
  let ordered := objects.insertionSort fun left right => left ≤ right
  if hasRepeat (fun oid => oid) ordered then .error .duplicateObjectOid else .ok ordered

def objectClosureMerkleRoot (objects : List GitOid) : Except MerkleRefusal (RootDigest D) := do
  let ordered ← sortedObjectClosureEntries objects
  return ⟨sha256Id, merkleRoot H objectClosureSchema (ordered.map (objectClosureLeaf H))⟩

abbrev ObjectClosureNonMembershipProof (D : Type) := NonMembershipProof GitOid D

/-- The proof that an object is absent. -/
def objectClosureNonMembershipProof (objects : List GitOid) (oid : GitOid) :
    Except MerkleRefusal (ObjectClosureNonMembershipProof D) := do
  let ordered ← sortedObjectClosureEntries objects
  (objectClosureTree H).nonMembershipProof ordered oid

variable [DecidableEq D]

def verifyObjectClosureNonMembership (root : RootDigest D) (oid : GitOid)
    (proof : ObjectClosureNonMembershipProof D) : Bool :=
  (objectClosureTree H).verifyNonMembership root oid proof

theorem sortedObjectClosureEntries_ok {objects : List GitOid} (h : objects.Nodup) :
    sortedObjectClosureEntries objects = .ok (sortByKey (fun oid => oid) objects) := by
  have hkeys : (objects.map fun oid => oid).Nodup := by rwa [map_id']
  have hstrict := strict_sortByKey hkeys
  have hunique : hasRepeat (fun oid => oid) (sortByKey (fun oid => oid) objects) = false :=
    hasRepeat_eq_false hstrict
  exact if_neg (Bool.eq_false_iff.mp hunique)

end ObjectClosure

/-! ### Both trees -/

/-- **Ordered non-membership is complete and sound** for ref states and for
object closures, against every proof whatsoever. -/
theorem non_membership {D : Type} [DecidableEq D] (H : Hash D) :
    (∀ entries : List (RefName × GitOid), (entries.map Prod.fst).Nodup →
      ∃ root, refStateMerkleRoot H entries = .ok root ∧ ∀ name,
        ((∃ proof, refStateNonMembershipProof H entries name = .ok proof) ↔
          name ∉ entries.map Prod.fst) ∧
        (∀ proof, refStateNonMembershipProof H entries name = .ok proof →
          verifyRefStateNonMembership H root name proof = true) ∧
        (∀ proof, verifyRefStateNonMembership H root name proof = true →
          name ∉ entries.map Prod.fst)) ∧
    (∀ objects : List GitOid, objects.Nodup →
      ∃ root, objectClosureMerkleRoot H objects = .ok root ∧ ∀ oid,
        ((∃ proof, objectClosureNonMembershipProof H objects oid = .ok proof) ↔ oid ∉ objects) ∧
        (∀ proof, objectClosureNonMembershipProof H objects oid = .ok proof →
          verifyObjectClosureNonMembership H root oid proof = true) ∧
        (∀ proof, verifyObjectClosureNonMembership H root oid proof = true → oid ∉ objects)) := by
  constructor
  · intro entries h
    have hordered := sortedRefStateEntries_ok h
    refine ⟨(refStateTree H).root (sortByKey Prod.fst entries), ?_, fun name => ?_⟩
    · simp only [refStateMerkleRoot, orderedRefStateLeaves, hordered]
      rfl
    · simp only [refStateNonMembershipProof, hordered]
      exact (refStateTree H).nonMembership_iff h name
  · intro objects h
    have hordered := sortedObjectClosureEntries_ok h
    have hkeys : objects.map (objectClosureTree H).key = objects := map_id' objects
    refine ⟨(objectClosureTree H).root (sortByKey (fun oid => oid) objects), ?_, fun oid => ?_⟩
    · simp only [objectClosureMerkleRoot, hordered]
      rfl
    · have habsent := (objectClosureTree H).nonMembership_iff (hkeys.symm ▸ h) oid
      rw [hkeys] at habsent
      simp only [objectClosureNonMembershipProof, hordered]
      exact habsent

/-- A name between two refs and an object between two others are proved absent. -/
theorem non_membership_between :
    ∃ (entries : List (RefName × GitOid)) (name : RefName) (objects : List GitOid) (oid : GitOid),
      (∃ root predecessor successor, refStateMerkleRoot spelledHash entries = .ok root ∧
        refStateNonMembershipProof spelledHash entries name
          = .ok (.between predecessor successor) ∧
        verifyRefStateNonMembership spelledHash root name (.between predecessor successor) = true) ∧
      ∃ root predecessor successor, objectClosureMerkleRoot spelledHash objects = .ok root ∧
        objectClosureNonMembershipProof spelledHash objects oid
          = .ok (.between predecessor successor) ∧
        verifyObjectClosureNonMembership spelledHash root oid (.between predecessor successor)
          = true := by
  let named (letter : UInt8) (h : _) : RefName := ⟨ascii "refs/heads/" ++ [letter], h⟩
  let oid (byte : UInt8) : GitOid := ⟨.sha1, replicate 20 byte, rfl⟩
  let entries := [(named 97 (by decide), oid 1), (named 99 (by decide), oid 1)]
  obtain ⟨hrefs, hobjs⟩ := non_membership spelledHash
  obtain ⟨root, hroot, hnames⟩ := hrefs entries (by decide)
  obtain ⟨closure, hclo, hoids⟩ := hobjs [oid 1, oid 3] (by decide)
  exact ⟨entries, named 98 (by decide), [oid 1, oid 3], oid 2,
    ⟨root, _, _, hroot, rfl, (hnames _).2.1 _ rfl⟩, closure, _, _, hclo, rfl, (hoids _).2.1 _ rfl⟩

end Frankengit.Crypto
