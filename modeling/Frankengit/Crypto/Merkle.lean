/-
Frankengit/Crypto/Merkle.lean

Merkle membership (crate `fgit-crypto`, module `merkle`) over the digests of
`body_identity`.

The hash function is a parameter, `Hash`.  No function into 32 bytes is
injective, so a digest is a value of a type `D` with a spelling in bytes; of
the fixed width only what the construction relies on is kept, namely that a
digest's bytes end where the next digest begins.  Everything else is the
source's construction: the preimage header with the domain's tag, the schema
and the length, the parts that follow it, and the leaf of a ref with its
length-delimited name.  That leaves, nodes and the empty tree are kept apart
is then proved (`hashing`), not assumed.
-/
import Frankengit.Lib.Bytes
import Frankengit.Lib.Fallible
import Frankengit.Lib.Index
import Frankengit.Lib.Merkle
import Frankengit.Types.RefName

namespace Frankengit.Crypto

open Bytewise Fallible List Function Merkle Index Prod

/-! ### Digests over a preimage -/

/-- The identity domains of the tree. -/
inductive IdentityDomain where
  | merkleLeaf | merkleNode
deriving DecidableEq

/-- The registered tag of a domain. -/
def IdentityDomain.tag : IdentityDomain → Bytes
  | merkleLeaf => ascii "frankengit/merkle-leaf/v1"
  | merkleNode => ascii "frankengit/merkle-node/v1"

/-- The code point of the algorithm every internal domain uses. -/
def sha256Id : ℕ := 2

/-- The longest label. -/
def maxLabelLen : ℕ := 64

structure SchemaId where
  family : Bytes
  major : UInt16
  minor : UInt16
  family_fits : family.length ≤ maxLabelLen

/-- An injective hash into digests that can be written one after another. -/
structure Hash (D : Type) where
  sha256 : Bytes → D
  asBytes : D → Bytes
  sha256_injective : Injective sha256
  asBytes_delimited : Delimited asBytes
  asBytes_ne_nil : ∀ d, asBytes d ≠ []

def internalIdPreimageHeader (domain : IdentityDomain) (schema : SchemaId) (bodyLen : ℕ) : Bytes :=
  bigEndian 1 domain.tag.length ++ domain.tag ++ bigEndian 1 schema.family.length ++
    schema.family ++ bigEndian 2 schema.major.toNat ++ bigEndian 2 schema.minor.toNat ++
    bigEndian 8 bodyLen

section Hash

variable {D : Type} (H : Hash D)

/-- The digest over ordered parts: the header commits to their total length,
and the parts follow it one after another. -/
def internalDigestOverParts (domain : IdentityDomain) (schema : SchemaId) (bodyParts : List Bytes) :
    D :=
  H.sha256 (internalIdPreimageHeader domain schema bodyParts.flatten.length ++ bodyParts.flatten)

/-! ### The tree -/

inductive MerkleRefusal where
  | leafIndexOutOfRange (index leafCount : ℕ)
  | emptyTree
  | duplicateRefName
  | duplicateObjectOid
  | refNotPresent
  | refIsPresent
  | objectIsPresent
deriving DecidableEq

structure MerkleProof (D : Type) where
  index : ℕ
  leafCount : ℕ
  siblings : List D

/-- One interior node over two children. -/
def node (schema : SchemaId) (left right : D) : D :=
  internalDigestOverParts H .merkleNode schema [H.asBytes left, H.asBytes right]

def emptyMerkleRoot (schema : SchemaId) : D := internalDigestOverParts H .merkleNode schema []

/-- Hash one leaf from its parts. -/
def merkleLeaf (schema : SchemaId) (parts : List Bytes) : D :=
  internalDigestOverParts H .merkleLeaf schema parts

/-- Fold ordered leaves into a root. -/
def merkleRoot (schema : SchemaId) (leaves : List D) : D :=
  root (node H schema) (emptyMerkleRoot H schema) leaves

/-- The sibling path proving the leaf at an index. -/
def merkleProof (schema : SchemaId) (leaves : List D) (index : ℕ) :
    Except MerkleRefusal (MerkleProof D) :=
  if leaves = [] then .error .emptyTree
  else if h : index < leaves.length then
    .ok ⟨index, leaves.length, siblings (node H schema) leaves.length leaves index h⟩
  else .error (.leafIndexOutOfRange index leaves.length)

/-- The root a proof implies, if its shape agrees with its own leaf count. -/
def merkleRootFromProof (schema : SchemaId) (leaf : D) (proof : MerkleProof D) : Option D :=
  if proof.leafCount = 0 ∨ proof.leafCount ≤ proof.index then none
  else
    refold (node H schema) proof.leafCount leaf proof.index proof.leafCount proof.siblings

def verifyMerkleProof [DecidableEq D] (schema : SchemaId) (root leaf : D) (proof : MerkleProof D) :
    Bool :=
  (merkleRootFromProof H schema leaf proof).any fun computed => computed = root

/-! ### The ref state -/

/-- A native object identity by its bytes. -/
@[ext] structure GitOid where
  algorithm : GitHashAlgorithm
  bytes : Bytes
  width : bytes.length = match algorithm with | .sha1 => 20 | .sha256 => 32

/-- The wire code point of an algorithm. -/
def codePoint : GitHashAlgorithm → ℕ
  | .sha1 => 1
  | .sha256 => 2

theorem codePoint_injective : Injective codePoint := by
  intro a b h
  cases a <;> cases b <;> first | rfl | exact absurd h (by decide)

namespace GitOid

/-- The order of the source: by algorithm, then by bytes. -/
def key (oid : GitOid) : List ℕ := codePoint oid.algorithm :: oid.bytes.map UInt8.toNat

theorem key_injective : Injective key := by
  intro oid oid' h
  obtain ⟨hcode, hbytes⟩ := cons.inj h
  have hbytes := map_injective_iff.mpr (fun _ _ => UInt8.toNat_inj.mp) hbytes
  exact GitOid.ext (codePoint_injective hcode) hbytes

instance : LinearOrder GitOid := LinearOrder.lift' key key_injective

end GitOid

structure RootDigest (D : Type) where
  algorithm : ℕ
  bytes : D

def refStateSchema : SchemaId := ⟨ascii "ref-state-merkle", 1, 0, by decide⟩

/-- The leaf of one ref: its name after its length, then its object. -/
def refStateLeaf (name : RefName) (oid : GitOid) : D :=
  merkleLeaf H refStateSchema
    [bigEndian 4 name.bytes.length, name.bytes, bigEndian 2 (codePoint oid.algorithm), oid.bytes]

/-- Two neighbours with one name. -/
def hasDuplicate : List (RefName × GitOid) → Bool
  | left :: right :: rest => left.1 = right.1 || hasDuplicate (right :: rest)
  | _ => false

variable (entries : List (RefName × GitOid))

/-- Sort entries by name and reject a non-map. -/
def sortedRefStateEntries : Except MerkleRefusal (List (RefName × GitOid)) :=
  let ordered := entries.insertionSort fun left right => left.1 ≤ right.1
  if hasDuplicate ordered then .error .duplicateRefName else .ok ordered

def orderedRefStateLeaves : Except MerkleRefusal (List D) := do
  let ordered ← sortedRefStateEntries entries
  return ordered.map fun entry => refStateLeaf H entry.1 entry.2

def refStateMerkleRoot : Except MerkleRefusal (RootDigest D) := do
  let leaves ← orderedRefStateLeaves H entries
  return ⟨sha256Id, merkleRoot H refStateSchema leaves⟩

/-- A membership proof for one ref, with the object it is bound to. -/
def refStateMembershipProof (name : RefName) : Except MerkleRefusal (GitOid × MerkleProof D) := do
  let ordered ← sortedRefStateEntries entries
  match ordered[ordered.findIdx fun entry => entry.1 = name]? with
  | none => throw .refNotPresent
  | some entry =>
    let proof ← merkleProof H refStateSchema (ordered.map fun each => refStateLeaf H each.1 each.2)
      (ordered.findIdx fun entry => entry.1 = name)
    return (entry.2, proof)

def verifyRefStateMembership [DecidableEq D] (root : RootDigest D) (name : RefName) (oid : GitOid)
    (proof : MerkleProof D) : Bool :=
  if root.algorithm ≠ sha256Id then false
  else verifyMerkleProof H refStateSchema root.bytes (refStateLeaf H name oid) proof

end Hash

/-! ### The digests are kept apart -/

variable {schema : SchemaId}

section Apart

variable {D : Type} {H : Hash D}

theorem tag_injective : Injective IdentityDomain.tag := by
  intro a b h
  cases a <;> cases b <;> first | rfl | exact absurd h (by decide)

theorem tag_delimited :
    Delimited fun domain : IdentityDomain => bigEndian 1 domain.tag.length ++ domain.tag :=
  .lengthPrefixed tag_injective 1 fun domain => by cases domain <;> decide

/-- A digest determines its domain. -/
theorem internalDigestOverParts_domain {domain domain' : IdentityDomain} {schema' : SchemaId}
    {parts parts' : List Bytes} (h : internalDigestOverParts H domain schema parts
      = internalDigestOverParts H domain' schema' parts') : domain = domain' := by
  have hpreimage := H.sha256_injective h
  simp only [internalIdPreimageHeader, append_assoc] at hpreimage
  exact (tag_delimited hpreimage).1

/-- Within a domain and a schema, a digest determines the bytes of its
parts. -/
theorem internalDigestOverParts_flatten {domain : IdentityDomain} {parts parts' : List Bytes}
    (h : internalDigestOverParts H domain schema parts
      = internalDigestOverParts H domain schema parts') : parts.flatten = parts'.flatten := by
  refine (append_inj (H.sha256_injective h) ?_).2
  simp [internalIdPreimageHeader]

theorem node_injective {a b a' b' : D} (h : node H schema a b = node H schema a' b') :
    a = a' ∧ b = b' := by
  have hbytes := internalDigestOverParts_flatten h
  obtain ⟨hleft, hrest⟩ := H.asBytes_delimited hbytes
  exact ⟨hleft, (H.asBytes_delimited hrest).1⟩

/-- A leaf digest of some schema. -/
def IsLeaf (H : Hash D) (d : D) : Prop := ∃ schema parts, d = merkleLeaf H schema parts

/-- The digests of a schema form a hash tree: leaves, nodes and the empty
tree are kept apart by their domains and lengths. -/
def hashing (H : Hash D) (schema : SchemaId) : Hashing D where
  IsLeaf := IsLeaf H
  node := node H schema
  empty := emptyMerkleRoot H schema
  node_injective := node_injective
  node_not_leaf := by
    rintro a b ⟨schema', parts, h⟩
    exact absurd (internalDigestOverParts_domain h) (by decide)
  empty_not_leaf := by
    rintro ⟨schema', parts, h⟩
    exact absurd (internalDigestOverParts_domain h) (by decide)
  empty_ne_node := by
    intro a b h
    have hbytes := internalDigestOverParts_flatten h
    simp only [flatten_cons, flatten_nil, append_nil] at hbytes
    exact H.asBytes_ne_nil a (append_eq_nil_iff.mp hbytes.symm).1

theorem codePoint_delimited : Delimited fun algorithm => bigEndian 2 (codePoint algorithm) := by
  refine .of_width 2 (fun _ => length_bigEndian _ _) fun a b hab => ?_
  cases a <;> cases b <;> first | rfl | exact absurd hab (by decide)

/-- A leaf determines its ref. -/
theorem refStateLeaf_injective {name name' : RefName} {oid oid' : GitOid}
    (h : refStateLeaf H name oid = refStateLeaf H name' oid') : name = name' ∧ oid = oid' := by
  have hbytes := internalDigestOverParts_flatten h
  simp only [flatten_cons, flatten_nil, append_nil] at hbytes
  have hname : Delimited fun name : RefName => bigEndian 4 name.bytes.length ++ name.bytes := by
    refine .lengthPrefixed (fun _ _ => RefName.ext) 4 fun name => ?_
    have hbound : name.bytes.length ≤ RefName.maxRefNameLen := name.length_le
    exact lt_of_le_of_lt hbound (by decide)
  obtain ⟨hnames, hrest⟩ := hname hbytes
  obtain ⟨halgs, hoids⟩ := codePoint_delimited hrest
  exact ⟨hnames, GitOid.ext halgs hoids⟩

end Apart

/-! ### Membership -/

section Membership

variable {D : Type} [DecidableEq D] {H : Hash D}

theorem verifyMerkleProof_iff {root leaf : D} {proof : MerkleProof D} :
    verifyMerkleProof H schema root leaf proof = true ↔
      merkleRootFromProof H schema leaf proof = some root := by
  unfold verifyMerkleProof
  cases merkleRootFromProof H schema leaf proof with
  | none | some computed => simp

/-- The honest proof is accepted. -/
theorem verify_merkleProof (schema : SchemaId) (leaves : List D) {index : ℕ}
    (h : index < leaves.length) : ∃ proof, merkleProof H schema leaves index = .ok proof ∧
      verifyMerkleProof H schema (merkleRoot H schema leaves) (leaves.get ⟨index, h⟩) proof
        = true := by
  have hne : leaves ≠ [] := ne_nil_of_length_pos (Nat.zero_lt_of_lt h)
  refine ⟨⟨index, leaves.length, siblings (node H schema) leaves.length leaves index h⟩, ?_, ?_⟩
  · rw [merkleProof, if_neg hne, dif_pos h]
  · rw [verifyMerkleProof_iff, merkleRootFromProof, if_neg (by simp only; omega)]
    exact refold_siblings _ leaves.length leaves h (Nat.le_succ _)

/-- An accepted leaf is in the tree. -/
theorem mem_of_verify {leaves : List D} {x : D} {proof : MerkleProof D}
    (hleaves : ∀ d ∈ leaves, IsLeaf H d) (hx : IsLeaf H x)
    (h : verifyMerkleProof H schema (merkleRoot H schema leaves) x proof = true) : x ∈ leaves := by
  rw [verifyMerkleProof_iff, merkleRootFromProof] at h
  split at h
  · cases h
  · exact mem_of_refold (hashing H schema) hleaves hx h

theorem hasDuplicate_eq (ordered : List (RefName × GitOid)) :
    hasDuplicate ordered = hasRepeat fst ordered := by
  induction ordered using twoStepInduction with
  | nil | singleton => rfl
  | cons_cons left right rest _ ih => rw [hasDuplicate, hasRepeat, ih]

variable {entries : List (RefName × GitOid)}

/-- A map sorts. -/
theorem sortedRefStateEntries_ok (h : (entries.map fst).Nodup) :
    sortedRefStateEntries entries = .ok (sortByKey fst entries) := by
  have hstrict := strict_sortByKey h
  have hunique : hasDuplicate (sortByKey fst entries) = false := by
    rw [hasDuplicate_eq]
    exact hasRepeat_eq_false hstrict
  exact if_neg (Bool.eq_false_iff.mp hunique)

/-- The proof a map gives for one of its refs is bound to that ref's object
and is accepted. -/
theorem refStateMembershipProof_ok {ordered : List (RefName × GitOid)}
    (hordered : sortedRefStateEntries entries = .ok ordered) (hnodup : (ordered.map fst).Nodup)
    {name : RefName} {oid : GitOid} (hentry : (name, oid) ∈ ordered) :
    ∃ proof, refStateMembershipProof H entries name = .ok (oid, proof) ∧
      verifyMerkleProof H refStateSchema
        (merkleRoot H refStateSchema (ordered.map fun entry => refStateLeaf H entry.1 entry.2))
        (refStateLeaf H name oid) proof = true := by
  let index := ordered.findIdx fun entry => entry.1 = name
  have hindex : index < ordered.length := findIdx_lt_length_of_exists ⟨_, hentry, by simp⟩
  have hname : ordered[index].1 = name := by
    have hfound := findIdx_getElem (w := hindex)
    simpa using hfound
  -- names are distinct, so the entry found is the one given
  have hget : ordered[index] = (name, oid) :=
    inj_on_of_nodup_map hnodup (getElem_mem hindex) hentry hname
  have hlen : index < (ordered.map fun entry => refStateLeaf H entry.1 entry.2).length := by
    simpa using hindex
  obtain ⟨proof, hproof, hverify⟩ := verify_merkleProof (H := H) refStateSchema _ hlen
  refine ⟨proof, ?_, ?_⟩
  · have hsome : ordered[ordered.findIdx fun entry => entry.1 = name]? = some (name, oid) := by
      rw [← hget]
      exact getElem?_eq_getElem hindex
    simp only [refStateMembershipProof, hordered, bind_eq_ok]
    refine ⟨ordered, rfl, ?_⟩
    rw [hsome]
    exact bind_eq_ok.mpr ⟨proof, hproof, rfl⟩
  · simpa [hget] using hverify

/-- The ref state's root commits to exactly the entries of the map. -/
theorem refState_membership (h : (entries.map fst).Nodup) :
    ∃ root, refStateMerkleRoot H entries = .ok root ∧ ∀ name oid,
      (∃ proof, verifyRefStateMembership H root name oid proof = true) ↔ (name, oid) ∈ entries := by
  obtain ⟨ordered, hordered, hperm⟩ :
      ∃ ordered, sortedRefStateEntries entries = .ok ordered ∧ ordered.Perm entries :=
    ⟨_, sortedRefStateEntries_ok h, perm_insertionSort _ _⟩
  let leaves := ordered.map fun entry => refStateLeaf H entry.1 entry.2
  refine ⟨⟨sha256Id, merkleRoot H refStateSchema leaves⟩, ?_, fun name oid => ?_⟩
  · simp only [refStateMerkleRoot, orderedRefStateLeaves, hordered]
    rfl
  · have hverify : ∀ proof, verifyRefStateMembership H
        ⟨sha256Id, merkleRoot H refStateSchema leaves⟩ name oid proof
          = verifyMerkleProof H refStateSchema (merkleRoot H refStateSchema leaves)
            (refStateLeaf H name oid) proof := fun proof => if_neg (not_not.mpr rfl)
    rw [← hperm.mem_iff]
    constructor
    · rintro ⟨proof, hproof⟩
      have hleaves : ∀ d ∈ leaves, IsLeaf H d := forall_mem_map.mpr fun _ _ => ⟨_, _, rfl⟩
      obtain ⟨⟨name', oid'⟩, hentry, hleaf⟩ :=
        mem_map.mp (mem_of_verify hleaves ⟨_, _, rfl⟩ hproof)
      obtain ⟨rfl, rfl⟩ := refStateLeaf_injective hleaf
      exact hentry
    · intro hentry
      have hnodup := (hperm.map fst).nodup_iff.mpr h
      obtain ⟨proof, -, hproof⟩ := refStateMembershipProof_ok (H := H) hordered hnodup hentry
      exact ⟨proof, hproof⟩

/-- **Membership is complete and sound**: every leaf of a tree has an accepted
proof, a leaf digest accepted with any proof whatsoever is a leaf of the tree,
and so a ref map's root commits to exactly its entries. -/
theorem merkle_membership {D : Type} [DecidableEq D] (H : Hash D) (schema : SchemaId) :
    (∀ (leaves : List D) (index : ℕ) (h : index < leaves.length),
      ∃ proof, merkleProof H schema leaves index = .ok proof ∧
        verifyMerkleProof H schema (merkleRoot H schema leaves) (leaves.get ⟨index, h⟩) proof
          = true) ∧
    (∀ (leaves : List D) (x : D) (proof : MerkleProof D), (∀ d ∈ leaves, IsLeaf H d) →
      IsLeaf H x → verifyMerkleProof H schema (merkleRoot H schema leaves) x proof = true →
      x ∈ leaves) ∧
    (∀ entries : List (RefName × GitOid), (entries.map Prod.fst).Nodup →
      ∃ root, refStateMerkleRoot H entries = .ok root ∧ ∀ name oid,
        (∃ proof, verifyRefStateMembership H root name oid proof = true) ↔
          (name, oid) ∈ entries) := by
  refine ⟨fun leaves index h => ?_, fun leaves x proof hleaves hx h => ?_, fun entries h => ?_⟩
  · exact verify_merkleProof schema leaves h
  · exact mem_of_verify hleaves hx h
  · exact refState_membership h

/-- A hash that keeps its preimage; its digests are spelled with a mark
before each byte and at the end. -/
def spelledHash : Hash Bytes where
  sha256 preimage := preimage
  asBytes digest := digest.flatMap (fun byte => [1, byte]) ++ [0]
  sha256_injective := injective_id
  asBytes_delimited := by
    intro a
    induction a with
    | nil =>
      intro b x y h
      cases b with
      | nil => simpa using h
      | cons byte b => simp at h
    | cons byte a ih =>
      intro b x y h
      cases b with
      | nil => simp at h
      | cons byte' b =>
        simp only [flatMap_cons, cons_append, nil_append, cons.injEq, true_and] at h
        obtain ⟨hrest, hend⟩ := ih h.2
        exact ⟨by rw [h.1, hrest], hend⟩
  asBytes_ne_nil digest := by simp

/-- Three leaves: each has its proof, and the last is also accepted as the
second of two.  A ref map with one entry commits to it. -/
theorem merkle_membership_three :
    ∃ (a b c : Bytes) (reshaped : MerkleProof Bytes) (name : RefName) (oid : GitOid),
      (∃ proof, merkleProof spelledHash refStateSchema [a, b, c] 1 = .ok proof ∧
        verifyMerkleProof spelledHash refStateSchema
          (merkleRoot spelledHash refStateSchema [a, b, c]) b proof = true) ∧
      (reshaped.leafCount = 2 ∧ verifyMerkleProof spelledHash refStateSchema
        (merkleRoot spelledHash refStateSchema [a, b, c]) c reshaped = true ∧ c ∈ [a, b, c]) ∧
      ∃ root proof, refStateMerkleRoot spelledHash [(name, oid)] = .ok root ∧
        verifyRefStateMembership spelledHash root name oid proof = true := by
  let leaf (byte : UInt8) : Bytes := merkleLeaf spelledHash refStateSchema [[byte]]
  let name : RefName := ⟨ascii "refs/heads/main", by decide⟩
  let oid : GitOid := ⟨.sha1, replicate 20 7, rfl⟩
  let reshaped : MerkleProof Bytes := ⟨1, 2, [node spelledHash refStateSchema (leaf 1) (leaf 2)]⟩
  have hacc : verifyMerkleProof spelledHash refStateSchema
      (merkleRoot spelledHash refStateSchema [leaf 1, leaf 2, leaf 3]) (leaf 3) reshaped
        = true := by
    decide +kernel
  have hleaves : ∀ d ∈ [leaf 1, leaf 2, leaf 3], IsLeaf spelledHash d := by
    simp only [forall_mem_cons, not_mem_nil, false_implies, implies_true, and_true]
    exact ⟨⟨_, _, rfl⟩, ⟨_, _, rfl⟩, ⟨_, _, rfl⟩⟩
  obtain ⟨hcomplete, hsound, hrefs⟩ := merkle_membership spelledHash refStateSchema
  refine ⟨leaf 1, leaf 2, leaf 3, reshaped, name, oid, hcomplete _ 1 (by simp),
    ⟨rfl, hacc, hsound _ _ _ hleaves ⟨_, _, rfl⟩ hacc⟩, ?_⟩
  obtain ⟨root, hroot, hiff⟩ := hrefs [(name, oid)] (by simp)
  obtain ⟨proof, hproof⟩ := (hiff name oid).mpr (by simp)
  exact ⟨root, proof, hroot, hproof⟩

end Membership

end Frankengit.Crypto
