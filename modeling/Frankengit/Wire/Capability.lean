/-
Frankengit/Wire/Capability.lean

Capabilities: printable `name` or `name=value` tokens, and lists of them in
which no name occurs twice.  `parseWithSpaces_ok` says what a token is parsed
to, in both directions; `parseV1_encodedList` reads a written list back.
-/
import Frankengit.Wire.Basic

namespace Frankengit.Wire

open Cutting Fallible List Option Bool

structure Capability where
  name : Bytes
  value : Option Bytes
deriving DecidableEq

variable {capability : Capability} {limits : WireLimits} (token : Bytes)

namespace Capability

def equals : UInt8 := 0x3d

def isNameByte (byte : UInt8) : Bool := 0x21 ≤ byte && byte ≤ 0x7e && byte != equals

def isValueByte (allowValueSpaces : Bool) (byte : UInt8) : Bool :=
  (if allowValueSpaces then 0x20 ≤ byte else 0x21 ≤ byte) && byte ≤ 0x7e

/-- Refuse the first byte that is not permitted. -/
def checkToken (field : String) (permitted : UInt8 → Bool) (token : Bytes) :
    Except WireError PUnit :=
  match token.zipIdx.find? fun e => !permitted e.1 with
  | some (byte, offset) => .error (.invalidToken field offset byte)
  | none => .ok ⟨⟩

/-- Cut a token at its first equals sign. -/
def splitValue : Bytes × Option Bytes :=
  match cut equals token with
  | some (name, value) => (name, some value)
  | none => (token, none)

def parseWithSpaces (limits : WireLimits) (allowValueSpaces : Bool) :
    Except WireError Capability := do
  refuseIf (token = []) .emptyCapability
  refuseIf (limits.maxCapabilityBytes < token.length)
    (.capabilityTooLarge limits.maxCapabilityBytes)
  let name := (splitValue token).1
  let value := (splitValue token).2
  refuseIf (name = []) .emptyCapability
  checkToken "capability" isNameByte name
  value.elim (.ok ⟨⟩) (checkToken "capability value" (isValueByte allowValueSpaces))
  return ⟨name, value⟩

/-- A v0/v1 capability. -/
def parse (limits : WireLimits) : Except WireError Capability :=
  parseWithSpaces token limits false

def encoded (capability : Capability) : Bytes :=
  capability.name ++ capability.value.elim [] (equals :: ·)

/-- What a parsed capability looks like. -/
structure Printable (allowValueSpaces : Bool) (capability : Capability) : Prop where
  name_ne_nil : capability.name ≠ []
  name_bytes : ∀ byte ∈ capability.name, isNameByte byte
  value_bytes : ∀ value ∈ capability.value, ∀ byte ∈ value, isValueByte allowValueSpaces byte

theorem checkToken_ok {field : String} {permitted : UInt8 → Bool} {token : Bytes} {u : PUnit} :
    checkToken field permitted token = .ok u ↔ ∀ byte ∈ token, permitted byte := by
  have hall : token.zipIdx.find? (fun e => !permitted e.1) = none ↔
      ∀ byte ∈ token.zipIdx.map Prod.fst, permitted byte := by
    simp only [find?_eq_none, List.forall_mem_map, not_eq_true', not_eq_false]
  rw [zipIdx_map_fst] at hall
  rw [← hall, checkToken]
  cases token.zipIdx.find? fun e => !permitted e.1 <;> simp

theorem encoded_splitValue : encoded ⟨(splitValue token).1, (splitValue token).2⟩ = token := by
  unfold splitValue
  split
  · next name value hcut => exact (cut_eq_some.mp hcut).1.symm
  · exact append_nil _

theorem splitValue_encoded (h : equals ∉ capability.name) :
    splitValue capability.encoded = (capability.name, capability.value) := by
  obtain ⟨name, value⟩ := capability
  cases value with
  | none => simp only [encoded, splitValue, elim_none, append_nil, cut_eq_none.mpr h]
  | some value => simp only [encoded, splitValue, elim_some, cut_eq_some.mpr ⟨rfl, h⟩]

theorem encoded_ne_nil (h : capability.name ≠ []) : capability.encoded ≠ [] :=
  fun hnil => h (append_eq_nil_iff.mp hnil).1

theorem parseWithSpaces_ok {token : Bytes} {allowValueSpaces : Bool} :
    parseWithSpaces token limits allowValueSpaces = .ok capability ↔
      token = capability.encoded ∧ capability.Printable allowValueSpaces ∧
        token.length ≤ limits.maxCapabilityBytes := by
  constructor
  · intro h
    simp only [parseWithSpaces, bind_eq_ok, refuseIf_eq_ok, pure_eq_ok, checkToken_ok] at h
    obtain ⟨-, -, -, hlen, -, hname, -, hbytes, ⟨⟩, hvalue, rfl⟩ := h
    refine ⟨(encoded_splitValue token).symm, ⟨hname, hbytes, ?_⟩, Nat.le_of_not_lt hlen⟩
    intro value hsome
    have hsome : (splitValue token).2 = some value := hsome
    rw [hsome, elim_some, checkToken_ok] at hvalue
    exact hvalue
  · rintro ⟨rfl, ⟨hname, hbytes, hvalue⟩, hlen⟩
    have hequals : equals ∉ capability.name := by
      intro hmem
      exact absurd (hbytes equals hmem) (by decide)
    simp only [parseWithSpaces, bind_eq_ok, refuseIf_eq_ok, pure_eq_ok, checkToken_ok,
      splitValue_encoded hequals]
    refine ⟨⟨⟩, encoded_ne_nil hname, ⟨⟩, Nat.not_lt.mpr hlen, ⟨⟩, hname, ⟨⟩, hbytes, ⟨⟩,
      ?_, trivial⟩
    cases hsome : capability.value with
    | none => rfl
    | some value => exact checkToken_ok.mpr (hvalue value hsome)

/-- A token holds printable bytes only. -/
theorem Printable.encoded_bytes (h : capability.Printable false) :
    ∀ byte ∈ capability.encoded, 0x21 ≤ byte ∧ byte ≤ 0x7e := by
  intro byte hmem
  rcases mem_append.mp hmem with hname | hvalue
  · have hbyte := h.name_bytes byte hname
    simp only [isNameByte, and_eq_true, decide_eq_true_eq] at hbyte
    exact hbyte.1
  · cases hsome : capability.value with
    | none => simp [hsome] at hvalue
    | some value =>
      rw [hsome, elim_some, mem_cons] at hvalue
      rcases hvalue with rfl | hvalue
      · decide
      · have hbyte := h.value_bytes value hsome byte hvalue
        simpa [isValueByte] using hbyte

end Capability

/-! ### Lists -/

/-- Capabilities in the order of the wire, each name once. -/
@[ext] structure Capabilities where
  entries : List Capability
  distinct : (entries.map Capability.name).Nodup

namespace Capabilities

def empty : Capabilities := ⟨[], nodup_nil⟩

def insert (capabilities : Capabilities) (capability : Capability) (limits : WireLimits) :
    Except WireError Capabilities :=
  if capabilities.entries.length = limits.maxCapabilities then
    .error (.tooManyCapabilities limits.maxCapabilities)
  else if h : capability.name ∈ capabilities.entries.map Capability.name then
    .error (.duplicateCapability capability.name)
  else
    .ok ⟨capabilities.entries ++ [capability], by
      rw [map_append, map_singleton]
      exact capabilities.distinct.append (nodup_singleton _) (by simpa using h)⟩

def contains (capabilities : Capabilities) (name : Bytes) : Bool :=
  capabilities.entries.any fun entry => entry.name = name

/-- Read one token of a space-separated list. -/
def pushToken (limits : WireLimits) (capabilities : Capabilities) (token : Bytes) :
    Except WireError Capabilities := do
  refuseIf (token = []) .emptyCapability
  let capability ← Capability.parse token limits
  capabilities.insert capability limits

/-- Tokens separated by single spaces, after at most one leading space. -/
def parseV1 (tokens : Bytes) (limits : WireLimits) : Except WireError Capabilities :=
  (((tokens.dropPrefix? [space]).getD tokens).splitOn space).foldlM (pushToken limits) empty

/-- The list as the encoders write it. -/
def encodedList (capabilities : Capabilities) : Bytes :=
  [space].intercalate (capabilities.entries.map Capability.encoded)

variable {capabilities : Capabilities}

theorem insert_ok {capabilities' : Capabilities} :
    capabilities.insert capability limits = .ok capabilities' ↔
      capabilities.entries.length ≠ limits.maxCapabilities ∧
        capability.name ∉ capabilities.entries.map Capability.name ∧
        capabilities'.entries = capabilities.entries ++ [capability] := by
  unfold insert
  split_ifs with hlen hname
  · simp [hlen]
  · simp [hname]
  · simp [hlen, hname, Capabilities.ext_iff, eq_comm]

theorem pushToken_ok {capabilities' : Capabilities} {token : Bytes} :
    pushToken limits capabilities token = .ok capabilities' ↔
      ∃ capability : Capability, token = capability.encoded ∧ capability.Printable false ∧
        token.length ≤ limits.maxCapabilityBytes ∧
        capabilities.insert capability limits = .ok capabilities' := by
  simp only [pushToken, Capability.parse, bind_eq_ok, refuseIf_eq_ok,
    Capability.parseWithSpaces_ok]
  constructor
  · rintro ⟨⟨⟩, -, capability, ⟨htoken, hprint, hlen⟩, hins⟩
    exact ⟨capability, htoken, hprint, hlen, hins⟩
  · rintro ⟨capability, rfl, hprint, hlen, hins⟩
    exact ⟨⟨⟩, Capability.encoded_ne_nil hprint.name_ne_nil, capability, ⟨rfl, hprint, hlen⟩, hins⟩

/-- The entries of a parsed list are printable. -/
theorem parseV1_printable {tokens : Bytes} (h : parseV1 tokens limits = .ok capabilities) :
    ∀ capability ∈ capabilities.entries, capability.Printable false := by
  refine foldlM_induction
    (P := fun _ caps => ∀ capability ∈ caps.entries, capability.Printable false)
    h (by simp [empty]) ?_
  intro done token caps caps' _ hprint hpush
  obtain ⟨capability, -, hnew, -, hins⟩ := pushToken_ok.mp hpush
  obtain ⟨-, -, hentr⟩ := insert_ok.mp hins
  intro c hmem
  rw [hentr, mem_append, mem_singleton] at hmem
  rcases hmem with hmem | rfl
  · exact hprint c hmem
  · exact hnew

/-- No list of tokens is empty. -/
theorem parseV1_ne_nil {tokens : Bytes} (h : parseV1 tokens limits = .ok capabilities) :
    capabilities.entries ≠ [] := by
  have hgrown : ((tokens.dropPrefix? [space]).getD tokens).splitOn space ≠ [] →
      capabilities.entries ≠ [] := by
    refine foldlM_induction (P := fun done caps => done ≠ [] → caps.entries ≠ []) h
      (absurd rfl) ?_
    intro done token caps caps' _ _ hpush _
    obtain ⟨capability, -, -, -, hins⟩ := pushToken_ok.mp hpush
    rw [(insert_ok.mp hins).2.2]
    exact append_ne_nil_of_right_ne_nil _ (cons_ne_nil _ _)
  exact hgrown (splitOn_ne_nil _ _)

/-- Reading the tokens of a list that the limits admit builds the list. -/
theorem foldlM_pushToken (hprint : ∀ c ∈ capabilities.entries, c.Printable false)
    (hsize : ∀ c ∈ capabilities.entries, c.encoded.length ≤ limits.maxCapabilityBytes)
    (hcount : capabilities.entries.length ≤ limits.maxCapabilities) :
    (capabilities.entries.map Capability.encoded).foldlM (pushToken limits) empty
      = .ok capabilities := by
  -- generalise over the entries already read
  suffices aux : ∀ (rest : List Capability) (read : Capabilities),
      capabilities.entries = read.entries ++ rest →
      (rest.map Capability.encoded).foldlM (pushToken limits) read = .ok capabilities by
    exact aux capabilities.entries empty rfl
  intro rest
  induction rest with
  | nil =>
    intro read hentr
    rw [append_nil] at hentr
    obtain rfl := Capabilities.ext hentr
    rfl
  | cons c rest ih =>
    intro read hentr
    have hmem : c ∈ capabilities.entries := by simp [hentr]
    have hdist := capabilities.distinct
    rw [hentr, append_cons, map_append] at hdist
    have hread : ((read.entries ++ [c]).map Capability.name).Nodup := hdist.of_append_left
    have hfresh : c.name ∉ read.entries.map Capability.name := by
      rw [map_append, map_singleton, nodup_append] at hread
      exact fun hin => hread.2.2 _ hin _ (by simp) rfl
    have hroom : read.entries.length ≠ limits.maxCapabilities := by
      have hlen := congrArg length hentr
      simp only [length_append, length_cons] at hlen
      omega
    rw [map_cons, foldlM_cons_ok]
    refine ⟨⟨read.entries ++ [c], hread⟩, ?_, ih _ (by simp [hentr])⟩
    rw [pushToken_ok]
    exact ⟨c, rfl, hprint c hmem, hsize c hmem, insert_ok.mpr ⟨hroom, hfresh, rfl⟩⟩

/-- A written list is read back. -/
theorem parseV1_encodedList (hne : capabilities.entries ≠ [])
    (hprint : ∀ c ∈ capabilities.entries, c.Printable false)
    (hsize : ∀ c ∈ capabilities.entries, c.encoded.length ≤ limits.maxCapabilityBytes)
    (hcount : capabilities.entries.length ≤ limits.maxCapabilities) :
    parseV1 capabilities.encodedList limits = .ok capabilities := by
  have hspace : ∀ token ∈ capabilities.entries.map Capability.encoded, space ∉ token :=
    forall_mem_map.mpr fun c hc hin =>
      absurd ((hprint c hc).encoded_bytes space hin).1 (by decide)
  have hsplit : capabilities.encodedList.splitOn space
      = capabilities.entries.map Capability.encoded :=
    splitOn_intercalate space hspace (by simpa using hne)
  -- no leading space: the first token is not empty
  have hstrip : capabilities.encodedList.dropPrefix? [space] = none := by
    cases hdrop : capabilities.encodedList.dropPrefix? [space] with
    | none => rfl
    | some rest =>
      obtain ⟨lead, hlist, heq⟩ := dropPrefix?_eq_some_iff.mp hdrop
      obtain rfl := eq_of_beq heq
      rw [hlist, singleton_append, splitOn_cons_eq_if_modifyHead,
        if_pos (beq_self_eq_true space)] at hsplit
      obtain ⟨c, hc, hnil⟩ := mem_map.mp (hsplit ▸ mem_cons_self)
      exact absurd hnil (Capability.encoded_ne_nil (hprint c hc).name_ne_nil)
  rw [parseV1, hstrip, getD_none, hsplit]
  exact foldlM_pushToken hprint hsize hcount

end Capabilities

end Frankengit.Wire
