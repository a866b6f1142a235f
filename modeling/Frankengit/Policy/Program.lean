/-
Frankengit/Policy/Program.lean

Policy programs (`fgit-policy`, `program.rs`): predicates over the facts of a
request, rules, and compiled policies.

The leaves of a predicate that look at a fact are a type of their own,
`Test`; its variants and those of `Predicate` are the source's, in the
source's order.  Predicates are ordered as the source derives it: by variant,
then field by field, operands as lists.  That is the order of their
listings in preorder (`Predicate.key`), in which the end of an operand list
comes before any operand.
-/
import Frankengit.Policy.Basis
import Frankengit.Policy.Glob

namespace Frankengit.Policy

open Sorted List Function

/-! ### Decisions and outcomes -/

inductive Decision where
  | allow | deny
deriving DecidableEq

def maxDenyReasonLen : ℕ := 256

/-- A text's longest prefix of at most `stop` bytes that ends between two
characters. -/
def charPrefix (text : Bytes) : ℕ → Bytes
  | 0 => []
  | stop + 1 =>
    -- a byte `10xxxxxx` continues a character
    if text[stop + 1]?.any fun byte => 0x80 ≤ byte && byte < 0xc0 then charPrefix text stop
    else text.take (stop + 1)

structure DenyReason where
  text : Bytes
deriving DecidableEq

def DenyReason.newTruncating (text : Bytes) : DenyReason :=
  ⟨charPrefix text (min text.length maxDenyReasonLen)⟩

inductive RuleOutcome where
  | allow
  | deny (reason : DenyReason)
deriving DecidableEq

/-! ### Comparisons and selectors -/

inductive Compare where
  | equal | less | lessOrEqual | greater | greaterOrEqual
deriving DecidableEq

namespace Compare

def holds : Compare → ℕ → ℕ → Bool
  | equal, left, right => left = right
  | less, left, right => left < right
  | lessOrEqual, left, right => left ≤ right
  | greater, left, right => left > right
  | greaterOrEqual, left, right => left ≥ right

def rank : Compare → ℕ
  | equal => 0
  | less => 1
  | lessOrEqual => 2
  | greater => 3
  | greaterOrEqual => 4

theorem rank_injective : Injective rank := by
  intro a b h
  cases a <;> cases b <;> first | rfl | cases h

end Compare

inductive ValueKind where
  | text | updateKind | principalKind | authentication | labelSet | boolean
deriving DecidableEq

def ValueKind.admits : ValueKind → String
  | text => "`==`, `!=`, `in`, and `matches`"
  | updateKind | principalKind => "`==`, `!=`, and `in`"
  | authentication => "`==`, `!=`, `in`, `<`, `<=`, `>`, and `>=`"
  | labelSet => "`contains`"
  | boolean => "no operator; write it bare or under `not`"

inductive Selector where
  | refName | refScope | refUpdate | refForceRequested | actorId | actorSnapshot | actorKind
  | actorAuthentication | actorTeams | actorCapabilities
deriving DecidableEq

namespace Selector

def all : List Selector :=
  [refName, refScope, refUpdate, refForceRequested, actorId, actorSnapshot, actorKind,
    actorAuthentication, actorTeams, actorCapabilities]

def token : Selector → Bytes
  | refName => ascii "ref.name"
  | refScope => ascii "ref.scope"
  | refUpdate => ascii "ref.update"
  | refForceRequested => ascii "ref.force_requested"
  | actorId => ascii "actor.id"
  | actorSnapshot => ascii "actor.snapshot"
  | actorKind => ascii "actor.kind"
  | actorAuthentication => ascii "actor.authentication"
  | actorTeams => ascii "actor.teams"
  | actorCapabilities => ascii "actor.capabilities"

def fromToken (text : Bytes) : Option Selector := all.find? fun selector => selector.token = text

def valueKind : Selector → ValueKind
  | refName | refScope | actorId | actorSnapshot => .text
  | refUpdate => .updateKind
  | refForceRequested => .boolean
  | actorKind => .principalKind
  | actorAuthentication => .authentication
  | actorTeams | actorCapabilities => .labelSet

def rank : Selector → ℕ
  | refName => 0
  | refScope => 1
  | refUpdate => 2
  | refForceRequested => 3
  | actorId => 4
  | actorSnapshot => 5
  | actorKind => 6
  | actorAuthentication => 7
  | actorTeams => 8
  | actorCapabilities => 9

theorem rank_injective : Injective rank := by
  intro a b h
  cases a <;> cases b <;> first | rfl | cases h

end Selector

/-- A text a policy compares with, as its bytes. -/
@[ext] structure TextLiteral where
  bytes : Bytes
deriving DecidableEq

namespace TextLiteral

def key (text : TextLiteral) : List ℕ := text.bytes.map UInt8.toNat

theorem key_injective : Injective key :=
  fun _ _ h => TextLiteral.ext (RefPattern.toNat_map_injective h)

instance : LinearOrder TextLiteral := LinearOrder.lift' key key_injective

end TextLiteral

/-! ### Tests -/

/-- One look at a fact. -/
inductive Test where
  | textEquals (selector : Selector) (value : TextLiteral)
  | textIn (selector : Selector) (values : List TextLiteral)
  | textMatches (selector : Selector) (pattern : RefPattern)
  | updateKindEquals (kind : RefUpdateKind)
  | updateKindIn (kinds : List RefUpdateKind)
  | principalKindEquals (kind : PrincipalKind)
  | principalKindIn (kinds : List PrincipalKind)
  | authenticationCompare (operator : Compare) (value : AuthenticationStrength)
  | labelContains (selector : Selector) (label : LabelName)
  | forceRequested
  | aggregateCompare (name : AggregateName) (operator : Compare) (value : ℕ)
  | evidenceAccepted (kind : EvidenceKind)

namespace Test

/-- A test's variant and fields, in the order they are compared. -/
def key : Test → List (List ℕ)
  | textEquals selector value => [[5], [selector.rank], value.key]
  | textIn selector values => [6] :: [selector.rank] :: values.map TextLiteral.key
  | textMatches selector pattern => [7] :: [selector.rank] :: pattern.key
  | updateKindEquals kind => [[8], [kind.rank]]
  | updateKindIn kinds => [9] :: kinds.map fun kind => [kind.rank]
  | principalKindEquals kind => [[10], [kind.rank]]
  | principalKindIn kinds => [11] :: kinds.map fun kind => [kind.rank]
  | authenticationCompare operator value => [[12], [operator.rank], [value.rank]]
  | labelContains selector label => [[13], [selector.rank], label.slug.key]
  | forceRequested => [[14]]
  | aggregateCompare name operator value => [[15], name.slug.key, [operator.rank], [value]]
  | evidenceAccepted kind => [[16], kind.slug.key]

theorem key_injective : Injective key := by
  have htexts : Injective (map TextLiteral.key) :=
    map_injective_iff.mpr TextLiteral.key_injective
  have hupds : Injective (map fun kind : RefUpdateKind => [kind.rank]) :=
    map_injective_iff.mpr fun _ _ h => RefUpdateKind.rank_injective (cons.inj h).1
  have hprins : Injective (map fun kind : PrincipalKind => [kind.rank]) :=
    map_injective_iff.mpr fun _ _ h => PrincipalKind.rank_injective (cons.inj h).1
  intro a b h
  cases a <;> cases b <;> simp only [key, cons.injEq, Nat.reduceEqDiff, false_and] at h
  all_goals
    simp_all [Selector.rank_injective.eq_iff, TextLiteral.key_injective.eq_iff,
      RefPattern.key_injective.eq_iff, RefUpdateKind.rank_injective.eq_iff,
      PrincipalKind.rank_injective.eq_iff, Compare.rank_injective.eq_iff,
      AuthenticationStrength.rank_injective.eq_iff, htexts.eq_iff, hupds.eq_iff,
      hprins.eq_iff, Label.key_eq_iff]

/-- The variants of a test come after those of the connectives. -/
theorem key_head (t : Test) : ∃ n rest, t.key = [n + 5] :: rest := by
  cases t <;> exact ⟨_, _, rfl⟩

theorem key_ne {t : Test} {n : ℕ} {rest : List (List ℕ)} (hn : n < 5) : t.key ≠ [n] :: rest := by
  obtain ⟨m, rest', ht⟩ := t.key_head
  simp only [ht, ne_eq, cons.injEq, not_and]
  omega

theorem ne_key {t : Test} {n : ℕ} {rest : List (List ℕ)} (hn : n < 5) : [n] :: rest ≠ t.key :=
  (key_ne hn).symm

end Test

/-! ### Predicates -/

inductive Predicate where
  | always
  | never
  | all (operands : List Predicate)
  | any (operands : List Predicate)
  | not (inner : Predicate)
  | test (test : Test)

variable (p : Predicate)

namespace Predicate

mutual

/-- The listing of a predicate in preorder; the empty label ends a list of operands. -/
def key : Predicate → List (List (List ℕ))
  | always => [[[0]]]
  | never => [[[1]]]
  | all operands => [[2]] :: (keys operands ++ [[]])
  | any operands => [[3]] :: (keys operands ++ [[]])
  | not inner => [[4]] :: key inner
  | test t => [t.key]

def keys : List Predicate → List (List (List ℕ))
  | [] => []
  | operand :: rest => key operand ++ keys rest

end

/-- A listing starts with a variant. -/
theorem key_head : ∃ variant label rest, p.key = (variant :: label) :: rest := by
  cases p with
  | test t =>
    obtain ⟨n, rest, ht⟩ := t.key_head
    exact ⟨_, _, _, by rw [key, ht]⟩
  | _ => exact ⟨_, _, _, rfl⟩

mutual

/-- A listing can be read off the front of a longer one. -/
theorem key_append_inj (p q : Predicate) {s t : List (List (List ℕ))}
    (h : p.key ++ s = q.key ++ t) : p = q ∧ s = t := by
  cases p <;> cases q
  case always.always | never.never => exact ⟨rfl, (cons.inj h).2⟩
  case test.test a b =>
    simp only [key, cons_append, nil_append, cons.injEq] at h
    exact ⟨by rw [Test.key_injective h.1], h.2⟩
  case not.not a b =>
    obtain ⟨rfl, hst⟩ := key_append_inj a b (cons.inj h).2
    exact ⟨rfl, hst⟩
  case all.all ps qs | any.any ps qs =>
    simp only [key, cons_append, append_assoc, cons.injEq, true_and, nil_append] at h
    obtain ⟨rfl, hst⟩ := keys_append_inj ps qs h
    exact ⟨rfl, hst⟩
  -- the first labels of other variants differ
  all_goals simp [key, Test.key_ne, Test.ne_key] at h

theorem keys_append_inj (ps qs : List Predicate) {s t : List (List (List ℕ))}
    (h : keys ps ++ [] :: s = keys qs ++ [] :: t) : ps = qs ∧ s = t := by
  cases ps with
  | nil =>
    cases qs with
    | nil => exact ⟨rfl, (cons.inj h).2⟩
    | cons q qs =>
      obtain ⟨variant, label, rest, hq⟩ := q.key_head
      simp [keys, hq] at h
  | cons p ps =>
    cases qs with
    | nil =>
      obtain ⟨variant, label, rest, hp⟩ := p.key_head
      simp [keys, hp] at h
    | cons q qs =>
      simp only [keys, append_assoc] at h
      obtain ⟨rfl, hrest⟩ := key_append_inj p q h
      obtain ⟨rfl, hst⟩ := keys_append_inj ps qs hrest
      exact ⟨rfl, hst⟩

end

theorem key_injective : Injective key := by
  intro p q h
  exact (key_append_inj p q (s := []) (t := []) (by rw [h])).1

instance : LinearOrder Predicate := LinearOrder.lift' key key_injective

end Predicate

/-! ### Normalization -/

/-- A set of alternatives: none never holds, one is an equality. -/
def alternatives {α : Type} [LinearOrder α] (one : α → Test) (many : List α → Test)
    (values : List α) : Predicate :=
  match sortedUnique values with
  | [] => .never
  | [value] => .test (one value)
  | values => .test (many values)

def Test.normalize : Test → Predicate
  | textIn selector values => alternatives (textEquals selector) (textIn selector) values
  | updateKindIn kinds => alternatives updateKindEquals updateKindIn kinds
  | principalKindIn kinds => alternatives principalKindEquals principalKindIn kinds
  | leaf => .test leaf

variable (conjunction : Bool)

namespace Predicate

/-- The operand that decides a junction. -/
def absorbing : Predicate := if conjunction then never else always

/-- The operand a junction does without. -/
def unit : Predicate := if conjunction then always else never

def junction (operands : List Predicate) : Predicate :=
  if conjunction then all operands else any operands

/-- What a normalized operand adds to a junction: the operands of a junction
of the same kind, itself otherwise. -/
def spread : Predicate → List Predicate
  | all inner => if conjunction then inner else [all inner]
  | any inner => if conjunction then [any inner] else inner
  | other => [other]

/-- A junction of normalized operands: none is the unit, one is itself. -/
def collapse (flattened : List Predicate) : Predicate :=
  match sortedUnique flattened with
  | [] => unit conjunction
  | [operand] => operand
  | operands => junction conjunction operands

def negate : Predicate → Predicate
  | always => never
  | never => always
  | not twice => twice
  | normalized => not normalized

mutual

def normalize : Predicate → Predicate
  | not inner => negate (normalize inner)
  | all operands => normalizeJunction true [] operands
  | any operands => normalizeJunction false [] operands
  | test t => t.normalize
  | leaf => leaf

/-- The loop over the operands of a junction; an absorbing one ends it. -/
def normalizeJunction (conjunction : Bool) (flattened : List Predicate) : List Predicate → Predicate
  | [] => collapse conjunction flattened
  | operand :: rest =>
    if normalize operand = absorbing conjunction then absorbing conjunction
    else if normalize operand = unit conjunction then
      normalizeJunction conjunction flattened rest
    else normalizeJunction conjunction (flattened ++ spread conjunction (normalize operand)) rest

end

/-! ### What a predicate reads -/

mutual

/-- The tests of a predicate, from left to right. -/
def tests : Predicate → List Test
  | all operands => testsOf operands
  | any operands => testsOf operands
  | not inner => tests inner
  | test t => [t]
  | _ => []

def testsOf : List Predicate → List Test
  | [] => []
  | operand :: rest => tests operand ++ testsOf rest

end

def aggregates : List AggregateName :=
  sortedUnique <| p.tests.filterMap fun
    | .aggregateCompare name _ _ => some name
    | _ => none

def evidenceKinds : List EvidenceKind :=
  sortedUnique <| p.tests.filterMap fun
    | .evidenceAccepted kind => some kind
    | _ => none

end Predicate

/-! ### Compiled policies -/

/-- Which issuer a policy takes evidence of a kind from, and how old it may
be. -/
structure EvidenceRequirement where
  kind : EvidenceKind
  issuer : IssuerLabel
  maxAgeSeconds : Option ℕ
deriving DecidableEq

structure CompiledRule where
  id : RuleId
  predicate : Predicate
  outcome : RuleOutcome
deriving DecidableEq

def CompiledRule.new (id : RuleId) (predicate : Predicate) (outcome : RuleOutcome) : CompiledRule :=
  ⟨id, predicate.normalize, outcome⟩

structure CompiledPolicy where
  name : PolicyName
  aggregates : List AggregateName
  evidence : List EvidenceRequirement
  rules : List CompiledRule
  defaultOutcome : RuleOutcome
deriving DecidableEq

namespace CompiledPolicy

def new (name : PolicyName) (aggregates : List AggregateName)
    (evidence : List EvidenceRequirement) (rules : List CompiledRule)
    (defaultOutcome : RuleOutcome) : CompiledPolicy where
  name := name
  aggregates := sortBy id aggregates
  evidence := sortBy EvidenceRequirement.kind evidence
  rules := sortBy CompiledRule.id rules
  defaultOutcome := defaultOutcome

def requirement (policy : CompiledPolicy) (kind : EvidenceKind) : Option EvidenceRequirement :=
  policy.evidence.find? fun requirement => requirement.kind = kind

end CompiledPolicy

end Frankengit.Policy
