/-
Frankengit/Policy/Compile.lean

From a parsed policy to a compiled one (`fgit-policy`, `syntax.rs` and
`compile.rs`).  `resolve` reads the declarations, compiles every rule's
expression in their scope and brings everything into canonical order.
-/
import Frankengit.Policy.Program
import Frankengit.Lib.Fallible

namespace Frankengit.Policy

open Sorted Fallible

/-! ### Parsed policies -/

/-- A value and the offset in the source it was written at. -/
structure Spanned (α : Type) where
  value : α
  offset : ℕ

inductive SourceOperator where
  | equal | notEqual | isMatch | isIn | contains | less | lessOrEqual | greater | greaterOrEqual
deriving DecidableEq

def SourceOperator.token : SourceOperator → String
  | equal => "=="
  | notEqual => "!="
  | isMatch => "matches"
  | isIn => "in"
  | contains => "contains"
  | less => "<"
  | lessOrEqual => "<="
  | greater => ">"
  | greaterOrEqual => ">="

inductive SourceOperand where
  | text (value : Spanned Bytes)
  | integer (value : Spanned ℕ)
  | name (value : Spanned Bytes)
  | set (elements : List SourceOperand) (offset : ℕ)

namespace SourceOperand

def shape : SourceOperand → String
  | text _ => "a quoted string"
  | integer _ => "an integer"
  | name _ => "a bare name"
  | set _ _ => "a set literal"

def textOperand : SourceOperand → Option Bytes
  | text value => some value.value
  | _ => none

def nameOperand : SourceOperand → Option Bytes
  | name value => some value.value
  | _ => none

def setOperand : SourceOperand → Option (List SourceOperand)
  | set elements _ => some elements
  | _ => none

end SourceOperand

open SourceOperand (textOperand nameOperand setOperand)

inductive SourceExpr where
  | literal (value : Bool)
  | all (operands : List SourceExpr)
  | any (operands : List SourceExpr)
  | not (inner : SourceExpr)
  | bare (written : Spanned Bytes)
  | comparison (selector : Spanned Bytes) (operator : SourceOperator) (operatorOffset : ℕ)
      (operand : SourceOperand)
  | evidence (written : Spanned Bytes)

inductive SourceOutcome where
  | allow
  | deny (reason : Bytes)

inductive SourceDeclaration where
  | aggregate (written : Spanned Bytes)
  | evidence (kind issuer : Spanned Bytes) (maxAgeSeconds : Option ℕ)

structure SourceRule where
  id : Spanned Bytes
  predicate : SourceExpr
  outcome : SourceOutcome

structure SourcePolicy where
  name : Spanned Bytes
  declarations : List SourceDeclaration
  rules : List SourceRule
  defaultOutcome : SourceOutcome

/-! ### Refusals and names -/

inductive PolicyCompileRefusal where
  | labelInvalid (offset : ℕ) (field : String) (name : Bytes)
  | unknownSelector (rule selector : Bytes)
  | operatorNotApplicable (rule selector : Bytes) (operator admits : String)
  | operandTypeMismatch (rule selector : Bytes) (expected found : String)
  | unknownEnumLiteral (rule selector literal : Bytes) (admits : String)
  | unknownEvidenceKind (rule kind : Bytes)
  | unknownAggregate (rule name : Bytes)
  | duplicateRuleId (id : Bytes)
  | duplicateDeclaration (kind : String) (name : Bytes)
  | refPatternInvalid (rule pattern : Bytes) (reason : RefPatternRefusal)
  | ruleCountExceeded (observed limit : ℕ)

def keywords : List Bytes :=
  ["policy", "rule", "when", "then", "default", "allow", "deny", "aggregate", "evidence", "issuer",
    "max_age", "and", "or", "not", "in", "matches", "contains", "true", "false"].map ascii

def declaredName {role : LabelRole} (field : String) (written : Spanned Bytes) :
    Except PolicyCompileRefusal (Label role) :=
  if written.value ∈ keywords then .error (.labelInvalid written.offset field written.value)
  else (Label.tryNew written.value).mapError fun _ =>
    .labelInvalid written.offset field written.value

/-! ### Expressions -/

/-- What a policy has declared. -/
structure Scope where
  aggregates : List AggregateName
  evidence : List EvidenceRequirement

variable (scope : Scope)

namespace Scope

def declaresAggregate (name : AggregateName) : Bool := scope.aggregates.contains name

def declaresEvidence (kind : EvidenceKind) : Bool :=
  scope.evidence.any fun requirement => requirement.kind = kind

end Scope

/-- What a written selector stands for. -/
inductive Resolved where
  | fixed (selector : Selector)
  | aggregate (name : AggregateName)

def aggregateDot : Bytes := ascii "aggregate."

variable (rule : Bytes)

def resolveSelector (written : Spanned Bytes) (scope : Scope) :
    Except PolicyCompileRefusal Resolved :=
  match Selector.fromToken written.value with
  | some selector => .ok (.fixed selector)
  | none =>
    if aggregateDot <+: written.value then do
      let suffix := written.value.drop aggregateDot.length
      let name ← declaredName "aggregate name" ⟨suffix, written.offset⟩
      if scope.declaresAggregate name then return .aggregate name
      else throw (.unknownAggregate rule suffix)
    else .error (.unknownSelector rule written.value)

def compareOf : SourceOperator → Option Compare
  | .equal | .notEqual => some .equal
  | .less => some .less
  | .lessOrEqual => some .lessOrEqual
  | .greater => some .greater
  | .greaterOrEqual => some .greaterOrEqual
  | .isMatch | .isIn | .contains => none

def negateIf (operator : SourceOperator) (predicate : Predicate) : Predicate :=
  if operator = .notEqual then .not predicate else predicate

/-- The operators an aggregate admits. -/
def aggregateAdmits : String := "`==`, `!=`, `<`, `<=`, `>`, and `>=`"

variable (selector : Selector)

def notApplicable (operator : SourceOperator) : PolicyCompileRefusal :=
  .operatorNotApplicable rule selector.token operator.token selector.valueKind.admits

def mismatch (expected : String) (operand : SourceOperand) : PolicyCompileRefusal :=
  .operandTypeMismatch rule selector.token expected operand.shape

/-- An operand of the expected shape. -/
def expect {α : Type} (rule : Bytes) (selector : Selector) (expected : String)
    (shape : SourceOperand → Option α) (operand : SourceOperand) : Except PolicyCompileRefusal α :=
  (shape operand).elim (.error (mismatch rule selector expected operand)) .ok

def compileText (operator : SourceOperator) (operand : SourceOperand) :
    Except PolicyCompileRefusal Predicate :=
  match operator with
  | .equal | .notEqual => do
    let text ← expect rule selector "a quoted string" textOperand operand
    return negateIf operator (.test (.textEquals selector ⟨text⟩))
  | .isMatch => do
    let text ← expect rule selector "a quoted string" textOperand operand
    let pattern ← (RefPattern.compile text).mapError (.refPatternInvalid rule text)
    return .test (.textMatches selector pattern)
  | .isIn => do
    let elements ← expect rule selector "a set of quoted strings" setOperand operand
    let values ← elements.mapM fun element =>
      TextLiteral.mk <$> expect rule selector "a set of quoted strings" textOperand element
    return .test (.textIn selector values)
  | _ => .error (notApplicable rule selector operator)

/-- A literal of an enumeration. -/
def enumLiteral {κ : Type} (rule : Bytes) (selector : Selector) (expected admits : String)
    (fromToken : Bytes → Option κ) (operand : SourceOperand) : Except PolicyCompileRefusal κ := do
  let literal ← expect rule selector expected nameOperand operand
  (fromToken literal).elim (.error (.unknownEnumLiteral rule selector.token literal admits)) .ok

/-- A comparison with literals of an enumeration. -/
def compileEnum {κ : Type} (admits : String) (fromToken : Bytes → Option κ) (one : κ → Test)
    (many : List κ → Test) (rule : Bytes) (selector : Selector) (operator : SourceOperator)
    (operand : SourceOperand) : Except PolicyCompileRefusal Predicate :=
  match operator with
  | .equal | .notEqual => do
    let kind ← enumLiteral rule selector "a bare name" admits fromToken operand
    return negateIf operator (.test (one kind))
  | .isIn => do
    let elements ← expect rule selector "a set of bare names" setOperand operand
    let kinds ← elements.mapM (enumLiteral rule selector "a set of bare names" admits fromToken)
    return .test (many kinds)
  | _ => .error (notApplicable rule selector operator)

def compileUpdateKind :
    Bytes → Selector → SourceOperator → SourceOperand → Except PolicyCompileRefusal Predicate :=
  compileEnum "`create`, `fast_forward`, `non_fast_forward`, `delete`" RefUpdateKind.fromToken
    .updateKindEquals .updateKindIn

def compilePrincipalKind :
    Bytes → Selector → SourceOperator → SourceOperand → Except PolicyCompileRefusal Predicate :=
  compileEnum "`human`, `machine`, `agent`, `service`" PrincipalKind.fromToken
    .principalKindEquals .principalKindIn

def authenticationAdmits : String := "`none`, `single_factor`, `multi_factor`, `hardware_backed`"

/-- Authentication strengths are ordered, and a set of them is a
disjunction. -/
def compileAuthentication (operator : SourceOperator) (operand : SourceOperand) :
    Except PolicyCompileRefusal Predicate :=
  match operator with
  | .isIn => do
    let elements ← expect rule selector "a set of bare names" setOperand operand
    let alternatives ← elements.mapM fun element =>
      (fun value => Predicate.test (.authenticationCompare .equal value)) <$>
        enumLiteral rule selector "a set of bare names" authenticationAdmits
          AuthenticationStrength.fromToken element
    return .any alternatives
  | .isMatch | .contains => .error (notApplicable rule selector operator)
  | _ => do
    let value ← enumLiteral rule selector "a bare name" authenticationAdmits
      AuthenticationStrength.fromToken operand
    match compareOf operator with
    | none => throw (notApplicable rule selector operator)
    | some compare => return negateIf operator (.test (.authenticationCompare compare value))

def compileLabelSet (operator : SourceOperator) (operand : SourceOperand) :
    Except PolicyCompileRefusal Predicate :=
  if operator ≠ .contains then .error (notApplicable rule selector operator)
  else
    match operand with
    | .name written => do
      let label ← declaredName "label" written
      return .test (.labelContains selector label)
    | _ => .error (mismatch rule selector "a bare name" operand)

def compileAggregate (rule selector : Bytes) (name : AggregateName) (operator : SourceOperator)
    (operand : SourceOperand) : Except PolicyCompileRefusal Predicate :=
  match compareOf operator with
  | none => .error (.operatorNotApplicable rule selector operator.token aggregateAdmits)
  | some compare =>
    match operand with
    | .integer value => .ok (negateIf operator (.test (.aggregateCompare name compare value.value)))
    | _ => .error (.operandTypeMismatch rule selector "an integer" operand.shape)

def compileComparison (selector : Spanned Bytes) (operator : SourceOperator)
    (operand : SourceOperand) (scope : Scope) : Except PolicyCompileRefusal Predicate := do
  match ← resolveSelector rule selector scope with
  | .aggregate name => compileAggregate rule selector.value name operator operand
  | .fixed fixed =>
    match fixed.valueKind with
    | .text => compileText rule fixed operator operand
    | .updateKind => compileUpdateKind rule fixed operator operand
    | .principalKind => compilePrincipalKind rule fixed operator operand
    | .authentication => compileAuthentication rule fixed operator operand
    | .labelSet => compileLabelSet rule fixed operator operand
    | .boolean => throw (notApplicable rule fixed operator)

def compileBare (written : Spanned Bytes) (scope : Scope) :
    Except PolicyCompileRefusal Predicate := do
  match ← resolveSelector rule written scope with
  | .fixed .refForceRequested => return .test .forceRequested
  | .fixed selector =>
    throw (.operatorNotApplicable rule selector.token "(no operator)" selector.valueKind.admits)
  | .aggregate _ =>
    throw (.operatorNotApplicable rule written.value "(no operator)" aggregateAdmits)

def compileEvidence (written : Spanned Bytes) (scope : Scope) :
    Except PolicyCompileRefusal Predicate := do
  let kind ← declaredName "evidence kind" written
  if scope.declaresEvidence kind then return .test (.evidenceAccepted kind)
  else throw (.unknownEvidenceKind rule written.value)

mutual

def compileExpr (rule : Bytes) (scope : Scope) :
    SourceExpr → Except PolicyCompileRefusal Predicate
  | .literal true => .ok .always
  | .literal false => .ok .never
  | .all operands => .all <$> compileOperands rule scope operands
  | .any operands => .any <$> compileOperands rule scope operands
  | .not inner => .not <$> compileExpr rule scope inner
  | .bare written => compileBare rule written scope
  | .comparison selector operator _ operand =>
    compileComparison rule selector operator operand scope
  | .evidence written => compileEvidence rule written scope

def compileOperands (rule : Bytes) (scope : Scope) :
    List SourceExpr → Except PolicyCompileRefusal (List Predicate)
  | [] => .ok []
  | operand :: rest => do
    let compiled ← compileExpr rule scope operand
    let others ← compileOperands rule scope rest
    return compiled :: others

end

/-! ### Policies -/

def SourceOutcome.compile : SourceOutcome → RuleOutcome
  | allow => .allow
  | deny reason => .deny (.newTruncating reason)

def compileRule (scope : Scope) (rule : SourceRule) : Except PolicyCompileRefusal CompiledRule := do
  let id ← declaredName "rule identifier" rule.id
  let predicate ← compileExpr rule.id.value scope rule.predicate
  return CompiledRule.new id predicate rule.outcome.compile

/-- One declaration; a name is declared once. -/
def addDeclaration : SourceDeclaration → Except PolicyCompileRefusal Scope
  | .aggregate written => do
    let aggregate ← declaredName "aggregate name" written
    refuseIf (aggregate ∈ scope.aggregates) (.duplicateDeclaration "aggregate" written.value)
    return { scope with aggregates := scope.aggregates ++ [aggregate] }
  | .evidence kind issuer maxAgeSeconds => do
    let declared ← declaredName "evidence kind" kind
    let issuer ← declaredName "issuer" issuer
    refuseIf (scope.declaresEvidence declared) (.duplicateDeclaration "evidence" kind.value)
    return { scope with evidence := scope.evidence ++ [⟨declared, issuer, maxAgeSeconds⟩] }

/-- One rule; an identifier is used once. -/
def addRule (scope : Scope) (rules : List CompiledRule) (rule : SourceRule) :
    Except PolicyCompileRefusal (List CompiledRule) := do
  let compiled ← compileRule scope rule
  refuseIf (compiled.id ∈ rules.map CompiledRule.id) (.duplicateRuleId rule.id.value)
  return rules ++ [compiled]

def maxRules : ℕ := 1024

def resolve (parsed : SourcePolicy) : Except PolicyCompileRefusal CompiledPolicy := do
  let name ← declaredName "policy name" parsed.name
  let scope ← parsed.declarations.foldlM addDeclaration ⟨[], []⟩
  refuseIf (maxRules < parsed.rules.length) (.ruleCountExceeded parsed.rules.length maxRules)
  let rules ← parsed.rules.foldlM (addRule scope) []
  return CompiledPolicy.new name scope.aggregates scope.evidence rules parsed.defaultOutcome.compile

end Frankengit.Policy
