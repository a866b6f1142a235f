/-
Frankengit/Policy/Canonical.lean

Policies that differ only in spelling compile to the same policy.  Two
expressions are spelled alike if the changes of `Junction.Respell` lead from
one to the other once the offsets are forgotten (`SourceExpr.Alike`); two
policies are alike if their declarations are the same up to order and their
rules are, up to order, alike (`SourcePolicy.Alike`).

An expression's compiled normal form is blind to spelling for the same reason
a predicate's normal form is: it is read off those of its operands
(`canonical_compiled`).  Declarations and rules are collected without
repetitions and then sorted, so their order does not show.
-/
import Frankengit.Policy.Normalize
import Frankengit.Policy.Compile
import Mathlib.Data.List.ReduceOption

namespace Frankengit.Policy

open Sorted Fallible Junction List Option SourceOperand Predicate Policy.Scope EvidenceRequirement
open SourceOperand (textOperand nameOperand setOperand)

/-! ### Forgetting offsets -/

def Spanned.unspan {α : Type} (written : Spanned α) : Spanned α := ⟨written.value, 0⟩

theorem Spanned.unspan_value {α : Type} (written : Spanned α) :
    written.unspan.value = written.value := rfl

mutual

def SourceOperand.unspan : SourceOperand → SourceOperand
  | .text value => .text value.unspan
  | .integer value => .integer value.unspan
  | .name value => .name value.unspan
  | .set elements _ => .set (unspanAll elements) 0

def SourceOperand.unspanAll : List SourceOperand → List SourceOperand
  | [] => []
  | element :: rest => element.unspan :: unspanAll rest

end

mutual

def SourceExpr.unspan : SourceExpr → SourceExpr
  | .literal value => .literal value
  | .all operands => .all (SourceExpr.unspanAll operands)
  | .any operands => .any (SourceExpr.unspanAll operands)
  | .not inner => .not inner.unspan
  | .bare written => .bare written.unspan
  | .comparison selector operator _ operand => .comparison selector.unspan operator 0 operand.unspan
  | .evidence written => .evidence written.unspan

def SourceExpr.unspanAll : List SourceExpr → List SourceExpr
  | [] => []
  | operand :: rest => operand.unspan :: SourceExpr.unspanAll rest

end

def SourceDeclaration.unspan : SourceDeclaration → SourceDeclaration
  | .aggregate written => .aggregate written.unspan
  | .evidence kind issuer maxAgeSeconds => .evidence kind.unspan issuer.unspan maxAgeSeconds

/-! ### Offsets do not decide -/

variable (operand : SourceOperand)

section Offsets

variable {role : LabelRole} {rule : Bytes} {scope : Scope} {selector : Selector}

theorem declaredName_unspan (field : String) (written : Spanned Bytes) :
    Agree (declaredName field written.unspan : Except _ (Label role))
      (declaredName field written) := by
  unfold declaredName
  rw [Spanned.unspan_value]
  split
  · exact .error
  · exact .mapError

theorem shape_unspan : operand.unspan.shape = operand.shape := by
  cases operand <;> rw [unspan] <;> rfl

theorem textOperand_unspan : textOperand operand.unspan = textOperand operand := by
  cases operand <;> rw [unspan] <;> rfl

theorem nameOperand_unspan : nameOperand operand.unspan = nameOperand operand := by
  cases operand <;> rw [unspan] <;> rfl

theorem unspanAll_eq (elements : List SourceOperand) :
    unspanAll elements = elements.map unspan := by
  induction elements with
  | nil => rw [unspanAll, map_nil]
  | cons element rest ih => rw [unspanAll, map_cons, ih]

theorem setOperand_unspan : setOperand operand.unspan = (setOperand operand).map (map unspan) := by
  cases operand with
  | set elements offset =>
    rw [unspan, unspanAll_eq]
    rfl
  | _ =>
    rfl

theorem expect_unspan {α : Type} {expected : String} {shape : SourceOperand → Option α}
    (hshape : ∀ operand, shape operand.unspan = shape operand) (operand : SourceOperand) :
    expect rule selector expected shape operand.unspan
      = expect rule selector expected shape operand := by
  rw [expect, expect, hshape, mismatch, mismatch, shape_unspan]

/-- A loop over the elements of a set does not see their offsets. -/
theorem expect_set_unspan {α β : Type} {expected : String}
    {f : SourceOperand → Except PolicyCompileRefusal α}
    (hf : ∀ operand, f operand.unspan = f operand)
    (finish : List α → Except PolicyCompileRefusal β) (operand : SourceOperand) :
    (expect rule selector expected setOperand operand.unspan >>= fun elements =>
        elements.mapM f >>= finish)
      = expect rule selector expected setOperand operand >>= fun elements =>
        elements.mapM f >>= finish := by
  have hloop : ∀ elements : List SourceOperand, (elements.map unspan).mapM f = elements.mapM f := by
    intro elements
    induction elements with
    | nil => rfl
    | cons element rest ih => rw [map_cons, mapM_cons, mapM_cons, ih, hf]
  rw [expect, expect, setOperand_unspan, mismatch, mismatch, shape_unspan]
  cases setOperand operand with
  | none => rfl
  | some elements =>
    show (elements.map unspan).mapM f >>= finish = elements.mapM f >>= finish
    rw [hloop]

theorem enumLiteral_unspan {κ : Type} {expected admits : String} {fromToken : Bytes → Option κ}
    (operand : SourceOperand) : enumLiteral rule selector expected admits fromToken operand.unspan
      = enumLiteral rule selector expected admits fromToken operand := by
  rw [enumLiteral, enumLiteral, expect_unspan nameOperand_unspan]

section

variable (operator : SourceOperator)

variable (operand : SourceOperand)

theorem compileText_unspan : compileText rule selector operator operand.unspan
      = compileText rule selector operator operand := by
  cases operator with
  | isIn =>
    refine expect_set_unspan (fun element => ?_) _ operand
    rw [expect_unspan textOperand_unspan]
  | equal | notEqual | isMatch => simp only [compileText, expect_unspan textOperand_unspan]
  | _ => rfl

theorem compileEnum_unspan {κ : Type} {admits : String} {fromToken : Bytes → Option κ}
    {one : κ → Test} {many : List κ → Test} :
    compileEnum admits fromToken one many rule selector operator operand.unspan
      = compileEnum admits fromToken one many rule selector operator operand := by
  cases operator with
  | isIn => exact expect_set_unspan (fun element => enumLiteral_unspan element) _ operand
  | equal | notEqual => simp only [compileEnum, enumLiteral_unspan]
  | _ => rfl

theorem compileAuthentication_unspan : compileAuthentication rule selector operator operand.unspan
      = compileAuthentication rule selector operator operand := by
  cases operator with
  | isIn =>
    refine expect_set_unspan (fun element => ?_) _ operand
    rw [enumLiteral_unspan]
  | _ => simp only [compileAuthentication, enumLiteral_unspan]

theorem compileLabelSet_unspan : Agree (compileLabelSet rule selector operator operand.unspan)
      (compileLabelSet rule selector operator operand) := by
  unfold compileLabelSet
  split
  · exact .error
  · cases operand with
    | name written =>
      exact (declaredName_unspan _ written).bind fun _ => .of_eq rfl
    | _ =>
      exact .error

theorem compileAggregate_unspan {name : AggregateName} {written : Bytes} :
    compileAggregate rule written name operator operand.unspan
      = compileAggregate rule written name operator operand := by
  cases operand <;> rw [unspan] <;> rfl

end

theorem resolveSelector_unspan (written : Spanned Bytes) :
    Agree (resolveSelector rule written.unspan scope) (resolveSelector rule written scope) := by
  unfold resolveSelector
  rw [Spanned.unspan_value]
  split
  · exact .of_eq rfl
  · split
    · exact (declaredName_unspan _ ⟨_, written.offset⟩).bind fun _ => .of_eq rfl
    · exact .of_eq rfl

theorem compileComparison_unspan (written : Spanned Bytes) (operator : SourceOperator)
    (operand : SourceOperand) :
    Agree (compileComparison rule written.unspan operator operand.unspan scope)
      (compileComparison rule written operator operand scope) := by
  refine (resolveSelector_unspan written).bind fun resolved => ?_
  cases resolved with
  | aggregate name => exact .of_eq (compileAggregate_unspan operator operand)
  | fixed fixed =>
    dsimp only
    cases fixed.valueKind with
    | text => exact .of_eq (compileText_unspan operator operand)
    | updateKind | principalKind => exact .of_eq (compileEnum_unspan operator operand)
    | authentication => exact .of_eq (compileAuthentication_unspan operator operand)
    | labelSet => exact compileLabelSet_unspan operator operand
    | boolean => exact .of_eq rfl

mutual

theorem compileExpr_unspan (expr : SourceExpr) :
    Agree (compileExpr rule scope expr.unspan) (compileExpr rule scope expr) := by
  cases expr with
  | literal value =>
    exact .of_eq rfl
  | all operands | any operands =>
    exact (compileOperands_unspan operands).map
  | not inner =>
    exact (compileExpr_unspan inner).map
  | bare written =>
    exact (resolveSelector_unspan written).bind fun _ => .of_eq rfl
  | comparison selector operator offset operand =>
    exact compileComparison_unspan selector operator operand
  | evidence written =>
    exact (declaredName_unspan _ written).bind fun _ => .of_eq rfl

theorem compileOperands_unspan (operands : List SourceExpr) :
    Agree (compileOperands rule scope (SourceExpr.unspanAll operands))
      (compileOperands rule scope operands) := by
  cases operands with
  | nil =>
    exact .of_eq rfl
  | cons operand rest =>
    exact (compileExpr_unspan operand).bind fun _ =>
      (compileOperands_unspan rest).bind fun _ => .of_eq rfl

end

end Offsets

/-! ### Expressions up to spelling -/

namespace SourceExpr

/-- How expressions are built. -/
def connectives : Connectives SourceExpr where
  junction c operands := if c then .all operands else .any operands
  unit := .literal
  not := .not

/-- Spelled alike, wherever they were written. -/
def Alike (a b : SourceExpr) : Prop := Respelled connectives a.unspan b.unspan

/-- The normal form of a compiled expression. -/
def compiled (rule : Bytes) (scope : Scope) (expr : SourceExpr) : Option Predicate :=
  (compileExpr rule scope expr).toOption.map normalize

variable {rule : Bytes} {scope : Scope}

theorem compiled_unspan (expr : SourceExpr) :
    compiled rule scope expr.unspan = compiled rule scope expr := by
  rw [compiled, compiled, (compileExpr_unspan expr).toOption_eq]

theorem normal_compiled {expr : SourceExpr} {n : Predicate}
    (h : compiled rule scope expr = some n) : n.Normal := by
  obtain ⟨p, -, rfl⟩ := map_eq_some_iff.mp h
  exact p.normal_normalize

/-- A junction of what may not have compiled. -/
def assemble (c : Bool) (ns : List (Option Predicate)) : Option Predicate :=
  if none ∈ ns then none else some (.assemble c ns.reduceOption)

theorem compileOperands_eq (operands : List SourceExpr) :
    (compileOperands rule scope operands).toOption.map (map normalize) =
      if none ∈ operands.map (compiled rule scope) then none
      else some (operands.map (compiled rule scope)).reduceOption := by
  induction operands with
  | nil => rfl
  | cons operand rest ih =>
    rw [compileOperands]
    cases hoperand : compileExpr rule scope operand with
    | error e => simp [compiled, hoperand, Except.toOption, bind, Except.bind]
    | ok p =>
      cases hrest : compileOperands rule scope rest with
      | error e =>
        have hnone : none ∈ rest.map (compiled rule scope) := by
          by_contra hnot
          rw [hrest, if_neg hnot] at ih
          cases ih
        rw [if_pos (by simp [mem_map.mp hnone])]
        rfl
      | ok ps =>
        have hsome : none ∉ rest.map (compiled rule scope) := by
          intro hnone
          rw [hrest, if_pos hnone] at ih
          cases ih
        have hp : compiled rule scope operand = some p.normalize := by
          rw [compiled, hoperand]
          rfl
        rw [hrest, if_neg hsome] at ih
        rw [map_cons, hp, reduceOption_cons_of_some, ← some.inj ih, if_neg (by simpa using hsome)]
        rfl

theorem compiled_junction (c : Bool) (operands : List SourceExpr) :
    compiled rule scope (connectives.junction c operands) =
      assemble c (operands.map (compiled rule scope)) := by
  have hjunction : compiled rule scope (connectives.junction c operands) =
      ((compileOperands rule scope operands).toOption.map (map normalize)).map (.assemble c) := by
    have hcompile : compileExpr rule scope (connectives.junction c operands) =
        junction c <$> compileOperands rule scope operands := by
      cases c
      · exact compileExpr.eq_4 rule scope operands
      · exact compileExpr.eq_3 rule scope operands
    rw [compiled, hcompile]
    cases compileOperands rule scope operands with
    | error e => rfl
    | ok ps => exact congrArg some (normalize_junction c ps)
  rw [hjunction, compileOperands_eq, assemble]
  split <;> rfl

theorem compiled_not (expr : SourceExpr) :
    compiled rule scope (.not expr) = (compiled rule scope expr).map negate := by
  rw [compiled, compiled, compileExpr]
  cases compileExpr rule scope expr with
  | error e => rfl
  | ok p => exact congrArg some (normalize_not p)

theorem compiled_unit (c : Bool) : compiled rule scope (connectives.unit c) = some (.unit c) := by
  cases c <;> rfl

theorem assemble_congr (c : Bool) {ns ms : List (Option Predicate)} (h : ∀ n, n ∈ ns ↔ n ∈ ms) :
    assemble c ns = assemble c ms := by
  have heq : Predicate.assemble c ns.reduceOption = Predicate.assemble c ms.reduceOption := by
    apply Predicate.assemble_congr
    intro x
    rw [reduceOption_mem_iff, reduceOption_mem_iff, h]
  rw [assemble, assemble, heq]
  simp only [h]

theorem assemble_group (c : Bool) {before inner after : List (Option Predicate)}
    (h : ∀ n, some n ∈ inner → n.Normal) :
    assemble c (before ++ assemble c inner :: after) = assemble c (before ++ inner ++ after) := by
  by_cases hnone : none ∈ inner
  · have hinner : assemble c inner = none := if_pos hnone
    rw [hinner, assemble, assemble, if_pos (by simp), if_pos (by simp [hnone])]
  · have hinner : assemble c inner = some (.assemble c inner.reduceOption) := if_neg hnone
    have hgroup : Predicate.assemble c
          (before ++ some (.assemble c inner.reduceOption) :: after).reduceOption
        = Predicate.assemble c (before ++ inner ++ after).reduceOption := by
      rw [reduceOption_append, reduceOption_cons_of_some, reduceOption_append, reduceOption_append]
      exact Predicate.assemble_group c _ _ fun n hn => h n (reduceOption_mem_iff.mp hn)
    rw [hinner, assemble, assemble, hgroup]
    simp [hnone]

/-- **The compiled normal form does not depend on the spelling.** -/
theorem canonical_compiled (rule : Bytes) (scope : Scope) :
    Canonical connectives (compiled rule scope) where
  junction_congr c l m h := by
    rw [compiled_junction, compiled_junction]
    exact assemble_congr c h
  group c before inner after := by
    rw [compiled_junction, compiled_junction, map_append, map_cons, compiled_junction,
      assemble_group c ?_, map_append, map_append]
    intro n hn
    obtain ⟨expr, -, hexpr⟩ := mem_map.mp hn
    exact normal_compiled hexpr
  unit c l := by
    rw [compiled_junction, compiled_junction, map_cons, compiled_unit, assemble, assemble,
      reduceOption_cons_of_some, assemble_unit]
    simp
  not_congr {p q} h := by
    show compiled rule scope (.not p) = compiled rule scope (.not q)
    rw [compiled_not, compiled_not, h]
  not_not p := by
    show compiled rule scope (.not (.not p)) = compiled rule scope p
    rw [compiled_not, compiled_not]
    cases hp : compiled rule scope p with
    | none => rfl
    | some n => exact congrArg some (negate_negate (normal_compiled hp))

end SourceExpr

/-! ### Declarations -/

/-- What a declaration declares. -/
def SourceDeclaration.declared :
    SourceDeclaration → Except PolicyCompileRefusal (AggregateName ⊕ EvidenceRequirement)
  | .aggregate written => .inl <$> declaredName "aggregate name" written
  | .evidence kind issuer maxAgeSeconds => do
    let kind ← declaredName "evidence kind" kind
    let issuer ← declaredName "issuer" issuer
    return .inr ⟨kind, issuer, maxAgeSeconds⟩

theorem declared_unspan (declaration : SourceDeclaration) :
    Agree declaration.unspan.declared declaration.declared := by
  cases declaration with
  | aggregate written => exact (declaredName_unspan _ written).map
  | evidence kind issuer maxAgeSeconds =>
    exact (declaredName_unspan _ kind).bind fun _ =>
      (declaredName_unspan _ issuer).bind fun _ => .of_eq rfl

namespace Scope

/-- The scope with further declarations. -/
def extend (scope : Scope) (declared : List (AggregateName ⊕ EvidenceRequirement)) : Scope where
  aggregates := scope.aggregates ++ declared.filterMap Sum.getLeft?
  evidence := scope.evidence ++ declared.filterMap Sum.getRight?

/-- No name is declared twice. -/
structure Distinct (scope : Scope) : Prop where
  aggregates : scope.aggregates.Nodup
  evidence : (scope.evidence.map kind).Nodup

/-- The same declarations in some order. -/
structure Perm (scope scope' : Scope) : Prop where
  aggregates : scope.aggregates.Perm scope'.aggregates
  evidence : scope.evidence.Perm scope'.evidence

variable {scope scope' : Scope}

theorem Perm.distinct (h : Perm scope scope') (hd : scope.Distinct) : scope'.Distinct :=
  ⟨h.aggregates.nodup_iff.mp hd.aggregates, (h.evidence.map _).nodup_iff.mp hd.evidence⟩

theorem extend_perm {xs ys : List (AggregateName ⊕ EvidenceRequirement)} (h : xs.Perm ys) :
    Perm (scope.extend xs) (scope.extend ys) :=
  ⟨(h.filterMap _).append_left _, (h.filterMap _).append_left _⟩

theorem declaresEvidence_iff {kind : EvidenceKind} :
    scope.declaresEvidence kind = true ↔ kind ∈ scope.evidence.map EvidenceRequirement.kind := by
  simp [declaresEvidence]

end Scope

theorem nodup_concat {α : Type} {l : List α} {a : α} : (l ++ [a]).Nodup ↔ l.Nodup ∧ a ∉ l := by
  rw [nodup_append_comm, singleton_append, nodup_cons, and_comm]

variable {scope scope' : Scope}

/-- One declaration adds what it declares, if that is new. -/
theorem addDeclaration_ok {declaration : SourceDeclaration} (hscope : scope.Distinct) :
    addDeclaration scope declaration = .ok scope' ↔
      ∃ x, declaration.declared = .ok x ∧ scope' = scope.extend [x] ∧ scope'.Distinct := by
  cases declaration with
  | aggregate written =>
    simp only [addDeclaration, SourceDeclaration.declared, bind_eq_ok, refuseIf_eq_ok, pure_eq_ok,
      map_eq_ok]
    constructor
    · rintro ⟨name, hname, ⟨⟩, hnew, rfl⟩
      refine ⟨_, ⟨name, hname, rfl⟩, by simp [extend], ?_, hscope.evidence⟩
      exact nodup_concat.mpr ⟨hscope.aggregates, hnew⟩
    · rintro ⟨_, ⟨name, hname, rfl⟩, rfl, hdist⟩
      refine ⟨name, hname, ⟨⟩, ?_, by simp [extend]⟩
      exact (nodup_concat.mp hdist.aggregates).2
  | evidence kind issuer maxAgeSeconds =>
    simp only [addDeclaration, SourceDeclaration.declared, bind_eq_ok, refuseIf_eq_ok, pure_eq_ok,
      declaresEvidence_iff]
    constructor
    · rintro ⟨kind, hkind, issuer, hissuer, ⟨⟩, hnew, rfl⟩
      refine ⟨_, ⟨kind, hkind, issuer, hissuer, rfl⟩, by simp [extend], hscope.aggregates, ?_⟩
      rw [map_append]
      exact nodup_concat.mpr ⟨hscope.evidence, hnew⟩
    · rintro ⟨_, ⟨kind, hkind, issuer, hissuer, rfl⟩, rfl, hdist⟩
      refine ⟨kind, hkind, issuer, hissuer, ⟨⟩, ?_, by simp [extend]⟩
      have hnodup := hdist.evidence
      rw [extend, map_append] at hnodup
      exact (nodup_concat.mp hnodup).2

/-- The declarations declare their list, without repetitions. -/
theorem declarations_ok {declarations : List SourceDeclaration} (hscope : scope.Distinct) :
    declarations.foldlM addDeclaration scope = .ok scope' ↔
      ∃ xs, Forall₂ (fun d x => d.declared = .ok x) declarations xs
        ∧ scope' = scope.extend xs ∧ scope'.Distinct := by
  induction declarations generalizing scope with
  | nil =>
    rw [foldlM_nil, pure_eq_ok]
    simp only [forall₂_nil_left_iff, exists_eq_left, extend, filterMap_nil, append_nil]
    constructor
    · rintro rfl
      exact ⟨rfl, hscope⟩
    · rintro ⟨rfl, -⟩
      rfl
  | cons declaration rest ih =>
    have hextend : ∀ x xs, (scope.extend [x]).extend xs = scope.extend (x :: xs) := by
      intro x xs
      simp only [extend, append_assoc, ← filterMap_append, singleton_append]
    rw [foldlM_cons_ok]
    constructor
    · rintro ⟨mid, hmid, hrest⟩
      obtain ⟨x, hx, rfl, hdist⟩ := (addDeclaration_ok hscope).mp hmid
      obtain ⟨xs, hxs, rfl, hfinal⟩ := (ih hdist).mp hrest
      exact ⟨x :: xs, .cons hx hxs, hextend x xs, hfinal⟩
    · rintro ⟨_, hall, rfl, hfinal⟩
      cases hall with
      | @cons _ x _ xs hx hxs =>
        -- the scope after one declaration is a front part of the last one
        have hdist : (scope.extend [x]).Distinct := by
          rw [← hextend] at hfinal
          have hev := hfinal.evidence
          rw [extend, map_append] at hev
          exact ⟨hfinal.aggregates.of_append_left, hev.of_append_left⟩
        refine ⟨_, (addDeclaration_ok hscope).mpr ⟨x, hx, rfl, hdist⟩, ?_⟩
        exact (ih hdist).mpr ⟨xs, hxs, (hextend x xs).symm, hfinal⟩

/-! ### Rules -/

/-- The same names are declared. -/
structure Scope.Same (scope scope' : Scope) : Prop where
  aggregate : ∀ name, scope.declaresAggregate name = scope'.declaresAggregate name
  evidence : ∀ kind, scope.declaresEvidence kind = scope'.declaresEvidence kind

theorem Scope.Perm.same (h : Perm scope scope') : Same scope scope' where
  aggregate name := by
    rw [declaresAggregate, declaresAggregate, Bool.eq_iff_iff, contains_iff_mem,
      contains_iff_mem, h.aggregates.mem_iff]
  evidence kind := by
    rw [Bool.eq_iff_iff, declaresEvidence_iff, declaresEvidence_iff, (h.evidence.map _).mem_iff]

section SameScope

variable {scope scope' : Scope} {rule : Bytes}

theorem resolveSelector_same (h : Same scope scope') (written : Spanned Bytes) :
    resolveSelector rule written scope = resolveSelector rule written scope' := by
  simp only [resolveSelector, h.aggregate]

mutual

theorem compileExpr_same (h : Same scope scope') (expr : SourceExpr) :
    compileExpr rule scope expr = compileExpr rule scope' expr := by
  cases expr with
  | literal value => cases value <;> rfl
  | all operands | any operands => rw [compileExpr, compileExpr, compileOperands_same h operands]
  | not inner => rw [compileExpr, compileExpr, compileExpr_same h inner]
  | bare written =>
    rw [compileExpr, compileExpr, compileBare, compileBare, resolveSelector_same h]
  | comparison selector operator offset operand =>
    rw [compileExpr, compileExpr, compileComparison, compileComparison, resolveSelector_same h]
  | evidence written => simp only [compileExpr, compileEvidence, h.evidence]

theorem compileOperands_same (h : Same scope scope') (operands : List SourceExpr) :
    compileOperands rule scope operands = compileOperands rule scope' operands := by
  cases operands with
  | nil => rfl
  | cons operand rest =>
    rw [compileOperands, compileOperands, compileExpr_same h operand, compileOperands_same h rest]

end

end SameScope

/-- Two rules that differ in spelling only. -/
structure SourceRule.Alike (rule rule' : SourceRule) : Prop where
  id : rule.id.value = rule'.id.value
  predicate : rule.predicate.Alike rule'.predicate
  outcome : rule.outcome = rule'.outcome

theorem compileRule_eq (scope : Scope) (rule : SourceRule) (compiled : CompiledRule) :
    compileRule scope rule = .ok compiled ↔ (∃ id, declaredName "rule identifier" rule.id = .ok id
        ∧ compiled.id = id) ∧ rule.predicate.compiled rule.id.value scope = some compiled.predicate
        ∧ rule.outcome.compile = compiled.outcome := by
  obtain ⟨id, predicate, outcome⟩ := compiled
  simp only [compileRule, bind_eq_ok, pure_eq_ok, CompiledRule.new, CompiledRule.mk.injEq,
    SourceExpr.compiled, map_eq_some_iff]
  constructor
  · rintro ⟨id, hid, p, hp, rfl, rfl, rfl⟩
    refine ⟨⟨id, hid, rfl⟩, ⟨p, ?_, rfl⟩, rfl⟩
    rw [hp]
    rfl
  · rintro ⟨⟨id, hid, rfl⟩, ⟨p, hp, rfl⟩, rfl⟩
    refine ⟨id, hid, p, ?_, rfl, rfl, rfl⟩
    cases hexpr : compileExpr rule.id.value scope rule.predicate with
    | error e =>
      rw [hexpr] at hp
      cases hp
    | ok q =>
      rw [hexpr] at hp
      rw [some.inj hp]

/-- Rules that differ in spelling only compile to the same rule, wherever the
same names are declared. -/
theorem compileRule_alike (hscope : Same scope scope') {rule rule' : SourceRule}
    (h : rule.Alike rule') {compiled : CompiledRule}
    (hrule : compileRule scope rule = .ok compiled) :
    compileRule scope' rule' = .ok compiled := by
  obtain ⟨⟨id, hid, hcompiled⟩, hpredicate, hout⟩ := (compileRule_eq _ _ _).mp hrule
  refine (compileRule_eq _ _ _).mpr ⟨⟨id, ?_, hcompiled⟩, ?_, h.outcome ▸ hout⟩
  · have hspan : rule'.id.unspan = rule.id.unspan := by
      rw [Spanned.unspan, Spanned.unspan, h.id]
    have hid' := (declaredName_unspan _ rule.id id).mpr hid
    rw [← hspan] at hid'
    exact (declaredName_unspan _ rule'.id id).mp hid'
  · rw [← hpredicate, ← h.id, SourceExpr.compiled, ← compileExpr_same hscope]
    change rule'.predicate.compiled rule.id.value scope
      = rule.predicate.compiled rule.id.value scope
    rw [← SourceExpr.compiled_unspan, ← SourceExpr.compiled_unspan rule.predicate]
    exact ((SourceExpr.canonical_compiled rule.id.value scope).eq h.predicate).symm

/-- The rules compile to their list, without repetitions. -/
theorem rules_ok {rules : List SourceRule} {before compiled : List CompiledRule}
    (hbefore : (before.map CompiledRule.id).Nodup) :
    rules.foldlM (addRule scope) before = .ok compiled ↔
      ∃ cs, Forall₂ (fun r c => compileRule scope r = .ok c) rules cs
        ∧ compiled = before ++ cs ∧ (compiled.map CompiledRule.id).Nodup := by
  induction rules generalizing before with
  | nil =>
    rw [foldlM_nil, pure_eq_ok]
    simp only [forall₂_nil_left_iff, exists_eq_left, append_nil]
    constructor
    · rintro rfl
      exact ⟨rfl, hbefore⟩
    · rintro ⟨rfl, -⟩
      rfl
  | cons rule rest ih =>
    rw [foldlM_cons_ok]
    simp only [addRule, bind_eq_ok, refuseIf_eq_ok, pure_eq_ok]
    constructor
    · rintro ⟨_, ⟨c, hc, ⟨⟩, hnew, rfl⟩, hrest⟩
      have hnodup : ((before ++ [c]).map CompiledRule.id).Nodup := by
        rw [map_append]
        exact nodup_concat.mpr ⟨hbefore, hnew⟩
      obtain ⟨cs, hcs, rfl, hfinal⟩ := (ih hnodup).mp hrest
      exact ⟨c :: cs, .cons hc hcs, by simp, hfinal⟩
    · rintro ⟨_, hall, rfl, hfinal⟩
      cases hall with
      | @cons _ c _ cs hc hcs =>
        have hsplit : before ++ c :: cs = before ++ [c] ++ cs := by simp
        rw [hsplit, map_append] at hfinal
        have hnodup := hfinal.of_append_left
        have hnew : c.id ∉ before.map CompiledRule.id := by
          rw [map_append] at hnodup
          exact (nodup_concat.mp hnodup).2
        refine ⟨_, ⟨c, hc, ⟨⟩, hnew, rfl⟩, (ih hnodup).mpr ⟨cs, hcs, hsplit, ?_⟩⟩
        rw [hsplit, map_append]
        exact hfinal

/-! ### Policies -/

/-- Two policies that differ in spelling and in the order of declarations and
rules only. -/
structure SourcePolicy.Alike (policy policy' : SourcePolicy) : Prop where
  name : policy.name.value = policy'.name.value
  declarations : (policy.declarations.map SourceDeclaration.unspan).Perm
    (policy'.declarations.map SourceDeclaration.unspan)
  rules : ∃ rules, policy.rules.Perm rules ∧ Forall₂ SourceRule.Alike rules policy'.rules
  defaultOutcome : policy.defaultOutcome = policy'.defaultOutcome

/-- Declarations that are the same up to order and offsets declare the same. -/
theorem declarations_alike {ds ds' : List SourceDeclaration}
    (h : (ds.map SourceDeclaration.unspan).Perm (ds'.map SourceDeclaration.unspan))
    (hscope : ds.foldlM addDeclaration ⟨[], []⟩ = .ok scope) :
    ∃ scope', ds'.foldlM addDeclaration ⟨[], []⟩ = .ok scope' ∧ Perm scope scope'
      ∧ scope.Distinct := by
  have hempty : Distinct ⟨[], []⟩ := ⟨.nil, .nil⟩
  obtain ⟨xs, hxs, rfl, hdist⟩ := (declarations_ok hempty).mp hscope
  have hspan : Forall₂ (fun d x => d.declared = .ok x) (ds.map SourceDeclaration.unspan) xs := by
    rw [forall₂_map_left_iff]
    exact hxs.imp fun d x hx => (declared_unspan d x).mpr hx
  obtain ⟨ys, hys, hperm⟩ := perm_comp_forall₂ h.symm hspan
  have hys' : Forall₂ (fun d x => d.declared = .ok x) ds' ys := by
    rw [forall₂_map_left_iff] at hys
    exact hys.imp fun d x hx => (declared_unspan d x).mp hx
  have hscopes : Perm (.extend ⟨[], []⟩ xs) (.extend ⟨[], []⟩ ys) :=
    extend_perm hperm.symm
  exact ⟨_, (declarations_ok hempty).mpr ⟨ys, hys', rfl, hscopes.distinct hdist⟩, hscopes, hdist⟩

/-- Rules that are alike up to order compile to the same rules up to order. -/
theorem rules_alike (hscope : Same scope scope') {rules mid rules' : List SourceRule}
    (hperm : rules.Perm mid) (halike : Forall₂ SourceRule.Alike mid rules')
    {compiled : List CompiledRule} (h : rules.foldlM (addRule scope) [] = .ok compiled) :
    ∃ compiled', rules'.foldlM (addRule scope') [] = .ok compiled' ∧ compiled.Perm compiled'
      ∧ (compiled.map CompiledRule.id).Nodup := by
  obtain ⟨cs, hcs, rfl, hnodup⟩ := (rules_ok (by simp)).mp h
  obtain ⟨cs', hcs', hperm'⟩ := perm_comp_forall₂ hperm.symm hcs
  have hcompiled : Forall₂ (fun r c => compileRule scope' r = .ok c) rules' cs' := by
    clear hcs hnodup hperm' h hperm
    induction halike generalizing cs' with
    | nil => cases hcs' with | nil => exact .nil
    | cons hrule _ ih =>
      cases hcs' with
      | cons hc hrest => exact .cons (compileRule_alike hscope hrule hc) (ih _ hrest)
  have hnodup' : (cs'.map CompiledRule.id).Nodup := (hperm'.map _).nodup_iff.mpr hnodup
  exact ⟨cs', (rules_ok (by simp)).mpr ⟨cs', hcompiled, rfl, hnodup'⟩, hperm'.symm, hnodup⟩

/-- **Alike policies compile to the same policy.** -/
theorem resolve_alike {policy policy' : SourcePolicy} (h : policy.Alike policy')
    {compiled : CompiledPolicy} (hpol : resolve policy = .ok compiled) :
    resolve policy' = .ok compiled := by
  simp only [resolve, bind_eq_ok, refuseIf_eq_ok, pure_eq_ok] at hpol ⊢
  obtain ⟨name, hname, scope, hscope, ⟨⟩, hcount, rules, hrules, rfl⟩ := hpol
  obtain ⟨mid, hperm, halike⟩ := h.rules
  have hspan : policy'.name.unspan = policy.name.unspan := by
    rw [Spanned.unspan, Spanned.unspan, h.name]
  have hname' := (declaredName_unspan _ policy.name name).mpr hname
  rw [← hspan] at hname'
  obtain ⟨scope', hscope', hscopes, hdist⟩ := declarations_alike h.declarations hscope
  obtain ⟨rules', hrules', hrulesPerm, hnodup⟩ := rules_alike hscopes.same hperm halike hrules
  have hlen : policy'.rules.length = policy.rules.length := by
    rw [← halike.length_eq, hperm.length_eq]
  refine ⟨name, (declaredName_unspan _ policy'.name name).mp hname', scope', hscope', ⟨⟩,
    hlen ▸ hcount, rules', hrules', ?_⟩
  have haggr : sortBy id scope.aggregates = sortBy id scope'.aggregates :=
    sortBy_congr id hscopes.aggregates (by simpa using hdist.aggregates)
  have hev : sortBy kind scope.evidence = sortBy kind scope'.evidence :=
    sortBy_congr _ hscopes.evidence hdist.evidence
  have hsorted : sortBy CompiledRule.id rules = sortBy CompiledRule.id rules' :=
    sortBy_congr _ hrulesPerm hnodup
  rw [CompiledPolicy.new, CompiledPolicy.new, haggr, hev, hsorted, h.defaultOutcome]

/-- **Normalization is sound and canonical.**  A predicate and its normal form
hold of the same facts, a normal form is its own normal form, two spellings of
one predicate have one normal form, and policies that differ in spelling and in
the order of declarations and rules only compile to equal policies. -/
theorem normalization_sound_canonical :
    (∀ (facts : Facts) (p : Predicate), holds facts p.normalize = holds facts p)
      ∧ (∀ p : Predicate, p.normalize.normalize = p.normalize)
      ∧ (∀ p q : Predicate, Respelled Predicate.connectives p q → q.normalize = p.normalize)
      ∧ ∀ (policy policy' : SourcePolicy) (compiled : CompiledPolicy), policy.Alike policy' →
        resolve policy = .ok compiled → resolve policy' = .ok compiled :=
  ⟨holds_normalize, normalize_normalize,
    fun _ _ h => (canonical.eq h).symm, fun _ _ _ h hpol => resolve_alike h hpol⟩

/-- A test written twice, once under a group, beside a unit. -/
example : Predicate.normalize (.all [.all [.test .forceRequested], .always,
    .not (.not (.test .forceRequested))]) = .test .forceRequested := by
  decide +kernel

end Frankengit.Policy
