/-
Frankengit/Policy/Normalize.lean

What `Predicate.normalize` gives.  A junction's normal form is read off the
set of its operands' normal forms (`normalize_junction`, `assemble`), so the
normal form does not depend on how a predicate is spelled (`canonical`).

`Normal` is the shape of a normal form: operands are in order, at least two,
none of them constant or a junction of the same kind, and no negation is of a
constant or a negation.  Every normal form has it and every predicate that
has it is its own normal form; and a predicate and its normal form hold of
the same facts.
-/
import Frankengit.Policy.Eval
import Frankengit.Lib.Junction

namespace Frankengit.Policy

open Sorted Junction List Predicate

variable (facts : Facts)

namespace Predicate

/-- How predicates are built. -/
def connectives : Connectives Predicate where
  junction := junction
  unit := unit
  not := not

/-- Induction over predicates, with both junctions at once. -/
theorem induct {P : Predicate → Prop} (always : P always) (never : P never)
    (junction : ∀ c operands, (∀ p ∈ operands, P p) → P (junction c operands))
    (not : ∀ p, P p → P (not p)) (test : ∀ t, P (test t)) (p : Predicate) : P p :=
  rec (motive_1 := P) (motive_2 := fun operands => ∀ p ∈ operands, P p)
    always never (fun operands h => junction true operands h)
    (fun operands h => junction false operands h) not test nofun
    (fun _ _ hp hrest => forall_mem_cons.mpr ⟨hp, hrest⟩) p

variable {c : Bool} {p q : Predicate} {l m : List Predicate}

/-! ### Junctions as functions of their operands' normal forms -/

/-- What a normal form adds to a junction. -/
def part (c : Bool) (n : Predicate) : List Predicate := if n = unit c then [] else spread c n

/-- The normal form of a junction whose operands have these normal forms. -/
def assemble (c : Bool) (ns : List Predicate) : Predicate :=
  if absorbing c ∈ ns then absorbing c else collapse c (ns.flatMap (part c))

theorem absorbing_ne_unit (c : Bool) : absorbing c ≠ unit c := by
  cases c <;> simp [absorbing, unit]

theorem normalizeJunction_eq (c : Bool) (operands flattened : List Predicate) :
    normalizeJunction c flattened operands =
      if absorbing c ∈ operands.map normalize then absorbing c
      else collapse c (flattened ++ (operands.map normalize).flatMap (part c)) := by
  induction operands generalizing flattened with
  | nil => simp [normalizeJunction]
  | cons operand rest ih =>
    rw [normalizeJunction]
    by_cases habsorb : normalize operand = absorbing c
    · simp [habsorb]
    · have hne : ¬ absorbing c = normalize operand := fun h => habsorb h.symm
      by_cases hunit : normalize operand = unit c
      · rw [if_neg habsorb, if_pos hunit, ih]
        simp [part, hunit, absorbing_ne_unit]
      · rw [if_neg habsorb, if_neg hunit, ih]
        simp [hne, part, hunit]

theorem normalize_junction (c : Bool) (operands : List Predicate) :
    normalize (junction c operands) = assemble c (operands.map normalize) := by
  have h := normalizeJunction_eq c operands []
  cases c
  · exact (normalize.eq_3 operands).trans h
  · exact (normalize.eq_2 operands).trans h

theorem normalize_not (p : Predicate) : normalize (not p) = negate (normalize p) := by
  rw [normalize]

theorem spread_junction (c : Bool) (l : List Predicate) : spread c (junction c l) = l := by
  cases c <;> rfl

theorem junction_ne_unit (c : Bool) (l : List Predicate) : junction c l ≠ unit c := by
  cases c <;> simp [junction, unit]

theorem junction_ne_absorbing (c : Bool) (l : List Predicate) : junction c l ≠ absorbing c := by
  cases c <;> simp [junction, absorbing]

theorem part_junction (c : Bool) (l : List Predicate) : part c (junction c l) = l := by
  rw [part, if_neg (junction_ne_unit c l), spread_junction]

@[simp] theorem part_unit (c : Bool) : part c (unit c) = [] := if_pos rfl

/-- A junction has no operands, one, or at least two. -/
theorem collapse_cases (c : Bool) (l : List Predicate) :
    (l = [] ∧ collapse c l = unit c) ∨ (∃ p, (∀ x, x ∈ l ↔ x = p) ∧ collapse c l = p)
      ∨ (2 ≤ (sortedUnique l).length ∧ collapse c l = junction c (sortedUnique l)) := by
  have hmem : ∀ x, x ∈ sortedUnique l ↔ x ∈ l := fun x => mem_sortedUnique
  unfold collapse
  generalize sortedUnique l = operands at hmem
  match operands with
  | [] =>
    refine .inl ⟨eq_nil_iff_forall_not_mem.mpr fun x hx => ?_, rfl⟩
    exact not_mem_nil ((hmem x).mpr hx)
  | [p] => exact .inr (.inl ⟨p, fun x => by rw [← hmem x, mem_singleton], rfl⟩)
  | _ :: _ :: _ => exact .inr (.inr ⟨by simp, rfl⟩)

theorem collapse_congr (c : Bool) (h : ∀ x, x ∈ l ↔ x ∈ m) : collapse c l = collapse c m := by
  rw [collapse, collapse, sortedUnique_congr h]

theorem assemble_congr (c : Bool) (h : ∀ x, x ∈ l ↔ x ∈ m) : assemble c l = assemble c m := by
  have hparts : collapse c (l.flatMap (part c)) = collapse c (m.flatMap (part c)) := by
    apply collapse_congr
    intro x
    simp only [mem_flatMap, h]
  rw [assemble, assemble, hparts]
  simp only [h]

/-! ### Normal forms -/

/-- What may stand as one of several operands of a junction. -/
structure IsPart (c : Bool) (p : Predicate) : Prop where
  ne_unit : p ≠ unit c
  ne_absorbing : p ≠ absorbing c
  ne_junction : ∀ l, p ≠ junction c l

theorem IsPart.part_eq (h : IsPart c p) : part c p = [p] := by
  rw [part, if_neg h.ne_unit]
  cases p with
  | all l =>
    cases c
    · rfl
    · exact absurd rfl (h.ne_junction l)
  | any l =>
    cases c
    · exact absurd rfl (h.ne_junction l)
    · rfl
  | _ => rfl

/-- The operands of a junction in normal form. -/
structure Operands (c : Bool) (l : List Predicate) : Prop where
  parts : ∀ p ∈ l, IsPart c p
  sorted : l.Pairwise (· < ·)
  two : 2 ≤ l.length

theorem Operands.collapse_eq (h : Operands c l) : collapse c l = junction c l := by
  rw [collapse, sortedUnique_of_pairwise h.sorted]
  match l with
  | _ :: _ :: _ => rfl

theorem Operands.assemble_eq (h : Operands c l) : assemble c l = junction c l := by
  have habsorb : absorbing c ∉ l := fun hmem => (h.parts _ hmem).ne_absorbing rfl
  have hparts : l.flatMap (part c) = l.flatMap fun p => [p] :=
    flatMap_congr fun p hp => (h.parts p hp).part_eq
  rw [assemble, if_neg habsorb, hparts, flatMap_singleton', h.collapse_eq]

/-- The shape of a normal form. -/
inductive Normal : Predicate → Prop where
  | always : Normal always
  | never : Normal never
  | all {l : List Predicate} (operands : ∀ p ∈ l, Normal p) (shape : Operands true l) :
      Normal (all l)
  | any {l : List Predicate} (operands : ∀ p ∈ l, Normal p) (shape : Operands false l) :
      Normal (any l)
  /-- The operand is no constant and no negation. -/
  | not {p : Predicate} (inner : Normal p) (plain : negate p = not p) : Normal (not p)
  | test {t : Test} (plain : t.normalize = test t) : Normal (test t)

theorem Normal.junction (operands : ∀ p ∈ l, Normal p) (shape : Operands c l) :
    Normal (junction c l) := by
  cases c
  · exact .any operands shape
  · exact .all operands shape

theorem Normal.of_junction (h : Normal (.junction c l)) : (∀ p ∈ l, Normal p) ∧ Operands c l := by
  cases c
  · cases h with
    | any operands shape => exact ⟨operands, shape⟩
  · cases h with
    | all operands shape => exact ⟨operands, shape⟩

theorem normal_unit (c : Bool) : Normal (unit c) := by
  cases c
  · exact .never
  · exact .always

theorem normal_absorbing (c : Bool) : Normal (absorbing c) := by
  cases c
  · exact .always
  · exact .never

/-- What a normal form adds to a junction is in normal form and may stand
there. -/
theorem Normal.part {n : Predicate} (h : Normal n) (habsorb : n ≠ absorbing c) :
    ∀ x ∈ part c n, Normal x ∧ IsPart c x := by
  by_cases hjunction : ∃ l, n = Predicate.junction c l
  · obtain ⟨l, rfl⟩ := hjunction
    rw [part_junction]
    obtain ⟨hnormal, hshape⟩ := h.of_junction
    exact fun x hx => ⟨hnormal x hx, hshape.parts x hx⟩
  · by_cases hunit : n = unit c
    · rw [hunit, part_unit]
      exact nofun
    · have hpart : IsPart c n := ⟨hunit, habsorb, not_exists.mp hjunction⟩
      rw [hpart.part_eq]
      exact forall_mem_singleton.mpr ⟨h, hpart⟩

theorem normal_collapse (h : ∀ x ∈ l, Normal x ∧ IsPart c x) : Normal (collapse c l) := by
  obtain ⟨-, heq⟩ | ⟨p, hp, heq⟩ | ⟨htwo, heq⟩ := collapse_cases c l
  · rw [heq]
    exact normal_unit c
  · rw [heq]
    exact (h p ((hp p).mpr rfl)).1
  · rw [heq]
    have hmem : ∀ x ∈ sortedUnique l, Normal x ∧ IsPart c x :=
      fun x hx => h x (mem_sortedUnique.mp hx)
    exact .junction (fun x hx => (hmem x hx).1)
      ⟨fun x hx => (hmem x hx).2, pairwise_sortedUnique l, htwo⟩

variable {ns : List Predicate}

theorem normal_parts (h : ∀ n ∈ ns, Normal n) (habsorb : absorbing c ∉ ns) :
    ∀ x ∈ ns.flatMap (part c), Normal x ∧ IsPart c x := by
  intro x hx
  obtain ⟨n, hn, hxn⟩ := mem_flatMap.mp hx
  exact (h n hn).part (fun heq => habsorb (heq ▸ hn)) x hxn

theorem normal_assemble (h : ∀ n ∈ ns, Normal n) : Normal (assemble c ns) := by
  rw [assemble]
  split
  · exact normal_absorbing c
  · next habsorb => exact normal_collapse (normal_parts h habsorb)

theorem Normal.negate {n : Predicate} (h : Normal n) : Normal (negate n) := by
  cases h with
  | always => exact .never
  | never => exact .always
  | all operands shape => exact .not (.all operands shape) rfl
  | any operands shape => exact .not (.any operands shape) rfl
  | not inner plain => exact inner
  | test plain => exact .not (.test plain) rfl

theorem negate_negate {n : Predicate} (h : Normal n) : negate (.negate n) = n := by
  cases h with
  | not inner plain => exact plain
  | _ => rfl

theorem normal_alternatives {α : Type} [LinearOrder α] {one : α → Test} {many : List α → Test}
    (hone : ∀ a, (one a).normalize = test (one a))
    (hmany : ∀ values, (many values).normalize = alternatives one many values) (values : List α) :
    Normal (alternatives one many values) := by
  have hsorted := pairwise_sortedUnique values
  unfold alternatives
  generalize sortedUnique values = sorted at hsorted
  match sorted with
  | [] => exact .never
  | [a] => exact .test (hone a)
  | a :: b :: rest =>
    refine .test ?_
    rw [hmany, alternatives, sortedUnique_of_pairwise hsorted]

theorem normal_test (t : Test) : Normal t.normalize := by
  cases t with
  | textIn selector values => exact normal_alternatives (fun _ => rfl) (fun _ => rfl) values
  | updateKindIn kinds | principalKindIn kinds =>
    exact normal_alternatives (fun _ => rfl) (fun _ => rfl) kinds
  | _ => exact .test rfl

/-- **Normalization gives a normal form.** -/
theorem normal_normalize (p : Predicate) : Normal (normalize p) := by
  induction p using induct with
  | always => exact .always
  | never => exact .never
  | junction c operands ih =>
    rw [normalize_junction]
    exact normal_assemble (forall_mem_map.mpr ih)
  | not p ih =>
    exact ih.negate
  | test t => exact normal_test t

/-- **A normal form is its own normal form.** -/
theorem Normal.normalize_eq (h : Normal p) : normalize p = p := by
  have hjunction : ∀ {c : Bool} {l : List Predicate}, (∀ p ∈ l, normalize p = p) →
      Operands c l → normalize (.junction c l) = Predicate.junction c l := by
    intro c l hl hshape
    rw [normalize_junction, map_congr_left hl, map_id', hshape.assemble_eq]
  induction h with
  | always | never => rfl
  | all _ shape ih | any _ shape ih => exact hjunction ih shape
  | not _ plain ih => rw [normalize_not, ih, plain]
  | test plain => exact plain

theorem normalize_normalize (p : Predicate) : normalize (normalize p) = normalize p :=
  (normal_normalize p).normalize_eq

/-! ### Spelling -/

theorem assemble_eq_absorbing (h : ∀ n ∈ ns, Normal n) :
    assemble c ns = absorbing c ↔ absorbing c ∈ ns := by
  refine ⟨fun heq => ?_, fun hmem => if_pos hmem⟩
  by_contra habsorb
  have hparts := normal_parts h habsorb
  rw [assemble, if_neg habsorb] at heq
  obtain ⟨-, hunit⟩ | ⟨p, hp, hone⟩ | ⟨-, hmany⟩ := collapse_cases c (ns.flatMap (part c))
  · exact absorbing_ne_unit c (heq.symm.trans hunit)
  · exact (hparts p ((hp p).mpr rfl)).2.ne_absorbing (hone.symm.trans heq)
  · exact junction_ne_absorbing c _ (hmany.symm.trans heq)

/-- A junction of normal forms adds to a junction of the same kind what they
add. -/
theorem mem_part_assemble (h : ∀ n ∈ ns, Normal n) (habsorb : absorbing c ∉ ns) (x : Predicate) :
    x ∈ part c (assemble c ns) ↔ x ∈ ns.flatMap (part c) := by
  have hparts := normal_parts h habsorb
  rw [assemble, if_neg habsorb]
  obtain ⟨hnil, heq⟩ | ⟨p, hp, heq⟩ | ⟨-, heq⟩ := collapse_cases c (ns.flatMap (part c))
  · rw [heq, part_unit, hnil]
  · rw [heq, (hparts p ((hp p).mpr rfl)).2.part_eq, hp x, mem_singleton]
  · rw [heq, part_junction, mem_sortedUnique]

theorem assemble_group {inner : List Predicate} (c : Bool) (before after : List Predicate)
    (h : ∀ n ∈ inner, Normal n) :
    assemble c (before ++ assemble c inner :: after) = assemble c (before ++ inner ++ after) := by
  by_cases habsorb : absorbing c ∈ inner
  · rw [(assemble_eq_absorbing h).mpr habsorb, assemble, assemble, if_pos (by simp),
      if_pos (by simp [habsorb])]
  · have hne : absorbing c ≠ assemble c inner :=
      fun heq => habsorb ((assemble_eq_absorbing h).mp heq.symm)
    have hparts : collapse c ((before ++ assemble c inner :: after).flatMap (part c))
        = collapse c ((before ++ inner ++ after).flatMap (part c)) := by
      apply collapse_congr
      intro x
      simp only [flatMap_append, flatMap_cons, mem_append, mem_part_assemble h habsorb, or_assoc]
    have hmem : absorbing c ∈ before ++ assemble c inner :: after
        ↔ absorbing c ∈ before ++ inner ++ after := by
      simp only [mem_append, mem_cons, hne, habsorb, false_or, or_false]
    generalize before ++ assemble c inner :: after = grouped at hparts hmem
    rw [assemble, assemble, hparts]
    simp only [hmem]

theorem assemble_unit (c : Bool) (ns : List Predicate) :
    assemble c (unit c :: ns) = assemble c ns := by
  rw [assemble, assemble, flatMap_cons, part_unit, nil_append]
  simp only [mem_cons, absorbing_ne_unit, false_or]

/-- **The normal form does not depend on the spelling.** -/
theorem canonical : Canonical connectives normalize where
  junction_congr c l m h := by
    show normalize (junction c l) = normalize (junction c m)
    rw [normalize_junction, normalize_junction]
    exact assemble_congr c h
  group c before inner after := by
    show normalize (junction c (before ++ junction c inner :: after)) = normalize (junction c _)
    rw [normalize_junction, normalize_junction, map_append, map_cons,
      normalize_junction, assemble_group c _ _ ?_, map_append, map_append]
    exact forall_mem_map.mpr fun p _ => normal_normalize p
  unit c l := by
    have hunit : normalize (unit c) = unit c := (normal_unit c).normalize_eq
    show normalize (junction c (unit c :: l)) = normalize (junction c l)
    rw [normalize_junction, normalize_junction, map_cons, hunit, assemble_unit]
  not_congr h := by
    show normalize (not _) = normalize (not _)
    rw [normalize_not, normalize_not, h]
  not_not p := by
    show normalize (not (not p)) = normalize p
    rw [normalize_not, normalize_not, negate_negate (normal_normalize p)]

/-! ### Meaning -/

/-- A junction is decided against its kind by one of its operands. -/
theorem holds_junction (c : Bool) (l : List Predicate) :
    holds facts (junction c l) = !c ↔ ∃ p ∈ l, holds facts p = !c := by
  cases c
  · show anyHolds facts l = true ↔ _
    rw [anyHolds_eq, any_eq_true]
    rfl
  · show allHold facts l = false ↔ _
    rw [allHold_eq, all_eq_false]
    simp

theorem holds_unit (c : Bool) : holds facts (unit c) = c := by
  cases c <;> rfl

theorem holds_absorbing (c : Bool) : holds facts (absorbing c) = !c := by
  cases c <;> rfl

theorem holds_collapse (c : Bool) (l : List Predicate) :
    holds facts (collapse c l) = !c ↔ ∃ p ∈ l, holds facts p = !c := by
  obtain ⟨rfl, heq⟩ | ⟨p, hp, heq⟩ | ⟨-, heq⟩ := collapse_cases c l
  · rw [heq, holds_unit]
    simp
  · rw [heq]
    simp [hp]
  · rw [heq, holds_junction]
    simp only [mem_sortedUnique]

theorem holds_part (c : Bool) (n : Predicate) :
    (∃ p ∈ part c n, holds facts p = !c) ↔ holds facts n = !c := by
  by_cases hjunction : ∃ l, n = junction c l
  · obtain ⟨l, rfl⟩ := hjunction
    rw [part_junction, holds_junction]
  · by_cases hunit : n = unit c
    · rw [hunit, part_unit, holds_unit]
      simp
    · by_cases habsorb : n = absorbing c
      · subst habsorb
        have hpart : part c (absorbing c) = [absorbing c] := by cases c <;> rfl
        simp [hpart]
      · simp [(IsPart.mk hunit habsorb (not_exists.mp hjunction)).part_eq]

theorem holds_assemble (c : Bool) (ns : List Predicate) :
    holds facts (assemble c ns) = !c ↔ ∃ n ∈ ns, holds facts n = !c := by
  rw [assemble]
  split
  · next hmem =>
      exact ⟨fun _ => ⟨_, hmem, holds_absorbing facts c⟩, fun _ => holds_absorbing facts c⟩
  · rw [holds_collapse]
    simp only [mem_flatMap]
    constructor
    · rintro ⟨p, ⟨n, hn, hp⟩, hholds⟩
      exact ⟨n, hn, (holds_part facts c n).mp ⟨p, hp, hholds⟩⟩
    · rintro ⟨n, hn, hholds⟩
      obtain ⟨p, hp, hpholds⟩ := (holds_part facts c n).mpr hholds
      exact ⟨p, ⟨n, hn, hp⟩, hpholds⟩

theorem holds_negate (n : Predicate) : holds facts (negate n) = !holds facts n := by
  cases n <;> simp [negate, holds]

theorem holds_alternatives {α : Type} [LinearOrder α] {one : α → Test} {many : List α → Test}
    (facts : Facts)
    (hmany : ∀ values, (many values).holds facts = values.any fun a => (one a).holds facts)
    (values : List α) : holds facts (alternatives one many values) = (many values).holds facts := by
  have hany : (sortedUnique values).any (fun a => (one a).holds facts)
      = values.any fun a => (one a).holds facts := by
    rw [Bool.eq_iff_iff, any_eq_true, any_eq_true]
    simp only [mem_sortedUnique]
  rw [hmany, ← hany, alternatives]
  generalize sortedUnique values = sorted
  rcases sorted with _ | ⟨a, _ | ⟨b, rest⟩⟩
  · rfl
  · simp [holds]
  · exact hmany _

theorem holds_test (t : Test) : holds facts t.normalize = t.holds facts := by
  cases t with
  | textIn selector values => exact holds_alternatives facts (fun _ => rfl) values
  | updateKindIn kinds =>
    refine holds_alternatives facts (fun values => ?_) kinds
    exact contains_eq_any_beq
  | principalKindIn kinds =>
    refine holds_alternatives facts (fun values => ?_) kinds
    cases hinput : facts.input with
    | none => simp [Test.holds, hinput]
    | some input =>
      simp only [Test.holds, hinput, Option.any_some]
      exact contains_eq_any_beq
  | _ => rfl

/-- **A predicate and its normal form hold of the same facts.** -/
theorem holds_normalize (p : Predicate) : holds facts (normalize p) = holds facts p := by
  induction p using induct with
  | always | never => rfl
  | junction c operands ih =>
    have hiff : holds facts (normalize (junction c operands)) = !c ↔
        holds facts (junction c operands) = !c := by
      rw [normalize_junction, holds_assemble, holds_junction]
      simp only [mem_map, exists_exists_and_eq_and]
      exact exists_congr fun p => and_congr_right fun hp => by rw [ih p hp]
    cases c
    · exact Bool.eq_iff_iff.mpr hiff
    · exact Bool.not_inj (Bool.eq_iff_iff.mpr (by simpa using hiff))
  | not p ih =>
    rw [normalize_not, holds_negate, ih, holds]
  | test t => exact holds_test facts t

end Predicate

end Frankengit.Policy
