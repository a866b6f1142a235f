/-
Frankengit/Resource/Algebra.lean

Graded amounts (`fgit-resource`, `algebra.rs`).  A `ResourceVector` is a 64-bit
number for each of ten grades; amounts are combined and split grade by grade,
and a sum that does not fit or a part that is not there is refused.
-/
import Frankengit.Types.Basic

namespace Frankengit.Resource

inductive Grade where
  | bytes | objects | cpuMicros | memoryBytes | fileDescriptors | egressBytes | moneyMicros
  | secretExposureMicros | failureDomainSlots | approvalCapacity
deriving DecidableEq

inductive GradeDisposition where
  | consumable | returnable
deriving DecidableEq

variable (grade : Grade)

namespace Grade

/-- The grades, in the order of the source. -/
def all : List Grade :=
  [bytes, objects, cpuMicros, memoryBytes, fileDescriptors, egressBytes, moneyMicros,
    secretExposureMicros, failureDomainSlots, approvalCapacity]

theorem mem_all : grade ∈ all := by cases grade <;> decide

def disposition : Grade → GradeDisposition
  | bytes | objects | cpuMicros | egressBytes | moneyMicros | secretExposureMicros => .consumable
  | memoryBytes | fileDescriptors | failureDomainSlots | approvalCapacity => .returnable

end Grade

inductive ResourceError where
  | overflow (grade : Grade) (left right : ℕ)
  | conservation (grade : Grade) (available requested : ℕ)
deriving DecidableEq

/-- An amount of every grade. -/
@[ext] structure ResourceVector where
  get : Grade → ℕ
  fits : ∀ grade, get grade ≤ u64Max

namespace ResourceVector

def zero : ResourceVector := ⟨fun _ => 0, fun _ => Nat.zero_le _⟩

/-- An amount of one grade. -/
def single (amount : ℕ) (h : amount ≤ u64Max) : ResourceVector :=
  ⟨fun other => if other = grade then amount else 0, fun other => by
    split
    · exact h
    · exact Nat.zero_le _⟩

@[simp] theorem zero_get : zero.get grade = 0 := rfl

/-- The first grade in which the part is not there. -/
def firstDeficit (a part : ResourceVector) : Option ResourceError :=
  (Grade.all.find? fun grade => a.get grade < part.get grade).map
    fun grade => .conservation grade (a.get grade) (part.get grade)

def combine (a b : ResourceVector) : Except ResourceError ResourceVector :=
  match h : Grade.all.find? fun grade => u64Max < a.get grade + b.get grade with
  | some grade => .error (.overflow grade (a.get grade) (b.get grade))
  | none => .ok ⟨fun grade => a.get grade + b.get grade, fun grade => by
    simpa using List.find?_eq_none.mp h grade (Grade.mem_all grade)⟩

/-- The part and what is left. -/
def split (a part : ResourceVector) : Except ResourceError (ResourceVector × ResourceVector) :=
  match a.firstDeficit part with
  | some error => .error error
  | none => .ok (part, ⟨fun grade => a.get grade - part.get grade,
      fun grade => (Nat.sub_le _ _).trans (a.fits grade)⟩)

/-- The grades of one disposition. -/
def mask (a : ResourceVector) (keep : GradeDisposition) : ResourceVector :=
  ⟨fun grade => if grade.disposition = keep then a.get grade else 0, fun grade => by
    split
    · exact a.fits grade
    · exact Nat.zero_le _⟩

/-- A sum of amounts; what does not fit is dropped. -/
def sumAmounts (amounts : List ResourceVector) : ResourceVector :=
  amounts.foldl (fun total amount => (total.combine amount).toOption.getD total) zero

variable {a b c part rest : ResourceVector}

theorem combine_ok (h : a.combine b = .ok c) (grade : Grade) :
    c.get grade = a.get grade + b.get grade := by
  unfold combine at h
  split at h
  · cases h
  · cases h
    rfl

theorem combine_eq (h : ∀ grade, a.get grade + b.get grade ≤ u64Max) :
    a.combine b = .ok ⟨_, h⟩ := by
  unfold combine
  split
  · next grade hfind =>
    have hover := List.find?_some hfind
    exact absurd (h grade) (not_le.mpr (by simpa using hover))
  · rfl

theorem combine_of (h : ∀ grade, a.get grade + b.get grade = c.get grade) :
    a.combine b = .ok c := by
  rw [combine_eq fun grade => (h grade).trans_le (c.fits grade)]
  exact congrArg _ (ResourceVector.ext (funext h))

theorem firstDeficit_eq_none :
    a.firstDeficit part = none ↔ ∀ grade, part.get grade ≤ a.get grade := by
  rw [firstDeficit, Option.map_eq_none_iff, List.find?_eq_none]
  refine ⟨fun h grade => ?_, fun h grade _ => ?_⟩
  · simpa using h grade (Grade.mem_all grade)
  · simpa using h grade

theorem split_ok {taken : ResourceVector} (h : a.split part = .ok (taken, rest)) :
    taken = part ∧ ∀ grade, part.get grade + rest.get grade = a.get grade := by
  unfold split at h
  split at h
  · cases h
  · next hfind =>
    cases h
    exact ⟨rfl, fun grade => Nat.add_sub_cancel' (firstDeficit_eq_none.mp hfind grade)⟩

theorem exists_split (h : ∀ grade, part.get grade ≤ a.get grade) :
    ∃ rest, a.split part = .ok (part, rest) := by
  unfold split
  rw [firstDeficit_eq_none.mpr h]
  exact ⟨_, rfl⟩

/-- A sum that fits drops nothing. -/
theorem sumAmounts_get {amounts : List ResourceVector}
    (h : ∀ grade, (amounts.map (·.get grade)).sum ≤ u64Max) (grade : Grade) :
    (sumAmounts amounts).get grade = (amounts.map (·.get grade)).sum := by
  suffices haux : ∀ start : ResourceVector,
      (∀ grade, start.get grade + (amounts.map (·.get grade)).sum ≤ u64Max) →
      (amounts.foldl
        (fun total amount => (total.combine amount).toOption.getD total) start).get grade
        = start.get grade + (amounts.map (·.get grade)).sum by
    rw [sumAmounts, haux zero (by simpa using h), zero_get, Nat.zero_add]
  clear h
  induction amounts with
  | nil => exact fun start _ => rfl
  | cons amount amounts ih =>
    intro start h
    simp only [List.map_cons, List.sum_cons] at h ⊢
    have hfits : ∀ g, start.get g + amount.get g ≤ u64Max := fun g => by
      have := h g
      omega
    rw [List.foldl_cons, combine_eq hfits, ← Nat.add_assoc]
    exact ih ⟨_, hfits⟩ fun g => by simpa only [Nat.add_assoc] using h g

end ResourceVector

end Frankengit.Resource
