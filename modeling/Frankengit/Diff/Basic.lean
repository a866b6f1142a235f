/-
Frankengit/Diff/Basic.lean

The vocabulary of sequence diffing (crate `fgit-diff`): profiles, limits,
errors, spans, and the units a byte string is cut into.

Positions and counts are natural numbers.  The source's checked arithmetic on
them fails only for inputs that do not fit into memory; `isize` values that
must be positions are converted with `toIndex`, which can fail as in the
source.  Cancellation, which `diff` does not use, is left out.

A `TokenStream` carries the proof that its tokens cut the bytes from the first
to the last without a gap.
-/
import Frankengit.Lib.Alignment
import Frankengit.Lib.Budget
import Frankengit.Types.Basic

namespace Frankengit.Diff

open Alignment List Nat

/-! ### Options and errors -/

inductive DiffProfile where
  | myersMinimal | patience | histogram
deriving DecidableEq

inductive SequenceGranularity where
  | bytes | lines
deriving DecidableEq

structure DiffLimits where
  maxInputBytes : ℕ
  maxUnits : ℕ
  maxWork : ℕ
  maxTraceCells : ℕ
deriving DecidableEq

structure DiffOptions where
  profile : DiffProfile
  granularity : SequenceGranularity
  limits : DiffLimits
deriving DecidableEq

/-- The path that computed a result. -/
inductive DiffAlgorithm where
  | myersTrace | myersLinearRefinement | patienceAnchored | histogramAnchored
deriving DecidableEq

inductive DiffError where
  | inputBytesExceeded (limit actual : ℕ)
  | unitsExceeded (limit actual : ℕ)
  | workExceeded (limit : ℕ)
  | arithmeticOverflow
  | malformedScript
deriving DecidableEq

/-- A computation that pays for its work. -/
abbrev Budgeted := WorkBudget.Budgeted DiffError

/-- Pay for work. -/
abbrev consume (amount : ℕ) : Budgeted Unit := WorkBudget.consume .workExceeded amount

/-- The computation has a cost and an answer with the property. -/
abbrev Gives {α : Type} (x : Budgeted α) (P : α → Prop) : Prop :=
  WorkBudget.Gives DiffError.workExceeded x P

/-- One step of a script, before it is given its spans. -/
abbrev AtomicEdit := Alignment.Step

/-- A signed value as a position. -/
def toIndex (x : ℤ) : Except DiffError ℕ :=
  if 0 ≤ x then .ok x.toNat else .error .arithmeticOverflow

theorem toIndex_of_nonneg {x : ℤ} (h : 0 ≤ x) : toIndex x = .ok x.toNat := if_pos h

/-! ### Units -/

structure Token where
  byteStart : ℕ
  byteEnd : ℕ
deriving DecidableEq

/-- The tokens follow each other from one byte position to another. -/
def Cuts : ℕ → List Token → ℕ → Prop
  | start, [], stop => start = stop
  | start, token :: tokens, stop =>
    token.byteStart = start ∧ start < token.byteEnd ∧ Cuts token.byteEnd tokens stop

/-- The lines that are left, the current one started at `start`. -/
def lineTokensFrom (start offset : ℕ) : Bytes → List Token
  | [] => if start < offset then [⟨start, offset⟩] else []
  | byte :: rest =>
    if byte = 10 then ⟨start, offset + 1⟩ :: lineTokensFrom (offset + 1) (offset + 1) rest
    else lineTokensFrom start (offset + 1) rest

variable (bytes : Bytes)

/-- Lines, each with its newline. -/
def lineTokens : List Token := lineTokensFrom 0 0 bytes

def byteTokens : List Token :=
  (List.range bytes.length).map fun offset => ⟨offset, offset + 1⟩

def unitCount : SequenceGranularity → ℕ
  | .bytes => bytes.length
  | .lines => bytes.count 10 + if bytes.getLast? ≠ some 10 ∧ bytes ≠ [] then 1 else 0

theorem cuts_lineTokensFrom {start offset : ℕ} (bytes : Bytes) (h : start ≤ offset) :
    Cuts start (lineTokensFrom start offset bytes) (offset + bytes.length) := by
  induction bytes generalizing start offset with
  | nil =>
    rw [lineTokensFrom]
    split
    · next hlt => exact ⟨rfl, hlt, rfl⟩
    · exact (by omega : start = offset)
  | cons byte rest ih =>
    rw [lineTokensFrom, length_cons, show offset + (rest.length + 1)
      = offset + 1 + rest.length by omega]
    split
    · exact ⟨rfl, lt_succ_of_le h, ih le_rfl⟩
    · exact ih (by omega)

theorem cuts_lineTokens : Cuts 0 (lineTokens bytes) bytes.length := by
  have h : Cuts 0 (lineTokensFrom 0 0 bytes) (0 + bytes.length) :=
    cuts_lineTokensFrom bytes le_rfl
  rwa [zero_add] at h

theorem cuts_byteTokens : Cuts 0 (byteTokens bytes) bytes.length := by
  suffices h : ∀ n start, Cuts start
      ((range n).map fun offset => (⟨start + offset, start + offset + 1⟩ : Token))
      (start + n) by
    have hall := h bytes.length 0
    simp only [zero_add] at hall
    exact hall
  intro n
  induction n with
  | zero => exact fun start => rfl
  | succ n ih =>
    intro start
    have hshift : (fun offset => (⟨start + offset, start + offset + 1⟩ : Token)) ∘ succ
        = fun offset => ⟨start + 1 + offset, start + 1 + offset + 1⟩ := by
      funext offset
      simp only [Function.comp_apply, succ_eq_add_one, Token.mk.injEq]
      omega
    have hrest := ih (start + 1)
    rw [show start + 1 + n = start + (n + 1) by omega] at hrest
    rw [range_succ_eq_map, map_cons, map_map, hshift]
    exact ⟨rfl, lt_succ_self start, hrest⟩

/-- A byte string cut into units. -/
structure TokenStream where
  bytes : Bytes
  tokens : List Token
  cuts : Cuts 0 tokens bytes.length

structure Span where
  byteStart : ℕ
  byteEnd : ℕ
  unitStart : ℕ
  unitEnd : ℕ
deriving DecidableEq

namespace TokenStream

def new : SequenceGranularity → TokenStream
  | .bytes => ⟨bytes, byteTokens bytes, cuts_byteTokens bytes⟩
  | .lines => ⟨bytes, lineTokens bytes, cuts_lineTokens bytes⟩

variable (self : TokenStream)

/-- The bytes of a token. -/
def slice (token : Token) : Bytes :=
  (self.bytes.drop token.byteStart).take (token.byteEnd - token.byteStart)

/-- The bytes of a unit. -/
def unit (index : ℕ) : Bytes := (self.tokens[index]?.map self.slice).getD []

def equal (left : ℕ) (other : TokenStream) (right : ℕ) : Bool :=
  self.unit left = other.unit right

def byteOffsetAt (unit : ℕ) : ℕ :=
  match self.tokens[unit]? with
  | some token => token.byteStart
  | none => self.bytes.length

def span (start stop : ℕ) : Span :=
  ⟨self.byteOffsetAt start, self.byteOffsetAt stop, start, stop⟩

def bytesFor (start stop : ℕ) : Bytes :=
  let span := self.span start stop
  (self.bytes.drop span.byteStart).take (span.byteEnd - span.byteStart)

/-- All units. -/
def units : List Bytes := self.tokens.map self.slice

@[simp] theorem length_units : self.units.length = self.tokens.length := length_map ..

theorem getElem?_units (index : ℕ) : self.units[index]? = self.tokens[index]?.map self.slice :=
  getElem?_map ..

theorem unit_eq (index : ℕ) : self.unit index = (self.units[index]?).getD [] := by
  rw [getElem?_units, unit]

variable {self}

theorem getElem?_units_of_lt {index : ℕ} (h : index < self.tokens.length) :
    self.units[index]? = some (self.unit index) := by
  have hlt : index < self.units.length := by rwa [length_units]
  rw [unit_eq, getElem?_eq_getElem hlt, Option.getD_some]

/-- Equality of positions that exist. -/
theorem equal_iff {other : TokenStream} {left right : ℕ} (hleft : left < self.tokens.length)
    (hright : right < other.tokens.length) :
    self.equal left other right = true ↔ Same self.units other.units left right := by
  rw [equal, decide_eq_true_eq]
  constructor
  · intro h
    exact ⟨_, getElem?_units_of_lt hleft, by rw [h, getElem?_units_of_lt hright]⟩
  · rintro ⟨a, ha, hb⟩
    rw [getElem?_units_of_lt hleft, Option.some.injEq] at ha
    rw [getElem?_units_of_lt hright, Option.some.injEq] at hb
    rw [ha, hb]

/-! ### Offsets -/

end TokenStream

/-- The bytes from the start of a run of tokens on. -/
theorem cuts_flatten {start stop : ℕ} {tokens : List Token} (h : Cuts start tokens stop) :
    start ≤ stop ∧ (tokens.map fun token =>
      (bytes.drop token.byteStart).take (token.byteEnd - token.byteStart)).flatten
        = (bytes.drop start).take (stop - start) := by
  induction tokens generalizing start with
  | nil =>
    obtain rfl : start = stop := h
    simp
  | cons token tokens ih =>
    obtain ⟨rfl, hlt, hrest⟩ := h
    obtain ⟨hle, hflatten⟩ := ih hrest
    refine ⟨by omega, ?_⟩
    rw [map_cons, flatten_cons, hflatten]
    rw [show stop - token.byteStart = (token.byteEnd - token.byteStart) + (stop - token.byteEnd)
      by omega, take_add, drop_drop,
      show token.byteStart + (token.byteEnd - token.byteStart) = token.byteEnd by omega]

/-- A run of tokens cut in two. -/
theorem cuts_take_drop {start stop : ℕ} {tokens : List Token} (h : Cuts start tokens stop)
    (index : ℕ) (hindex : index ≤ tokens.length) :
    ∃ middle, Cuts start (tokens.take index) middle ∧ Cuts middle (tokens.drop index) stop ∧
      middle = (match tokens[index]? with | some token => token.byteStart | none => stop) := by
  induction index generalizing start tokens with
  | zero =>
    refine ⟨start, rfl, h, ?_⟩
    cases tokens with
    | nil => exact h
    | cons token tokens => exact h.1.symm
  | succ index ih =>
    cases tokens with
    | nil => simp at hindex
    | cons token tokens =>
      obtain ⟨hstart, hlt, hrest⟩ := h
      obtain ⟨middle, htake, hdrop, hmiddle⟩ := ih hrest (by simpa using hindex)
      exact ⟨middle, ⟨hstart, hlt, htake⟩, hdrop, by simpa using hmiddle⟩

namespace TokenStream

variable (self : TokenStream)

/-- The byte string is its units. -/
theorem flatten_units : self.units.flatten = self.bytes := by
  have h := (cuts_flatten self.bytes self.cuts).2
  rwa [drop_zero, Nat.sub_zero, take_length] at h

theorem cuts_at {index : ℕ} (h : index ≤ self.tokens.length) :
    Cuts 0 (self.tokens.take index) (self.byteOffsetAt index) ∧
      Cuts (self.byteOffsetAt index) (self.tokens.drop index) self.bytes.length := by
  obtain ⟨middle, htake, hdrop, hmiddle⟩ := cuts_take_drop self.cuts index h
  rw [byteOffsetAt, ← hmiddle]
  exact ⟨htake, hdrop⟩

theorem byteOffsetAt_zero : self.byteOffsetAt 0 = 0 := by
  have h := (self.cuts_at (zero_le _)).1
  exact h.symm

theorem byteOffsetAt_length : self.byteOffsetAt self.tokens.length = self.bytes.length := by
  rw [byteOffsetAt, getElem?_eq_none le_rfl]

theorem byteOffsetAt_le {index : ℕ} (h : index ≤ self.tokens.length) :
    self.byteOffsetAt index ≤ self.bytes.length := (cuts_flatten [] (self.cuts_at h).2).1

/-- An offset is the length of the units before it. -/
theorem byteOffsetAt_eq {index : ℕ} (h : index ≤ self.tokens.length) :
    self.byteOffsetAt index = (self.units.take index).flatten.length := by
  obtain ⟨htake, -⟩ := self.cuts_at h
  have hflatten := (cuts_flatten self.bytes htake).2
  have hle := self.byteOffsetAt_le h
  rw [drop_zero, Nat.sub_zero, map_take] at hflatten
  show _ = ((self.tokens.map self.slice).take index).flatten.length
  have hsame : (self.tokens.map self.slice) = self.tokens.map fun token =>
    (self.bytes.drop token.byteStart).take (token.byteEnd - token.byteStart) := rfl
  rw [hsame, hflatten, length_take]
  omega

/-- The bytes of a run of units. -/
theorem bytesFor_eq {start stop : ℕ} (h : start ≤ stop) (hstop : stop ≤ self.tokens.length) :
    self.bytesFor start stop = (Alignment.slice self.units start stop).flatten := by
  have hsplit : self.bytes = (self.units.take start).flatten
      ++ (Alignment.slice self.units start stop).flatten ++ (self.units.drop stop).flatten := by
    rw [← flatten_append, ← flatten_append, Alignment.slice]
    have hdrop : self.units.drop stop = (self.units.drop start).drop (stop - start) := by
      rw [drop_drop, Nat.add_sub_cancel' h]
    rw [hdrop, append_assoc, take_append_drop, take_append_drop, flatten_units]
  have htake : self.units.take stop
      = self.units.take start ++ Alignment.slice self.units start stop := by
    rw [Alignment.slice, ← take_add, Nat.add_sub_cancel' h]
  have hstart := self.byteOffsetAt_eq (h.trans hstop)
  have hend := self.byteOffsetAt_eq hstop
  rw [htake, flatten_append, length_append, ← hstart] at hend
  show (self.bytes.drop (self.byteOffsetAt start)).take
    (self.byteOffsetAt stop - self.byteOffsetAt start) = _
  rw [hend, Nat.add_sub_cancel_left, hstart]
  conv_lhs => rw [hsplit]
  rw [append_assoc, drop_left, take_left]

theorem bytesFor_unit {index : ℕ} (h : index < self.tokens.length) :
    self.bytesFor index (index + 1) = self.unit index := by
  rw [self.bytesFor_eq (le_succ _) h,
    slice_cons (getElem?_units_of_lt h) (lt_succ_self _), slice_self]
  simp

end TokenStream

end Frankengit.Diff
