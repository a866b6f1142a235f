/-
Frankengit/Pack/Delta.lean

Git delta programs and their application (crate `fgit-pack`, module `delta`):
the declared sizes, the copy and insert instructions, and the accounting that
bounds what an application may do.

A cursor into the program is modelled by the bytes that are left.  Deadlines
and allocation failures, which can end any step, are left out.

`Runs base program piece` is what an encoder has to establish: the program's
instructions append `piece` to the result, wherever they stand.  It is closed
under concatenation (`Runs.append`).
-/
import Frankengit.Lib.Fallible
import Frankengit.Types.Basic

namespace Frankengit.Pack

open Fallible List

/-! ### Limits, errors and accounting -/

/-- The kind of a pack entry. -/
inductive EntryKind where
  | commit | tree | blob | tag | ofsDelta | refDelta
deriving DecidableEq

inductive PackError where
  | inputLimit (actual limit : ℕ)
  | objectSizeLimit (actual limit : ℕ)
  | entryCountLimit (actual limit : ℕ)
  | truncated (context : String)
  | invalidEntryType (code : UInt8)
  | invalidVarint (context : String)
  | integerOverflow (context : String)
  | invalidOfsDelta
  | invalidDeltaInstruction
  | deltaBaseSizeMismatch (declared actual : ℕ)
  | deltaResultSizeLimit (declared limit : ℕ)
  | deltaResultSizeMismatch (declared actual : ℕ)
  | deltaCopyOutOfRange (offset length baseLen : ℕ)
  | deltaWorkLimit (attempted limit : ℕ)
  | totalExpandedLimit (actual limit : ℕ)
  | deltaDepthLimit (depth limit : ℕ)
  | deltaFanoutLimit (fanout limit : ℕ)
  | deltaCycle
  | missingDeltaBase
  | duplicateObjectOffset (offset : ℕ)
  | duplicateObjectId
  | untypedInPackBase
  | untypedExternalDeltaBase
  | deltaObjectTypeUnavailable
  | allocationFailed (requested : ℕ)
deriving DecidableEq

/-- The declared bounds.  They are machine words. -/
structure PackLimits where
  maxInputBytes : ℕ
  maxEntries : ℕ
  maxObjectBytes : ℕ
  maxDeltaDepth : ℕ
  maxDeltaFanout : ℕ
  maxTotalExpandedBytes : ℕ
  maxDeltaWork : ℕ
  maxCachedBytes : ℕ
  maxIndexEntries : ℕ
  maxTotalExpandedBytes_fits : maxTotalExpandedBytes ≤ u64Max
  maxDeltaWork_fits : maxDeltaWork ≤ u64Max

namespace PackLimits

variable (limits : PackLimits)

def input (actual : ℕ) : Except PackError Unit :=
  refuseIf (limits.maxInputBytes < actual) (.inputLimit actual limits.maxInputBytes)

def objectSize (actual : ℕ) : Except PackError Unit :=
  refuseIf (limits.maxObjectBytes < actual) (.objectSizeLimit actual limits.maxObjectBytes)

end PackLimits

/-- Addition of machine words. -/
def checkedAdd (context : String) (a b : ℕ) : Except PackError ℕ :=
  if a + b ≤ u64Max then .ok (a + b) else .error (.integerOverflow context)

/-- What one resolution has used. -/
structure Accounting where
  expanded : ℕ
  work : ℕ
deriving DecidableEq

namespace Accounting

/-- Nothing used yet. -/
def fresh : Accounting := ⟨0, 0⟩

variable (limits : PackLimits) (acc : Accounting)

def ensureExpanded (bytes : ℕ) : Except PackError Unit := do
  let attempted ← checkedAdd "delta expanded bytes" acc.expanded bytes
  refuseIf (limits.maxTotalExpandedBytes < attempted)
    (.totalExpandedLimit attempted limits.maxTotalExpandedBytes)

def addExpanded (bytes : ℕ) : Except PackError Accounting := do
  acc.ensureExpanded limits bytes
  let attempted ← checkedAdd "delta expanded bytes" acc.expanded bytes
  return { acc with expanded := attempted }

def addWork (bytes : ℕ) : Except PackError Accounting := do
  let attempted ← checkedAdd "delta chain work" acc.work bytes
  refuseIf (limits.maxDeltaWork < attempted) (.deltaWorkLimit attempted limits.maxDeltaWork)
  return { acc with work := attempted }

end Accounting

/-! ### Reading -/

/-- Read a size, seven bits a byte, least significant first. -/
def readDeltaSizeFrom (context : String) (value shift : ℕ) : Bytes → Except PackError (ℕ × Bytes)
  | [] => .error (.truncated context)
  | byte :: rest =>
    let payload := (byte &&& 0x7f).toNat
    if u64Max < payload <<< shift then .error (.invalidVarint context)
    else
      match checkedAdd context value (payload <<< shift) with
      | .error error => .error error
      | .ok value =>
        if byte &&& 0x80 = 0 then .ok (value, rest)
        else if 64 ≤ shift + 7 then .error (.invalidVarint context)
        else readDeltaSizeFrom context value (shift + 7) rest

def readDeltaSize (context : String) (input : Bytes) : Except PackError (ℕ × Bytes) :=
  readDeltaSizeFrom context 0 0 input

/-- Read the bytes of a number that the instruction says are present. -/
def readMasked (context : String) (instruction : UInt8) :
    List (UInt8 × ℕ) → ℕ → Bytes → Except PackError (ℕ × Bytes)
  | [], value, input => .ok (value, input)
  | (mask, shift) :: fields, value, input =>
    if instruction &&& mask ≠ 0 then
      match input with
      | [] => .error (.truncated context)
      | byte :: rest =>
        readMasked context instruction fields (value ||| byte.toNat <<< shift) rest
    else readMasked context instruction fields value input

/-- The masks and shifts of the offset bytes. -/
def offsetFields : List (UInt8 × ℕ) := [(0x01, 0), (0x02, 8), (0x04, 16), (0x08, 24)]

/-- The masks and shifts of the length bytes. -/
def lengthFields : List (UInt8 × ℕ) := [(0x10, 0), (0x20, 8), (0x40, 16)]

/-- The offset and length of a copy.  A length of zero stands for 65536. -/
def decodeCopyInstruction (instruction : UInt8) (input : Bytes) :
    Except PackError ((ℕ × ℕ) × Bytes) := do
  let (offset, input) ← readMasked "delta copy offset" instruction offsetFields 0 input
  let (length, input) ← readMasked "delta copy length" instruction lengthFields 0 input
  return ((offset, if length = 0 then 0x10000 else length), input)

theorem readMasked_length {context : String} {instruction : UInt8} {fields : List (UInt8 × ℕ)}
    {value value' : ℕ} {input rest : Bytes}
    (h : readMasked context instruction fields value input = .ok (value', rest)) :
    rest.length ≤ input.length := by
  induction fields generalizing value input with
  | nil =>
    cases h
    exact le_rfl
  | cons field fields ih =>
    simp only [readMasked] at h
    split at h
    · cases input with
      | nil => cases h
      | cons byte input => exact (ih h).trans (Nat.le_succ _)
    · exact ih h

theorem decodeCopyInstruction_length {instruction : UInt8} {input rest : Bytes} {copy : ℕ × ℕ}
    (h : decodeCopyInstruction instruction input = .ok (copy, rest)) :
    rest.length ≤ input.length := by
  simp only [decodeCopyInstruction, bind_eq_ok, pure_eq_ok] at h
  obtain ⟨⟨offset, between⟩, hoff, ⟨length, left⟩, hlen, heq⟩ := h
  obtain ⟨-, rfl⟩ := Prod.mk.inj heq
  exact (readMasked_length hlen).trans (readMasked_length hoff)

/-! ### Applying -/

section Apply

variable (limits : PackLimits)

/-- Append bytes to the result, up to its declared size. -/
def appendCopy (declaredResult : ℕ) (bytes result : Bytes) (acc : Accounting) :
    Except PackError (Bytes × Accounting) := do
  let resultingLen ← checkedAdd "delta result length" result.length bytes.length
  refuseIf (declaredResult < resultingLen) (.deltaResultSizeMismatch declaredResult resultingLen)
  let acc ← acc.addWork limits bytes.length
  return (result ++ bytes, acc)

/-- The bytes of a copy, which must lie in the base. -/
def copyRange (base : Bytes) (offset length : ℕ) : Except PackError Bytes := do
  let stop ← checkedAdd "delta copy range" offset length
  refuseIf (base.length < stop) (.deltaCopyOutOfRange offset length base.length)
  return (base.drop offset).take length

/-- Run the instructions that are left. -/
def applyInstructions (base : Bytes) (declaredResult : ℕ) (input result : Bytes)
    (acc : Accounting) : Except PackError (Bytes × Accounting) :=
  match input with
  | [] => .ok (result, acc)
  | instruction :: rest =>
    if instruction = 0 then .error .invalidDeltaInstruction
    else if instruction &&& 0x80 = 0 then
      if rest.length < instruction.toNat then .error (.truncated "delta insert data")
      else
        match appendCopy limits declaredResult (rest.take instruction.toNat) result acc with
        | .error error => .error error
        | .ok (result, acc) =>
          applyInstructions base declaredResult (rest.drop instruction.toNat) result acc
    else
      match h : decodeCopyInstruction instruction rest with
      | .error error => .error error
      | .ok ((offset, length), rest') =>
        have := decodeCopyInstruction_length h
        match copyRange base offset length >>= fun bytes =>
            appendCopy limits declaredResult bytes result acc with
        | .error error => .error error
        | .ok (result, acc) => applyInstructions base declaredResult rest' result acc
termination_by input.length
decreasing_by
  · simp only [length_drop, length_cons]
    omega
  · simp only [length_cons]
    omega

def applyDeltaWithAccounting (base delta : Bytes) (acc : Accounting) :
    Except PackError (Bytes × Accounting) := do
  limits.input delta.length
  limits.objectSize base.length
  let (declaredBase, input) ← readDeltaSize "delta base size" delta
  refuseIf (declaredBase ≠ base.length) (.deltaBaseSizeMismatch declaredBase base.length)
  let (declaredResult, input) ← readDeltaSize "delta result size" input
  refuseIf (limits.maxObjectBytes < declaredResult)
    (.deltaResultSizeLimit declaredResult limits.maxObjectBytes)
  acc.ensureExpanded limits declaredResult
  let (result, acc) ← applyInstructions limits base declaredResult input [] acc
  refuseIf (result.length ≠ declaredResult) (.deltaResultSizeMismatch declaredResult result.length)
  return (result, acc)

/-- Apply one delta; the base read and the result are both charged. -/
def applyDeltaWithBudget (base delta : Bytes) (acc : Accounting) :
    Except PackError (Bytes × Accounting) := do
  let acc ← acc.addExpanded limits base.length
  let (result, acc) ← applyDeltaWithAccounting limits base delta acc
  let acc ← acc.addExpanded limits result.length
  return (result, acc)

def applyDelta (base delta : Bytes) : Except PackError Bytes := do
  let (result, _) ← applyDeltaWithBudget limits base delta .fresh
  return result

end Apply

/-! ### Programs that run -/

theorem checkedAdd_ok (context : String) {a b : ℕ} (h : a + b ≤ u64Max) :
    checkedAdd context a b = .ok (a + b) := if_pos h

theorem appendCopy_ok {limits : PackLimits} {declaredResult : ℕ} {bytes result : Bytes}
    {acc : Accounting} (hdecl : declaredResult ≤ u64Max)
    (hresult : result.length + bytes.length ≤ declaredResult)
    (hwork : acc.work + bytes.length ≤ limits.maxDeltaWork) :
    appendCopy limits declaredResult bytes result acc
      = .ok (result ++ bytes, { acc with work := acc.work + bytes.length }) := by
  have hadd := checkedAdd_ok "delta result length" (hresult.trans hdecl)
  have hcharge := checkedAdd_ok "delta chain work"
    (hwork.trans limits.maxDeltaWork_fits)
  simp only [appendCopy, Accounting.addWork, bind_eq_ok, refuseIf_eq_ok, pure_eq_ok]
  exact ⟨_, hadd, (), by omega, _, ⟨_, hcharge, (), by omega, rfl⟩, rfl⟩

/-- One copy instruction runs if its bytes decode. -/
theorem applyInstructions_copy {limits : PackLimits} {declaredResult offset length : ℕ}
    {opcode : UInt8} {base input rest result : Bytes} {acc : Accounting} {out : Bytes × Accounting}
    (hcopy : opcode &&& 0x80 ≠ 0)
    (hdecode : decodeCopyInstruction opcode input = .ok ((offset, length), rest))
    (happ : (copyRange base offset length >>= fun bytes =>
      appendCopy limits declaredResult bytes result acc) = .ok out) :
    applyInstructions limits base declaredResult (opcode :: input) result acc
      = applyInstructions limits base declaredResult rest out.1 out.2 := by
  have hne : opcode ≠ 0 := by
    rintro rfl
    exact hcopy rfl
  rw [applyInstructions, if_neg hne, if_neg hcopy]
  split
  · next h =>
    rw [hdecode] at h
    cases h
  · next h =>
    rw [hdecode] at h
    cases h
    rw [happ]

/-- The instructions append `piece`, wherever they stand. -/
def Runs (base program piece : Bytes) : Prop :=
  ∀ (limits : PackLimits) (declaredResult : ℕ) (rest result : Bytes) (acc : Accounting),
    declaredResult ≤ u64Max → result.length + piece.length ≤ declaredResult →
    acc.work + piece.length ≤ limits.maxDeltaWork →
    applyInstructions limits base declaredResult (program ++ rest) result acc
      = applyInstructions limits base declaredResult rest (result ++ piece)
          { acc with work := acc.work + piece.length }

theorem Runs.nil (base : Bytes) : Runs base [] [] := by
  intro limits declaredResult rest result acc _ _ _
  simp

theorem Runs.append {base p q x y : Bytes} (hp : Runs base p x) (hq : Runs base q y) :
    Runs base (p ++ q) (x ++ y) := by
  intro limits declaredResult rest result acc hdecl hresult hwork
  simp only [length_append] at hresult hwork
  rw [append_assoc, hp limits declaredResult (q ++ rest) result acc hdecl (by omega) (by omega)]
  rw [hq limits declaredResult rest (result ++ x) _ hdecl (by simp only [length_append]; omega)
    (by simp only; omega)]
  simp only [append_assoc, length_append, Nat.add_assoc]

end Frankengit.Pack
