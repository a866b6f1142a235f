/-
Frankengit/Pack/DeltaEncode.lean

The delta encoder (crate `fgit-pack`, modules `writer` and
`writer::prefix_suffix`).

Two encodings compete.  `PrefixSuffixDelta` copies the common prefix and
suffix and inserts what is between; its length is computed before any byte is
emitted.  `scanIndexedDeltaProgram` walks the target with a rolling
fingerprint, copies the longest indexed match where it finds one, and gives
up once it cannot stay under its limit.

The fingerprints, the index over the base and the marked positions of the
target only decide where a match is looked for.  Bit sets are modelled by the
numbers they contain, and the sentinel that ends a chain by `none`.  An
emitting function returns the bytes it appends.
-/
import Frankengit.Pack.Delta

namespace Frankengit.Pack

open Fallible

/-! ### Emitting -/

/-- A number, seven bits a byte, least significant first. -/
def varintBytes (value : ℕ) : Bytes :=
  let byte := UInt8.ofNat (value &&& 0x7f)
  if value >>> 7 = 0 then [byte] else (byte ||| 0x80) :: varintBytes (value >>> 7)
termination_by value
decreasing_by
  rw [Nat.shiftRight_eq_div_pow] at *
  omega

def encodeDeltaVarint (value : ℕ) : Except PackError Bytes :=
  if u64Max < value then .error (.integerOverflow "delta size varint") else .ok (varintBytes value)

/-- The byte of a number at a shift. -/
def byteAt (value shift : ℕ) : UInt8 := UInt8.ofNat (value >>> shift &&& 0xff)

/-- Collect the bytes of a number that are not zero, and flag each in the
opcode. -/
def emitFields (value : ℕ) : List (UInt8 × ℕ) → UInt8 × Bytes → UInt8 × Bytes
  | [], out => out
  | (flag, shift) :: fields, (opcode, extra) =>
    if byteAt value shift ≠ 0 then
      emitFields value fields (opcode ||| flag, extra ++ [byteAt value shift])
    else emitFields value fields (opcode, extra)

/-- The flag and the shift of each of `count` bytes, the flags starting at a
bit. -/
def byteFlags (count start : ℕ) : List (UInt8 × ℕ) :=
  (List.range count).map fun index => (UInt8.ofNat (1 <<< (index + start)), index * 8)

variable (offset length : ℕ)

def emitCopyInstruction : Except PackError Bytes :=
  if length = 0 ∨ 0x10000 < length then .error .invalidDeltaInstruction
  else
    let withOffset := emitFields offset (byteFlags 4 0) (0x80, [])
    let withLength :=
      if length ≠ 0x10000 then emitFields length (byteFlags 3 4) withOffset else withOffset
    .ok (withLength.1 :: withLength.2)

/-- Copies of at most 65536 bytes each. -/
def emitCopyChunks (offset remaining : ℕ) : Except PackError Bytes :=
  if remaining = 0 then .ok []
  else do
    let instruction ← emitCopyInstruction offset (min remaining 0x10000)
    refuseIf (u32Max < offset + min remaining 0x10000) (.integerOverflow "delta copy next offset")
    let rest ← emitCopyChunks (offset + min remaining 0x10000) (remaining - min remaining 0x10000)
    return instruction ++ rest
termination_by remaining

def emitCopyRun : Except PackError Bytes := do
  refuseIf (u32Max < offset) (.integerOverflow "delta copy offset")
  emitCopyChunks offset length

/-- Inserts of at most 127 bytes each. -/
def emitInsertRun (bytes : Bytes) : Bytes :=
  if bytes = [] then []
  else
    UInt8.ofNat (bytes.take 127).length :: bytes.take 127 ++ emitInsertRun (bytes.drop 127)
termination_by bytes.length
decreasing_by
  have hpos : 0 < bytes.length := List.length_pos_of_ne_nil ‹_›
  simp only [List.length_drop]
  omega

/-- The bytes `emitInsertRun` spends. -/
def insertRunCost (length : ℕ) : ℕ := length + (length + 126) / 127

/-! ### Matching -/

/-- How many bytes agree, one by one. -/
def scalarPrefix : Bytes → Bytes → ℕ
  | a :: left, b :: right => if a = b then scalarPrefix left right + 1 else 0
  | _, _ => 0

/-- How many whole chunks of 64 bytes agree. -/
def equalChunks (left right : Bytes) : ℕ :=
  if 64 ≤ left.length ∧ 64 ≤ right.length ∧ left.take 64 = right.take 64 then
    equalChunks (left.drop 64) (right.drop 64) + 1
  else 0
termination_by left.length
decreasing_by
  simp only [List.length_drop]
  omega

/-- The length of the common prefix: whole chunks first, then bytes. -/
def commonPrefix (left right : Bytes) : ℕ :=
  let matched := equalChunks left right * 64
  matched + scalarPrefix (left.drop matched) (right.drop matched)

variable (base target : Bytes)

/-- The length of the common suffix of what follows a prefix; chunks are
taken from the end. -/
def commonSuffix (pre : ℕ) : ℕ :=
  commonPrefix (base.drop pre).reverse (target.drop pre).reverse

/-! ### The prefix/suffix program -/

def varintCost (value : ℕ) : ℕ :=
  if 0x80 ≤ value then varintCost (value >>> 7) + 1 else 1
termination_by value
decreasing_by
  rw [Nat.shiftRight_eq_div_pow]
  omega

/-- How many of the low bytes are not zero. -/
def nonzeroBytes (count value : ℕ) : ℕ :=
  (List.range count).countP fun index => byteAt value (index * 8) ≠ 0

def copyChunksCost (offset remaining : ℕ) : Except PackError ℕ :=
  if remaining = 0 then .ok 0
  else do
    let chunk := min remaining 0x10000
    let lengthBytes := if chunk = 0x10000 then 0 else nonzeroBytes 3 chunk
    refuseIf (u32Max < offset + chunk) (.integerOverflow "delta copy next offset")
    let rest ← copyChunksCost (offset + min remaining 0x10000) (remaining - min remaining 0x10000)
    return (1 + nonzeroBytes 4 offset + lengthBytes) + rest
termination_by remaining

def copyRunCost : Except PackError ℕ := do
  refuseIf (u32Max < offset) (.integerOverflow "delta copy offset")
  copyChunksCost offset length

structure PrefixSuffixDelta where
  baseLength : ℕ
  targetLength : ℕ
  pre : ℕ
  middle : Bytes
  suffixStart : ℕ
  suf : ℕ
  encodedLength : ℕ

namespace PrefixSuffixDelta

/-- Match and size, without emitting (`new` in the source). -/
def plan : Except PackError PrefixSuffixDelta := do
  let pre := commonPrefix base target
  let suf := commonSuffix base target pre
  let middle := (target.drop pre).take (target.length - suf - pre)
  refuseIf (u64Max < base.length) (.integerOverflow "delta size varint")
  refuseIf (u64Max < target.length) (.integerOverflow "delta size varint")
  let copyPre ← copyRunCost 0 pre
  let copySuf ← copyRunCost (base.length - suf) suf
  let total := varintCost base.length + varintCost target.length + copyPre
    + insertRunCost middle.length + copySuf
  refuseIf (u64Max < total) (.integerOverflow "delta prefix/suffix program bytes")
  return ⟨base.length, target.length, pre, middle, base.length - suf, suf, total⟩

def encode (delta : PrefixSuffixDelta) : Except PackError Bytes := do
  let baseSize ← encodeDeltaVarint delta.baseLength
  let targetSize ← encodeDeltaVarint delta.targetLength
  let copyPre ← emitCopyRun 0 delta.pre
  let copySuf ← emitCopyRun delta.suffixStart delta.suf
  return baseSize ++ targetSize ++ copyPre ++ emitInsertRun delta.middle ++ copySuf

end PrefixSuffixDelta

/-! ### Fingerprints and the index of a base -/

/-- The bytes of one indexed block. -/
def deltaIndexBlockBytes : ℕ := 16

/-- How many candidates one lookup examines. -/
def deltaMaxMatchChain : ℕ := 64

def deltaHashMultiplier : UInt32 := 0x01000193

/-- The fingerprint of one window. -/
def blockFingerprint (window : Bytes) : UInt32 :=
  window.foldl (fun acc byte => acc * deltaHashMultiplier + byte.toUInt32) 0

/-- The weight of a window's first byte. -/
def highPower : UInt32 :=
  (List.range (deltaIndexBlockBytes - 1)).foldl (fun power _ => power * deltaHashMultiplier) 1

/-- The window at a position. -/
def windowAt (target : Bytes) (position : ℕ) : Bytes :=
  (target.drop position).take deltaIndexBlockBytes

/-- The next window's fingerprint from the last one's. -/
def rollFingerprint (target : Bytes) (position : ℕ) (fingerprint : UInt32) : UInt32 :=
  (fingerprint - (target.getD (position - 1) 0).toUInt32 * highPower) * deltaHashMultiplier
    + (target.getD (position + deltaIndexBlockBytes - 1) 0).toUInt32

/-- A hashed index over one base: the first slot of each bucket, the next slot
of each slot, and each slot's offset and fingerprint. -/
structure BaseDeltaIndex where
  heads : List (Option ℕ)
  chain : List (Option ℕ)
  offsets : List ℕ
  fingerprints : List UInt32
  mask : ℕ

namespace BaseDeltaIndex

/-- The bucket of a fingerprint. -/
def bucket (mask : ℕ) (fingerprint : UInt32) : ℕ := fingerprint.toNat &&& mask

/-- Add the block at an offset to the index. -/
def insertBlock (base : Bytes) (index : BaseDeltaIndex) (offset : ℕ) : BaseDeltaIndex :=
  let fingerprint := blockFingerprint (windowAt base offset)
  let slot := index.offsets.length
  { index with
    heads := index.heads.set (bucket index.mask fingerprint) (some slot)
    chain := index.chain ++ [index.heads.getD (bucket index.mask fingerprint) none]
    offsets := index.offsets ++ [offset]
    fingerprints := index.fingerprints ++ [fingerprint] }

/-- Index a base at a uniform stride; a base too short or too long has no
index. -/
def build (limits : PackLimits) (base : Bytes) : Option BaseDeltaIndex :=
  if base.length < deltaIndexBlockBytes ∨ u32Max < base.length then none
  else
    let blocks := base.length / deltaIndexBlockBytes
    let ceiling := max limits.maxIndexEntries 1
    let stride := deltaIndexBlockBytes * max ((blocks + ceiling - 1) / ceiling) 1
    let span := base.length - deltaIndexBlockBytes
    let entries := span / stride + 1
    let buckets := entries.nextPowerOfTwo
    some (((List.range entries).map (· * stride)).foldl (insertBlock base)
      ⟨List.replicate buckets none, [], [], [], buckets - 1⟩)

/-- Whether a match is better than the best so far. -/
def isBetter : Option (ℕ × ℕ) → Bool
  | none => true
  | some (bestOffset, bestLength) =>
    bestLength < length || (length = bestLength && offset < bestOffset)

/-- Walk a chain of candidates, comparing bytes where the fingerprint
agrees. -/
def walk (index : BaseDeltaIndex) (base target : Bytes) (position : ℕ) (fingerprint : UInt32) :
    ℕ → Option ℕ → Option (ℕ × ℕ) → Option (ℕ × ℕ)
  | 0, _, best => best
  | _ + 1, none, best => best
  | remaining + 1, some slot, best =>
    let next := index.chain.getD slot none
    if index.fingerprints.getD slot 0 ≠ fingerprint then
      walk index base target position fingerprint remaining next best
    else
      let offset := index.offsets.getD slot 0
      let length := commonPrefix (base.drop offset) (target.drop position)
      if deltaIndexBlockBytes ≤ length ∧ isBetter offset length best then
        walk index base target position fingerprint remaining next (some (offset, length))
      else walk index base target position fingerprint remaining next best

/-- The longest indexed match at a position, if it fills a block. -/
def bestMatch (index : BaseDeltaIndex) (base target : Bytes) (position : ℕ)
    (fingerprint : UInt32) : Option (ℕ × ℕ) :=
  walk index base target position fingerprint deltaMaxMatchChain
    (index.heads.getD (bucket index.mask fingerprint) none) none

end BaseDeltaIndex

/-- The target positions at which some base may match, in order. -/
structure LivePositions where
  marked : List ℕ

namespace LivePositions

/-- The number of bits of the union filter. -/
def filterBits (indexes : List BaseDeltaIndex) : ℕ :=
  let entries := (indexes.map fun index => index.fingerprints.length).sum
  (max (2 ^ 15) (min (entries * 16) (2 ^ 24))).nextPowerOfTwo

/-- The bits that some fingerprint of some index sets. -/
def filterOf (bits : ℕ) (indexes : List BaseDeltaIndex) : List ℕ :=
  indexes.flatMap fun index => index.fingerprints.map fun fingerprint =>
    fingerprint.toNat &&& (bits - 1)

/-- Mark positions from one on, rolling the fingerprint. -/
def markFrom (target : Bytes) (bits : ℕ) (filter : List ℕ) : ℕ → ℕ → UInt32 → List ℕ
  | 0, _, _ => []
  | count + 1, position, fingerprint =>
    let fingerprint :=
      if 0 < position then rollFingerprint target position fingerprint else fingerprint
    let marked := markFrom target bits filter count (position + 1) fingerprint
    if fingerprint.toNat &&& (bits - 1) ∈ filter then position :: marked else marked

/-- Mark the windows whose fingerprint some index may hold. -/
def build (target : Bytes) (indexes : List BaseDeltaIndex) : Option LivePositions :=
  if target.length < deltaIndexBlockBytes then none
  else
    let bits := filterBits indexes
    some ⟨markFrom target bits (filterOf bits indexes)
      (target.length - deltaIndexBlockBytes + 1) 0 (blockFingerprint (windowAt target 0))⟩

/-- The first marked position at or after one. -/
def next (live : LivePositions) (start : ℕ) : Option ℕ :=
  live.marked.find? fun position => start ≤ position

end LivePositions

/-! ### The indexed program -/

/-- Where the scan goes on: past the positions left unmarked. -/
def scanNext (live : Option LivePositions) (target : Bytes) (position : ℕ) : ℕ :=
  match live with
  | none => position
  | some live =>
    let afterLast := target.length - deltaIndexBlockBytes + 1
    match live.next position with
    | none => afterLast
    | some next => min next afterLast

theorem BaseDeltaIndex.walk_length {index : BaseDeltaIndex} {base target : Bytes} {position : ℕ}
    {fingerprint : UInt32} {remaining : ℕ} {candidate : Option ℕ} {best : Option (ℕ × ℕ)}
    (hbest : ∀ m ∈ best, deltaIndexBlockBytes ≤ m.2 ∧
      m.2 = commonPrefix (base.drop m.1) (target.drop position)) :
    ∀ m ∈ index.walk base target position fingerprint remaining candidate best,
      deltaIndexBlockBytes ≤ m.2 ∧ m.2 = commonPrefix (base.drop m.1) (target.drop position) := by
  induction remaining generalizing candidate best with
  | zero => exact hbest
  | succ remaining ih =>
    cases candidate with
    | none => exact hbest
    | some slot =>
      simp only [walk]
      split
      · exact ih hbest
      · split
        · next h =>
          refine ih fun m hm => ?_
          cases hm
          exact ⟨h.1, rfl⟩
        · exact ih hbest

/-- A match fills a block, and its bytes were compared. -/
theorem BaseDeltaIndex.bestMatch_length {index : BaseDeltaIndex} {base target : Bytes}
    {position offset length : ℕ} {fingerprint : UInt32}
    (h : index.bestMatch base target position fingerprint = some (offset, length)) :
    deltaIndexBlockBytes ≤ length ∧
      length = commonPrefix (base.drop offset) (target.drop position) :=
  BaseDeltaIndex.walk_length (by simp) (offset, length) h

/-- The scan.  Ends with where the last literal starts, or with nothing once
the program reaches the limit. -/
def scanLoop (index : BaseDeltaIndex) (base target : Bytes) (limit : ℕ)
    (live : Option LivePositions) (position literalStart : ℕ) (fingerprint : UInt32)
    (rolling : Bool) (program : Bytes) : Except PackError (Option (ℕ × Bytes)) :=
  if position + deltaIndexBlockBytes ≤ target.length then
    if position < scanNext live target position then
      scanLoop index base target limit live (scanNext live target position) literalStart
        fingerprint false program
    else if limit ≤ program.length + insertRunCost (position - literalStart) then .ok none
    else
      let fingerprint :=
        if rolling then rollFingerprint target position fingerprint
        else blockFingerprint (windowAt target position)
      match hmatch : index.bestMatch base target position fingerprint with
      | some (offset, length) => do
        let copy ← emitCopyRun offset length
        let literal := (target.drop literalStart).take (position - literalStart)
        scanLoop index base target limit live (position + length) (position + length)
          fingerprint false (program ++ emitInsertRun literal ++ copy)
      | none =>
        scanLoop index base target limit live (position + 1) literalStart fingerprint true program
  else .ok (some (literalStart, program))
termination_by target.length - position
decreasing_by
  all_goals
    have hwindow : position + 16 ≤ target.length := ‹position + deltaIndexBlockBytes ≤ _›
  · omega
  · have hlen : 16 ≤ length := (BaseDeltaIndex.bestMatch_length hmatch).1
    omega
  · omega

def scanIndexedDeltaProgram (index : BaseDeltaIndex) (base target : Bytes) (limit : ℕ)
    (live : Option LivePositions) : Except PackError (Option Bytes) := do
  let baseSize ← encodeDeltaVarint base.length
  let targetSize ← encodeDeltaVarint target.length
  match ← scanLoop index base target limit live 0 0 0 false (baseSize ++ targetSize) with
  | none => return none
  | some (literalStart, program) =>
    let program := program ++ emitInsertRun (target.drop literalStart)
    return if program.length < limit then some program else none

inductive DeltaSearch where
  | prefixSuffix | indexedBlocks
deriving DecidableEq

/-- The indexed program, where it is searched for. -/
def indexedProgram (limit : ℕ) (live : Option LivePositions) :
    DeltaSearch → Option BaseDeltaIndex → Except PackError (Option Bytes)
  | .indexedBlocks, some index => scanIndexedDeltaProgram index base target limit live
  | _, _ => .ok none

/-- The program for a base and a target, if one is shorter than the bound. -/
def makeDeltaProgramWith (search : DeltaSearch) (index : Option BaseDeltaIndex)
    (live : Option LivePositions) (bound : ℕ) : Except PackError (Option Bytes) := do
  let prefixSuffix ← PrefixSuffixDelta.plan base target
  match ← indexedProgram base target (min bound prefixSuffix.encodedLength) live search index with
  | some program => return some program
  | none =>
    if prefixSuffix.encodedLength < bound then do
      let program ← prefixSuffix.encode
      return some program
    else return none

end Frankengit.Pack
