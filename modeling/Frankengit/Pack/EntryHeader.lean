/-
Frankengit/Pack/EntryHeader.lean

The framing of a pack entry (crate `fgit-pack`, modules `pack` and `writer`):
the type and size in front of every entry, and the distance in front of a delta
on an earlier entry.

Sizes go least significant group first, after four bits in the byte of the type.
Distances go most significant group first, and every group but the last counts
from one, so that no distance has two encodings.  Both are read by one loop
(`readGroups`).  Words have 64 bits.
-/
import Frankengit.Pack.DeltaRoundTrip

namespace Frankengit.Pack

open Fallible List Nat EntryKind

/-! ### Encoding -/

/-- The type and size in front of an entry. -/
def encodeEntryHeader (typeCode : UInt8) (size : ℕ) : Except PackError Bytes := do
  refuseIf (¬ (1 ≤ typeCode ∧ typeCode ≤ 7) ∨ typeCode = 5) (.invalidEntryType typeCode)
  refuseIf (u64Max < size) (.integerOverflow "pack entry size")
  let first := UInt8.ofNat (size &&& 0x0f) ||| typeCode <<< 4
  return if size >>> 4 = 0 then [first] else (first ||| 0x80) :: varintBytes (size >>> 4)

/-- Seven bits as a byte. -/
def distanceByte (value : ℕ) : Except PackError UInt8 := do
  refuseIf (255 < value &&& 0x7f) .invalidOfsDelta
  return UInt8.ofNat (value &&& 0x7f)

/-- Put the groups of a value in front of the bytes.  The source appends them
and reverses in the end. -/
def pushGroups (value : ℕ) (bytes : Bytes) : Except PackError Bytes :=
  if value = 0 then .ok bytes
  else if value < 1 then .error .invalidOfsDelta
  else do
    let byte ← distanceByte (value - 1)
    pushGroups ((value - 1) >>> 7) ((byte ||| 0x80) :: bytes)
termination_by value
decreasing_by
  rw [shiftRight_eq_div_pow]
  omega

/-- The distance back to a base. -/
def encodeOfsDeltaDistance (distance : ℕ) : Except PackError Bytes := do
  refuseIf (distance = 0) .invalidOfsDelta
  let byte ← distanceByte distance
  pushGroups (distance >>> 7) [byte]

/-! ### Decoding -/

def EntryKind.fromTypeCode (code : UInt8) : Except PackError EntryKind :=
  if code = 1 then .ok .commit
  else if code = 2 then .ok .tree
  else if code = 3 then .ok .blob
  else if code = 4 then .ok .tag
  else if code = 6 then .ok .ofsDelta
  else if code = 7 then .ok .refDelta
  else .error (.invalidEntryType code)

/-- Read groups of seven bits while the last byte says that one follows. -/
def readGroups {σ : Type} (context : String) (group : σ → ℕ → Except PackError σ) (state : σ)
    (index : ℕ) (byte : UInt8) : Bytes → Except PackError (σ × ℕ)
  | [] => if byte &&& 0x80 = 0 then .ok (state, index) else .error (.truncated context)
  | next :: rest =>
    if byte &&& 0x80 = 0 then .ok (state, index)
    else do
      let state ← group state (next &&& 0x7f).toNat
      readGroups context group state (index + 1) next rest

/-- One more group of a size, which goes above those before. -/
def sizeGroup (state : ℕ × ℕ) (payload : ℕ) : Except PackError (ℕ × ℕ) := do
  let (value, shift) := state
  refuseIf (64 ≤ shift) (.invalidVarint "pack entry size")
  refuseIf (u64Max < payload <<< shift) (.invalidVarint "pack entry size")
  let value ← checkedAdd "pack entry size" value (payload <<< shift)
  return (value, shift + 7)

structure PackEntryHeader where
  kind : EntryKind
  declaredSize : ℕ
deriving DecidableEq

/-- The header of an entry, and how many bytes it takes. -/
def decodeEntryHeader (input : Bytes) (limits : PackLimits) :
    Except PackError (PackEntryHeader × ℕ) := do
  limits.input input.length
  match input with
  | [] => .error (.truncated "pack entry header")
  | first :: rest =>
    let kind ← fromTypeCode (first >>> 4 &&& 0x07)
    let ((size, _), index) ←
      readGroups "pack entry size varint" sizeGroup ((first &&& 0x0f).toNat, 4) 1 first rest
    limits.objectSize size
    return (⟨kind, size⟩, index)

/-- One more group of a distance, which goes below those before. -/
def distanceGroup (distance payload : ℕ) : Except PackError ℕ := do
  refuseIf (u64Max < (distance + 1) * 128 + payload) .invalidOfsDelta
  return (distance + 1) * 128 + payload

def readDistance : Bytes → Except PackError (ℕ × ℕ)
  | [] => .error (.truncated "OFS_DELTA base")
  | first :: rest =>
    readGroups "OFS_DELTA base" distanceGroup (first &&& 0x7f).toNat 1 first rest

/-- The offset of the base, and how many bytes the distance takes.  No entry
starts in the twelve bytes of the pack header. -/
def decodeOfsDeltaBase (currentOffset : ℕ) (input : Bytes) : Except PackError (ℕ × ℕ) := do
  let (distance, index) ← readDistance input
  refuseIf (distance = 0 ∨ currentOffset < distance) .invalidOfsDelta
  refuseIf (currentOffset - distance < 12) .invalidOfsDelta
  return (currentOffset - distance, index)

/-! ### Groups -/

section Groups

variable {σ : Type} {context : String} {group : σ → ℕ → Except PackError σ} {state state' : σ}
  {index acc shift value : ℕ} {byte next : UInt8} {rest : Bytes}

theorem readGroups_done (hlast : byte &&& 0x80 = 0) :
    readGroups context group state index byte rest = .ok (state, index) := by
  cases rest with
  | nil | cons => exact if_pos hlast

theorem readGroups_more {payload : ℕ} (hmore : byte &&& 0x80 ≠ 0)
    (hnext : (next &&& 0x7f).toNat = payload) (hgroup : group state payload = .ok state') :
    readGroups context group state index byte (next :: rest)
      = readGroups context group state' (index + 1) next rest := by
  rw [readGroups, if_neg hmore, hnext, hgroup]
  rfl

/-- A group of a size that fits. -/
theorem sizeGroup_ok (hpos : 0 < value) (hfits : acc + value * 2 ^ shift ≤ u64Max) :
    sizeGroup (acc, shift) (value % 128) = .ok (acc + value % 128 * 2 ^ shift, shift + 7) := by
  have hlow : value % 128 * 2 ^ shift ≤ value * 2 ^ shift := mul_le_mul_right _ (mod_le _ _)
  simp only [sizeGroup, shiftLeft_eq, bind_eq_ok, refuseIf_eq_ok, pure_eq_ok]
  exact ⟨⟨⟩, (shift_lt hpos (by omega)).not_ge, ⟨⟩, by omega, _, checkedAdd_ok _ (by omega), rfl⟩

/-- A size is read back behind a byte that says that groups follow. -/
theorem readGroups_varintBytes (context : String) (index : ℕ) (rest : Bytes) (hpos : 0 < value)
    (hmore : byte &&& 0x80 ≠ 0) (hfits : acc + value * 2 ^ shift ≤ u64Max) :
    ∃ shift', readGroups context sizeGroup (acc, shift) index byte (varintBytes value ++ rest)
      = .ok ((acc + value * 2 ^ shift, shift'), index + (varintBytes value).length) := by
  induction value using Nat.strongRecOn generalizing acc shift index byte with
  | ind value ih =>
    obtain ⟨hpayload, hlast, hpayload', hmore'⟩ := payload_bits _ (mod_lt value (by decide))
    have hgroup := sizeGroup_ok hpos hfits
    rw [low_add_high] at hfits ⊢
    rw [varintBytes, and_0x7f, shiftRight_eq_div_pow, show (2 : ℕ) ^ 7 = 128 from rfl]
    by_cases hdone : value / 128 = 0
    · rw [if_pos hdone, singleton_append, readGroups_more hmore hpayload hgroup,
        readGroups_done hlast, hdone, zero_mul]
      exact ⟨_, rfl⟩
    · obtain ⟨shift', hrest⟩ := ih (value / 128) (by omega) _ (pos_of_ne_zero hdone) hmore'
        (Nat.add_assoc _ _ _ ▸ hfits)
      rw [if_neg hdone, cons_append, readGroups_more hmore hpayload' hgroup, hrest, length_cons,
        add_assoc, add_assoc, add_comm 1]
      exact ⟨_, rfl⟩

/-- Seven bits always fit a byte. -/
theorem distanceByte_eq (value : ℕ) : distanceByte value = .ok (UInt8.ofNat (value % 128)) := by
  rw [distanceByte, and_0x7f]
  exact bind_eq_ok.mpr ⟨⟨⟩, refuseIf_eq_ok.mpr (by omega), rfl⟩

/-- The groups of a value are read back, with one group more behind them. -/
theorem readDistance_pushGroups (value : ℕ) (bytes : Bytes) :
    ∃ front, pushGroups value bytes = .ok (front ++ bytes) ∧
      ∀ (next : UInt8) rest, value * 128 + (next &&& 0x7f).toNat ≤ u64Max →
        readDistance (front ++ next :: rest) = readGroups "OFS_DELTA base" distanceGroup
          (value * 128 + (next &&& 0x7f).toNat) (front.length + 1) next rest := by
  induction value using Nat.strongRecOn generalizing bytes with
  | ind value ih =>
    rw [pushGroups]
    by_cases hzero : value = 0
    · refine ⟨[], if_pos hzero, fun next rest _ => ?_⟩
      rw [hzero, zero_mul, zero_add]
      rfl
    · obtain ⟨-, -, hpayload, hmore⟩ := payload_bits _ (mod_lt (value - 1) (by decide))
      have hsplit : (value - 1) / 128 * 128 + (value - 1) % 128 = value - 1 := div_add_mod' _ _
      obtain ⟨front, hfront, hread⟩ := ih ((value - 1) / 128) (by omega)
        ((UInt8.ofNat ((value - 1) % 128) ||| 0x80) :: bytes)
      rw [if_neg hzero, if_neg (by omega), distanceByte_eq, shiftRight_eq_div_pow]
      refine ⟨front ++ [UInt8.ofNat ((value - 1) % 128) ||| 0x80], ?_, fun next rest hfits => ?_⟩
      · rw [append_assoc]
        exact hfront
      · have hgroup : distanceGroup (value - 1) (next &&& 0x7f).toNat
            = .ok (value * 128 + (next &&& 0x7f).toNat) := by
          rw [distanceGroup, Nat.sub_add_cancel (Nat.pos_of_ne_zero hzero)]
          exact bind_eq_ok.mpr ⟨⟨⟩, refuseIf_eq_ok.mpr (not_lt.mpr hfits), rfl⟩
        rw [append_assoc, singleton_append, hread _ _ (by omega), hpayload, hsplit,
          readGroups_more hmore rfl hgroup, length_append]
        rfl

end Groups

/-! ### Round trips -/

/-- The type, the low bits of the size and the continuation bit of a first byte. -/
theorem head_bits : ∀ n < 16, ∀ code ∈ ([1, 2, 3, 4, 6, 7] : List UInt8),
    let first := UInt8.ofNat n ||| code <<< 4
    ((first &&& 0x0f).toNat = n ∧ first >>> 4 &&& 0x07 = code ∧ first &&& 0x80 = 0) ∧
      ((first ||| 0x80) &&& 0x0f).toNat = n ∧ (first ||| 0x80) >>> 4 &&& 0x07 = code ∧
        (first ||| 0x80) &&& 0x80 ≠ 0 := by
  decide +kernel

theorem mem_of_accepted : ∀ n < 256, let code := UInt8.ofNat n
    ¬ (¬ (1 ≤ code ∧ code ≤ 7) ∨ code = 5) → code ∈ ([1, 2, 3, 4, 6, 7] : List UInt8) := by
  decide +kernel

/-- The type codes that are written are read. -/
theorem kind_of_mem {code : UInt8} (h : code ∈ ([1, 2, 3, 4, 6, 7] : List UInt8)) :
    ∃ kind, fromTypeCode code = .ok kind := by
  simp only [mem_cons, not_mem_nil, or_false] at h
  rcases h with rfl | rfl | rfl | rfl | rfl | rfl <;> exact ⟨_, rfl⟩

theorem decode_encodeEntryHeader {typeCode : UInt8} {size : ℕ} {header rest : Bytes}
    {limits : PackLimits} (hencode : encodeEntryHeader typeCode size = .ok header)
    (hsize : size ≤ limits.maxObjectBytes)
    (hinput : (header ++ rest).length ≤ limits.maxInputBytes) :
    ∃ kind, fromTypeCode typeCode = .ok kind ∧
      decodeEntryHeader (header ++ rest) limits = .ok (⟨kind, size⟩, header.length) := by
  simp only [encodeEntryHeader, bind_eq_ok, refuseIf_eq_ok, pure_eq_ok] at hencode
  obtain ⟨-, hcode, -, hfits, rfl⟩ := hencode
  have hmem := mem_of_accepted typeCode.toNat typeCode.toNat_lt
  rw [UInt8.ofNat_toNat] at hmem
  obtain ⟨kind, hkind⟩ := kind_of_mem (hmem hcode)
  obtain ⟨⟨hlow, hhigh, hlast⟩, hlow', hhigh', hmore⟩ :=
    head_bits (size % 16) (mod_lt _ (by decide)) typeCode (hmem hcode)
  rw [show size &&& 0x0f = size % 16 from and_two_pow_sub_one_eq_mod size 4,
    shiftRight_eq_div_pow, show (2 : ℕ) ^ 4 = 16 from rfl] at hinput ⊢
  refine ⟨kind, hkind, bind_eq_ok.mpr ⟨⟨⟩, refuseIf_eq_ok.mpr (not_lt.mpr hinput), ?_⟩⟩
  have hroom : limits.objectSize size = .ok ⟨⟩ := refuseIf_eq_ok.mpr (not_lt.mpr hsize)
  by_cases hsmall : size / 16 = 0
  · have hsize : size % 16 = size := by omega
    simp only [if_pos hsmall, singleton_append, hhigh, hlow, hkind, readGroups_done hlast,
      bind_eq_ok, Except.ok.injEq, exists_eq_left']
    rw [hsize]
    exact ⟨_, hroom, rfl⟩
  · obtain ⟨shift, hread⟩ := readGroups_varintBytes "pack entry size varint" 1 rest
      (pos_of_ne_zero hsmall) hmore (show size % 16 + size / 16 * 2 ^ 4 ≤ u64Max by omega)
    have hsize : size % 16 + size / 16 * 2 ^ 4 = size := mod_add_div' _ _
    rw [hsize] at hread
    simp only [if_neg hsmall, cons_append, hhigh', hlow', hkind, hread,
      bind_eq_ok, Except.ok.injEq, exists_eq_left']
    refine ⟨_, hroom, ?_⟩
    rw [length_cons, add_comm 1]
    rfl

theorem readDistance_encodeOfsDeltaDistance {distance : ℕ} (hpos : 0 < distance)
    (hfits : distance ≤ u64Max) : ∃ bytes, encodeOfsDeltaDistance distance = .ok bytes ∧
      ∀ rest, readDistance (bytes ++ rest) = .ok (distance, bytes.length) := by
  obtain ⟨hpayload, hlast, -, -⟩ := payload_bits _ (mod_lt distance (by decide))
  obtain ⟨front, hfront, hread⟩ := readDistance_pushGroups (distance / 128)
    [UInt8.ofNat (distance % 128)]
  have hsplit : distance / 128 * 128 + distance % 128 = distance := div_add_mod' _ _
  refine ⟨front ++ [UInt8.ofNat (distance % 128)], ?_, fun rest => ?_⟩
  · rw [encodeOfsDeltaDistance, distanceByte_eq, shiftRight_eq_div_pow]
    exact bind_eq_ok.mpr ⟨⟨⟩, refuseIf_eq_ok.mpr hpos.ne', hfront⟩
  · rw [append_assoc, singleton_append, hread _ _ (by omega), hpayload, hsplit,
      readGroups_done hlast, length_append]
    rfl

end Frankengit.Pack
