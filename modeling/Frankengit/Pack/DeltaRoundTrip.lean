/-
Frankengit/Pack/DeltaRoundTrip.lean

What the encoder emits, the decoder reads back.

Each emitting function gets its `Runs` lemma: an insert run appends its bytes,
a copy run the bytes of the base it names.  A program is then a header of two
sizes and instructions that run to the target, whichever encoding produced it
(`Encodes`), and applying such a program gives the target.
-/
import Frankengit.Pack.DeltaEncode

namespace Frankengit.Pack

open Fallible List Nat PrefixSuffixDelta BaseDeltaIndex Accounting Except

/-! ### Sizes -/

/-- The seven payload bits and the continuation bit of a byte. -/
theorem payload_bits : ∀ n < 128, (UInt8.ofNat n &&& 0x7f).toNat = n ∧ UInt8.ofNat n &&& 0x80 = 0 ∧
    ((UInt8.ofNat n ||| 0x80) &&& 0x7f).toNat = n ∧ (UInt8.ofNat n ||| 0x80) &&& 0x80 ≠ 0 := by
  decide +kernel

theorem and_0x7f (value : ℕ) : value &&& 0x7f = value % 128 :=
  and_two_pow_sub_one_eq_mod value 7

theorem and_0xff (value : ℕ) : value &&& 0xff = value % 256 :=
  and_two_pow_sub_one_eq_mod value 8

/-- The low seven bits and what is above them. -/
theorem low_add_high (value shift : ℕ) :
    value * 2 ^ shift = value % 128 * 2 ^ shift + value / 128 * 2 ^ (shift + 7) := by
  calc value * 2 ^ shift = (128 * (value / 128) + value % 128) * 2 ^ shift := by
        rw [div_add_mod]
    _ = value % 128 * 2 ^ shift + value / 128 * 2 ^ (shift + 7) := by ring

/-- The shift of a group that is not zero. -/
theorem shift_lt {value shift : ℕ} (hpos : 0 < value) (hfits : value * 2 ^ shift ≤ u64Max) :
    shift < 64 :=
  (Nat.pow_lt_pow_iff_right (by decide)).mp
    (((Nat.le_mul_of_pos_left _ hpos).trans hfits).trans_lt (by decide))

variable (context : String)

/-- A size is read back, whatever follows it. -/
theorem readDeltaSizeFrom_varintBytes (value : ℕ) (acc shift : ℕ) (rest : Bytes)
    (hfits : acc + value * 2 ^ shift ≤ u64Max) :
    readDeltaSizeFrom context acc shift (varintBytes value ++ rest)
      = .ok (acc + value * 2 ^ shift, rest) := by
  induction value using Nat.strongRecOn generalizing acc shift with
  | ind value ih =>
    have hlow : value % 128 < 128 := mod_lt _ (by decide)
    obtain ⟨hpayload, hlast, hpayload', hmore⟩ := payload_bits _ hlow
    have hsplit := low_add_high value shift
    have hadd : checkedAdd context acc ((value % 128) <<< shift)
        = .ok (acc + value % 128 * 2 ^ shift) := by
      rw [shiftLeft_eq]
      exact checkedAdd_ok _ (by omega)
    have hsmall : ¬ u64Max < (value % 128) <<< shift := by
      omega
    rw [varintBytes, and_0x7f, shiftRight_eq_div_pow, show (2 : ℕ) ^ 7 = 128 from rfl]
    by_cases hdone : value / 128 = 0
    · rw [if_pos hdone, singleton_append, readDeltaSizeFrom]
      simp only [hpayload, hadd, if_neg hsmall, hlast, if_true]
      rw [hsplit, hdone, zero_mul, add_zero]
    · have hshift : shift + 7 < 64 := shift_lt (pos_of_ne_zero hdone) (by omega)
      rw [if_neg hdone, cons_append, readDeltaSizeFrom]
      simp only [hpayload', hadd, if_neg hsmall, if_neg hmore, if_neg hshift.not_ge]
      rw [ih (value / 128) (by omega) _ _ (by omega), hsplit, add_assoc]

variable {value : ℕ}

theorem readDeltaSize_varintBytes (rest : Bytes) (hfits : value ≤ u64Max) :
    readDeltaSize context (varintBytes value ++ rest) = .ok (value, rest) := by
  have h := readDeltaSizeFrom_varintBytes context value 0 0 rest (by simpa using hfits)
  simpa [readDeltaSize] using h

theorem length_varintBytes (value : ℕ) : (varintBytes value).length = varintCost value := by
  induction value using Nat.strongRecOn with
  | ind value ih =>
    rw [varintBytes, varintCost, shiftRight_eq_div_pow, show (2 : ℕ) ^ 7 = 128 from rfl]
    by_cases hdone : value / 128 = 0
    · rw [if_pos hdone, if_neg (by omega)]
      rfl
    · rw [if_neg hdone, if_pos (by omega), length_cons, ih _ (by omega)]

/-! ### Inserts -/

variable {offset : ℕ} {program : Bytes} {length : ℕ}

section Instructions

variable {base : Bytes}

/-- One insert instruction. -/
theorem runs_insert {chunk : Bytes} (hpos : 0 < chunk.length) (hlen : chunk.length ≤ 127) :
    Runs base (UInt8.ofNat chunk.length :: chunk) chunk := by
  intro limits declaredResult rest result acc hdecl hresult hwork
  have hnat : (UInt8.ofNat chunk.length).toNat = chunk.length := by
    exact mod_eq_of_lt (by omega)
  have hne : UInt8.ofNat chunk.length ≠ 0 := by
    intro h
    rw [h] at hnat
    exact absurd hnat.symm (pos_iff_ne_zero.mp hpos)
  have hins : UInt8.ofNat chunk.length &&& 0x80 = 0 := (payload_bits _ (by omega)).2.1
  rw [cons_append, applyInstructions, if_neg hne, if_pos hins, hnat, if_neg (by simp),
    take_left, drop_left, appendCopy_ok hdecl hresult hwork]

theorem runs_emitInsertRun (bytes : Bytes) : Runs base (emitInsertRun bytes) bytes := by
  fun_induction emitInsertRun bytes with
  | case1 => exact .nil base
  | case2 bytes hne ih =>
    have hpos : 0 < bytes.length := length_pos_of_ne_nil hne
    have hchunk : Runs base (UInt8.ofNat (bytes.take 127).length :: bytes.take 127)
        (bytes.take 127) :=
      runs_insert (by simp only [length_take]; omega) (by simp only [length_take]; omega)
    have hall := hchunk.append ih
    rwa [take_append_drop] at hall

theorem length_emitInsertRun (bytes : Bytes) :
    (emitInsertRun bytes).length = insertRunCost bytes.length := by
  fun_induction emitInsertRun bytes with
  | case1 => rfl
  | case2 bytes hne ih =>
    have hpos : 0 < bytes.length := length_pos_of_ne_nil hne
    simp only [length_cons, length_append, length_take, ih, insertRunCost, length_drop]
    omega

/-! ### Copies -/

theorem toNat_byteAt (value shift : ℕ) : (byteAt value shift).toNat = value / 2 ^ shift % 256 := by
  rw [byteAt, and_0xff, shiftRight_eq_div_pow, UInt8.toNat_ofNat']
  exact mod_mod_of_dvd _ (dvd_refl 256)

/-- Raise a flag if a condition holds. -/
def raise (opcode flag : UInt8) (p : Bool) : UInt8 := if p then opcode ||| flag else opcode

/-- The opcode and the bytes collected for a number. -/
theorem emitFields_eq (value : ℕ) (fields : List (UInt8 × ℕ)) (opcode : UInt8) (extra : Bytes) :
    emitFields value fields (opcode, extra)
      = (fields.foldl (fun opcode field => raise opcode field.1 (byteAt value field.2 ≠ 0)) opcode,
          extra ++ (fields.map fun field => byteAt value field.2).filter (· ≠ 0)) := by
  induction fields generalizing opcode extra with
  | nil => simp [emitFields]
  | cons field fields ih =>
    obtain ⟨flag, shift⟩ := field
    simp only [emitFields, foldl_cons, map_cons, raise, decide_eq_true_eq]
    simp only [raise, decide_eq_true_eq] at ih
    by_cases hbyte : byteAt value shift ≠ 0
    · rw [if_pos hbyte, if_pos hbyte, ih, filter_cons_of_pos (by simpa using hbyte),
        append_assoc, singleton_append]
    · rw [if_neg hbyte, if_neg hbyte, ih, filter_cons_of_neg (by simpa using hbyte)]

/-- The bytes an instruction flags are read back, and nothing else. -/
theorem readMasked_filter (instruction : UInt8) (value : ℕ) (fields : List (UInt8 × ℕ)) (acc : ℕ)
    (rest : Bytes)
    (hflags : ∀ field ∈ fields, (instruction &&& field.1 ≠ 0 ↔ byteAt value field.2 ≠ 0)) :
    readMasked context instruction fields acc
        ((fields.map fun field => byteAt value field.2).filter (· ≠ 0) ++ rest)
      = .ok (fields.foldl (fun acc field => acc ||| (byteAt value field.2).toNat <<< field.2) acc,
          rest) := by
  induction fields generalizing acc with
  | nil => rfl
  | cons field fields ih =>
    obtain ⟨flag, shift⟩ := field
    have hflag := hflags (flag, shift) (mem_cons_self ..)
    have hrest := fun field hfield => hflags field (mem_cons_of_mem _ hfield)
    simp only [map_cons, foldl_cons]
    by_cases hbyte : byteAt value shift ≠ 0
    · rw [filter_cons_of_pos (by simpa using hbyte), cons_append]
      simp only [readMasked, if_pos (hflag.mpr hbyte)]
      exact ih _ hrest
    · have hzero : byteAt value shift = 0 := not_not.mp hbyte
      rw [filter_cons_of_neg (by simpa using hbyte)]
      simp only [readMasked, if_neg (hflag.not.mpr hbyte)]
      rw [ih _ hrest, hzero]
      simp

/-- The tables of the encoder and of the decoder agree. -/
theorem byteFlags_offset : byteFlags 4 0 = offsetFields := by decide

theorem byteFlags_length : byteFlags 3 4 = lengthFields := by decide

/-- A byte above the ones collected so far. -/
theorem or_shiftLeft {low shift : ℕ} (byte : ℕ) (hlow : low < 2 ^ shift) :
    low ||| byte <<< shift = low + byte * 2 ^ shift := by
  rw [Nat.or_comm, ← Nat.shiftLeft_add_eq_or_of_lt hlow, Nat.shiftLeft_eq, Nat.add_comm]

/-- A number is the sum of its bytes, however many are read. -/
theorem or_bytes : (0 ||| (byteAt value 0).toNat <<< 0 ||| (byteAt value 8).toNat <<< 8
      ||| (byteAt value 16).toNat <<< 16) = value % 2 ^ 24 := by
  simp only [toNat_byteAt]
  have hfirst : 0 ||| (value / 2 ^ 0 % 256) <<< 0 = value % 256 := by simp
  have hsecond : value % 256 ||| (value / 2 ^ 8 % 256) <<< 8 = value % 2 ^ 16 := by
    rw [or_shiftLeft _ (by omega)]
    omega
  have hthird : value % 2 ^ 16 ||| (value / 2 ^ 16 % 256) <<< 16 = value % 2 ^ 24 := by
    rw [or_shiftLeft _ (by omega)]
    omega
  rw [hfirst, hsecond, hthird]

theorem foldl_lengthFields (h : value < 2 ^ 24) :
    lengthFields.foldl (fun acc field => acc ||| (byteAt value field.2).toNat <<< field.2) 0
      = value := by
  simp only [lengthFields, foldl_cons, foldl_nil]
  rw [or_bytes, mod_eq_of_lt h]

theorem foldl_offsetFields (h : value < 2 ^ 32) :
    offsetFields.foldl (fun acc field => acc ||| (byteAt value field.2).toNat <<< field.2) 0
      = value := by
  simp only [offsetFields, foldl_cons, foldl_nil]
  rw [or_bytes, toNat_byteAt, or_shiftLeft _ (mod_lt _ (by decide))]
  omega

/-- The seven flags of an opcode are independent, and it is a copy. -/
theorem opcode_flags : ∀ a b c d e f g : Bool,
    let opcode := raise (raise (raise (raise (raise (raise (raise 0x80 0x01 a) 0x02 b) 0x04 c)
      0x08 d) 0x10 e) 0x20 f) 0x40 g
    opcode &&& 0x80 ≠ 0 ∧ (opcode &&& 0x01 ≠ 0 ↔ a) ∧ (opcode &&& 0x02 ≠ 0 ↔ b) ∧
      (opcode &&& 0x04 ≠ 0 ↔ c) ∧ (opcode &&& 0x08 ≠ 0 ↔ d) ∧ (opcode &&& 0x10 ≠ 0 ↔ e) ∧
      (opcode &&& 0x20 ≠ 0 ↔ f) ∧ (opcode &&& 0x40 ≠ 0 ↔ g) := by
  decide +kernel

/-- The opcode of a copy flags the bytes of both numbers that are there. -/
theorem copyOpcode_flags (offset length : ℕ) :
    let withOffset := offsetFields.foldl
      (fun opcode field => raise opcode field.1 (byteAt offset field.2 ≠ 0)) 0x80
    let opcode := lengthFields.foldl
      (fun opcode field => raise opcode field.1 (byteAt length field.2 ≠ 0)) withOffset
    opcode &&& 0x80 ≠ 0 ∧
      (∀ field ∈ offsetFields, (opcode &&& field.1 ≠ 0 ↔ byteAt offset field.2 ≠ 0)) ∧
      (∀ field ∈ lengthFields, (opcode &&& field.1 ≠ 0 ↔ byteAt length field.2 ≠ 0)) := by
  obtain ⟨hcopy, h0, h1, h2, h3, h4, h5, h6⟩ := opcode_flags (byteAt offset 0 ≠ 0)
    (byteAt offset 8 ≠ 0) (byteAt offset 16 ≠ 0) (byteAt offset 24 ≠ 0) (byteAt length 0 ≠ 0)
    (byteAt length 8 ≠ 0) (byteAt length 16 ≠ 0)
  simp only [decide_eq_true_eq] at h0 h1 h2 h3 h4 h5 h6
  refine ⟨hcopy, ?_, ?_⟩
  · simp only [offsetFields, forall_mem_cons, not_mem_nil, false_implies, implies_true, and_true]
    exact ⟨h0, h1, h2, h3⟩
  · simp only [lengthFields, forall_mem_cons, not_mem_nil, false_implies, implies_true, and_true]
    exact ⟨h4, h5, h6⟩

/-- The length a copy spells: 65536 is spelled as zero, with no byte. -/
theorem emitFields_zero (out : UInt8 × Bytes) : emitFields 0 lengthFields out = out := by
  rw [emitFields_eq]
  have hbytes : (lengthFields.map fun field => byteAt 0 field.2).filter (· ≠ 0) = [] := by decide
  rw [hbytes, append_nil]
  rfl

variable {instruction : Bytes}

/-- A copy instruction is read back. -/
theorem decode_emitCopyInstruction (hoff : offset ≤ u32Max)
    (h : emitCopyInstruction offset length = .ok instruction) :
    ∃ opcode extra, instruction = opcode :: extra ∧ opcode &&& 0x80 ≠ 0 ∧ ∀ rest,
      decodeCopyInstruction opcode (extra ++ rest) = .ok ((offset, length), rest) := by
  unfold emitCopyInstruction at h
  split at h
  · cases h
  next hlength =>
  let spelled := if length = 0x10000 then 0 else length
  have hspelled : (if spelled = 0 then 0x10000 else spelled) = length := by
    simp only [spelled]
    split <;> simp <;> omega
  have hsmall : spelled < 2 ^ 24 := by
    simp only [spelled]
    split <;> omega
  have hemit : ∀ out, (if length ≠ 0x10000 then emitFields length lengthFields out else out)
      = emitFields spelled lengthFields out := by
    intro out
    by_cases hfull : length = 0x10000
    · rw [if_neg (not_not.mpr hfull)]
      simp only [spelled, if_pos hfull, emitFields_zero]
    · rw [if_pos hfull]
      simp only [spelled, if_neg hfull]
  simp only [byteFlags_offset, byteFlags_length, hemit] at h
  simp only [emitFields_eq, nil_append] at h
  obtain ⟨hcopy, hoffsets, hlengths⟩ := copyOpcode_flags offset spelled
  refine ⟨_, _, (ok.inj h).symm, hcopy, fun rest => ?_⟩
  have hreadOff := readMasked_filter "delta copy offset" _ offset offsetFields 0
    ((lengthFields.map fun field => byteAt spelled field.2).filter (· ≠ 0) ++ rest) hoffsets
  have hreadLen := readMasked_filter "delta copy length" _ spelled lengthFields 0 rest hlengths
  rw [foldl_offsetFields (lt_of_le_of_lt hoff (by decide))] at hreadOff
  rw [foldl_lengthFields hsmall] at hreadLen
  simp only [decodeCopyInstruction, bind_eq_ok, pure_eq_ok, append_assoc]
  exact ⟨_, hreadOff, _, hreadLen, by rw [hspelled]⟩

/-- A copy within the base runs. -/
theorem runs_copy (h : emitCopyInstruction offset length = .ok instruction)
    (hoff : offset + length ≤ u32Max) (hbase : offset + length ≤ base.length) :
    Runs base instruction ((base.drop offset).take length) := by
  intro limits declaredResult rest result acc hdecl hresult hwork
  obtain ⟨opcode, extra, rfl, hcopy, hdecode⟩ := decode_emitCopyInstruction (by omega) h
  have hrange : copyRange base offset length = .ok ((base.drop offset).take length) := by
    have hadd := checkedAdd_ok "delta copy range" (a := offset) (b := length)
      (hoff.trans (by decide))
    simp only [copyRange, bind_eq_ok, refuseIf_eq_ok, pure_eq_ok]
    exact ⟨_, hadd, (), by omega, trivial⟩
  exact applyInstructions_copy hcopy (hdecode rest)
    (bind_eq_ok.mpr ⟨_, hrange, appendCopy_ok hdecl hresult hwork⟩)

/-- Copies one after another. -/
theorem runs_emitCopyChunks {remaining : ℕ} (h : emitCopyChunks offset remaining = .ok program)
    (hbase : offset + remaining ≤ base.length) :
    Runs base program ((base.drop offset).take remaining) := by
  induction remaining using Nat.strongRecOn generalizing offset program with
  | ind remaining ih =>
    rw [emitCopyChunks] at h
    split at h
    · next hzero =>
      cases h
      rw [hzero, take_zero]
      exact .nil base
    · next hpos =>
      simp only [bind_eq_ok, refuseIf_eq_ok, pure_eq_ok] at h
      obtain ⟨instruction, hinstr, -, hfits, rest, hrest, rfl⟩ := h
      have hall := (runs_copy hinstr (Nat.le_of_not_lt hfits) (by omega)).append
        (ih _ (by omega) hrest (by omega))
      rwa [← drop_drop, ← take_add, Nat.add_sub_cancel' (min_le_left _ _)] at hall

theorem runs_emitCopyRun (h : emitCopyRun offset length = .ok program)
    (hbase : offset + length ≤ base.length) :
    Runs base program ((base.drop offset).take length) := by
  obtain ⟨-, -, hchunks⟩ := bind_eq_ok.mp h
  exact runs_emitCopyChunks hchunks hbase

/-! ### Lengths -/

theorem countP_bytes (count value : ℕ) :
    (((range count).map fun index => byteAt value (index * 8)).filter (· ≠ 0)).length
      = nonzeroBytes count value := by
  rw [nonzeroBytes, ← countP_eq_length_filter, countP_map]
  rfl

theorem length_emitCopyInstruction (h : emitCopyInstruction offset length = .ok instruction) :
    instruction.length = 1 + nonzeroBytes 4 offset
      + if length = 0x10000 then 0 else nonzeroBytes 3 length := by
  unfold emitCopyInstruction at h
  split at h
  · cases h
  simp only [emitFields_eq, byteFlags, map_map, Function.comp_def] at h
  rw [← ok.inj h]
  split_ifs with hfull
  all_goals
    simp only [length_cons, nil_append, length_append, countP_bytes]
    omega

theorem length_emitCopyChunks {remaining cost : ℕ}
    (h : emitCopyChunks offset remaining = .ok program)
    (hcost : copyChunksCost offset remaining = .ok cost) : program.length = cost := by
  induction remaining using Nat.strongRecOn generalizing offset program cost with
  | ind remaining ih =>
    rw [emitCopyChunks] at h
    rw [copyChunksCost] at hcost
    split at h
    · next hzero =>
      rw [if_pos hzero] at hcost
      cases h
      cases hcost
      rfl
    · next hpos =>
      rw [if_neg hpos] at hcost
      simp only [bind_eq_ok, refuseIf_eq_ok, pure_eq_ok] at h hcost
      obtain ⟨instruction, hinstr, -, -, rest, hrest, rfl⟩ := h
      obtain ⟨-, -, restCost, hrestCost, rfl⟩ := hcost
      rw [length_append, length_emitCopyInstruction hinstr, ih _ (by omega) hrest hrestCost]

theorem length_emitCopyRun {cost : ℕ} (h : emitCopyRun offset length = .ok program)
    (hcost : copyRunCost offset length = .ok cost) : program.length = cost := by
  obtain ⟨-, -, hchunks⟩ := bind_eq_ok.mp h
  obtain ⟨-, -, hchunksCost⟩ := bind_eq_ok.mp hcost
  exact length_emitCopyChunks hchunks hchunksCost

end Instructions

/-! ### Matches -/

variable (left right : Bytes)

/-- Two byte strings begin with the same `count` bytes. -/
def Agree (count : ℕ) : Prop :=
  count ≤ left.length ∧ count ≤ right.length ∧ left.take count = right.take count

variable {left right} in
theorem Agree.add {m n : ℕ} (h : Agree left right m) (h' : Agree (left.drop m) (right.drop m) n) :
    Agree left right (m + n) := by
  obtain ⟨hleft, hright, htake⟩ := h
  obtain ⟨hleft', hright', htake'⟩ := h'
  simp only [length_drop] at hleft' hright'
  exact ⟨by omega, by omega, by rw [take_add, take_add, htake, htake']⟩

theorem scalarPrefix_spec : Agree left right (scalarPrefix left right) := by
  fun_induction scalarPrefix left right with
  | case1 left b right ih =>
    obtain ⟨hleft, hright, htake⟩ := ih
    exact ⟨succ_le_succ hleft, succ_le_succ hright, by simp [htake]⟩
  | case2 | case3 => simp [Agree]

theorem equalChunks_spec : Agree left right (equalChunks left right * 64) := by
  fun_induction equalChunks left right with
  | case1 left right h ih =>
    rw [succ_mul, add_comm]
    exact Agree.add h ih
  | case2 => simp [Agree]

/-- The bytes counted by `commonPrefix` agree. -/
theorem commonPrefix_spec : Agree left right (commonPrefix left right) :=
  (equalChunks_spec left right).add (scalarPrefix_spec _ _)

/-- The bytes counted by `commonSuffix` agree, and lie after the prefix. -/
theorem commonSuffix_spec (base target : Bytes) (pre : ℕ) :
    commonSuffix base target pre ≤ base.length - pre ∧
      commonSuffix base target pre ≤ target.length - pre ∧
      base.drop (base.length - commonSuffix base target pre)
        = target.drop (target.length - commonSuffix base target pre) := by
  have hspec := commonPrefix_spec (base.drop pre).reverse (target.drop pre).reverse
  rw [← commonSuffix] at hspec
  generalize commonSuffix base target pre = suf at hspec
  obtain ⟨hl, hr, htake⟩ := hspec
  simp only [length_reverse, length_drop] at hl hr
  refine ⟨hl, hr, ?_⟩
  rw [take_reverse, take_reverse, reverse_inj] at htake
  simp only [length_drop, drop_drop] at htake
  by_cases hnone : suf = 0
  · simp [hnone]
  · rwa [show pre + (base.length - pre - suf) = base.length - suf by omega,
      show pre + (target.length - pre - suf) = target.length - suf by omega] at htake

/-! ### Programs that encode a target -/

/-- The program declares both sizes and runs to the target. -/
structure Encodes (base target program : Bytes) : Prop where
  baseFits : base.length ≤ u64Max
  targetFits : target.length ≤ u64Max
  runs : ∃ body, program = varintBytes base.length ++ varintBytes target.length ++ body ∧
    Runs base body target

/-- The limits leave room for a base, a target and the program between
them. -/
structure PackLimits.Admits (limits : PackLimits) (base target program : Bytes) : Prop where
  input : program.length ≤ limits.maxInputBytes
  baseSize : base.length ≤ limits.maxObjectBytes
  targetSize : target.length ≤ limits.maxObjectBytes
  expanded : base.length + target.length ≤ limits.maxTotalExpandedBytes
  work : target.length ≤ limits.maxDeltaWork

variable {base target : Bytes}

/-- Applying such a program gives the target. -/
theorem Encodes.applyDelta {limits : PackLimits} (h : Encodes base target program)
    (hlimits : limits.Admits base target program) :
    applyDelta limits base program = .ok target := by
  obtain ⟨body, hprogram, hruns⟩ := h.runs
  have hfits := limits.maxTotalExpandedBytes_fits
  have hexp := hlimits.expanded
  have hbaseAdd := checkedAdd_ok "delta expanded bytes" (a := 0) (b := base.length)
    (by omega)
  have htgtAdd := checkedAdd_ok "delta expanded bytes" (a := base.length)
    (b := target.length) (by omega)
  rw [zero_add] at hbaseAdd
  have hbaseSize := readDeltaSize_varintBytes "delta base size"
    (varintBytes target.length ++ body) h.baseFits
  have htgtSize := readDeltaSize_varintBytes "delta result size" body h.targetFits
  -- the instructions run from an empty result to the target
  have hrun := hruns limits target.length [] [] ⟨base.length, 0⟩ h.targetFits (by simp)
    (by simpa using hlimits.work)
  rw [append_nil, nil_append, applyInstructions] at hrun
  have haccounted : applyDeltaWithAccounting limits base program ⟨base.length, 0⟩
      = .ok (target, ⟨base.length, 0 + target.length⟩) := by
    simp only [applyDeltaWithAccounting, PackLimits.input, PackLimits.objectSize,
      ensureExpanded, bind_eq_ok, refuseIf_eq_ok, pure_eq_ok, not_lt, not_not]
    refine ⟨(), hlimits.input, (), hlimits.baseSize,
      (base.length, varintBytes target.length ++ body),
      ?_, (), rfl, (target.length, body), htgtSize, (),
      hlimits.targetSize, (), ⟨_, htgtAdd, hexp⟩,
      (target, ⟨base.length, 0 + target.length⟩), hrun, (), rfl, rfl⟩
    rw [hprogram, append_assoc]
    exact hbaseSize
  simp only [Pack.applyDelta, applyDeltaWithBudget, addExpanded,
    ensureExpanded, fresh, bind_eq_ok, refuseIf_eq_ok, pure_eq_ok, not_lt]
  exact ⟨_, ⟨_, ⟨(), ⟨_, hbaseAdd, by omega⟩, _, hbaseAdd, rfl⟩, _, haccounted, _,
    ⟨(), ⟨_, htgtAdd, hexp⟩, _, htgtAdd, rfl⟩, rfl⟩, rfl⟩

theorem encodeDeltaVarint_ok {bytes : Bytes} (h : encodeDeltaVarint value = .ok bytes) :
    value ≤ u64Max ∧ bytes = varintBytes value := by
  rw [encodeDeltaVarint, ite_error_eq_ok] at h
  exact ⟨Nat.le_of_not_lt h.1, (ok.inj h.2).symm⟩

/-! ### The prefix/suffix program -/

/-- The prefix/suffix program encodes the target, at the length computed
before. -/
theorem encode_ok {delta : PrefixSuffixDelta}
    (hplan : plan base target = .ok delta) (h : delta.encode = .ok program) :
    Encodes base target program ∧ program.length = delta.encodedLength := by
  simp only [plan, bind_eq_ok, refuseIf_eq_ok, pure_eq_ok] at hplan
  obtain ⟨-, -, -, -, preCost, hpreCost, sufCost, hsufCost, -, -, rfl⟩ := hplan
  simp only [encode, bind_eq_ok, pure_eq_ok] at h
  obtain ⟨baseSize, hbaseSize, targetSize, htgtSize, copyPre, hcopyPre, copySuf, hcopySuf, rfl⟩ :=
    h
  obtain ⟨hbaseFits, rfl⟩ := encodeDeltaVarint_ok hbaseSize
  obtain ⟨htgtFits, rfl⟩ := encodeDeltaVarint_ok htgtSize
  obtain ⟨hpreBase, hpreTgt, hsame⟩ := commonPrefix_spec base target
  obtain ⟨hsufBase, hsufTgt, htail⟩ := commonSuffix_spec base target (commonPrefix base target)
  generalize commonSuffix base target (commonPrefix base target) = suf at *
  generalize commonPrefix base target = pre at *
  -- prefix, middle and suffix of the target
  have hfirst := runs_emitCopyRun hcopyPre (show 0 + pre ≤ base.length by omega)
  have hlast := runs_emitCopyRun hcopySuf (show _ ≤ base.length by omega)
  rw [drop_zero, hsame] at hfirst
  rw [htail, take_of_length_le (by simp only [length_drop]; omega)] at hlast
  have hall := (hfirst.append (runs_emitInsertRun
    ((target.drop pre).take (target.length - suf - pre)))).append hlast
  rw [← take_add, Nat.add_sub_cancel' (by omega), take_append_drop] at hall
  refine ⟨⟨hbaseFits, htgtFits, _, by simp only [append_assoc], hall⟩, ?_⟩
  simp only [length_append, length_varintBytes, length_emitInsertRun,
    length_emitCopyRun hcopyPre hpreCost, length_emitCopyRun hcopySuf hsufCost]

/-! ### The indexed program -/

/-- What the scan has emitted when the literal starts somewhere: the bytes
before that position. -/
structure Scanned (base target header program : Bytes) (literalStart : ℕ) : Prop where
  bound : literalStart ≤ target.length
  runs : ∃ body, program = header ++ body ∧ Runs base body (target.take literalStart)

variable {index : BaseDeltaIndex}

/-- A match extends what has been emitted. -/
theorem Scanned.advance {header copy : Bytes} {literalStart position : ℕ} {fingerprint : UInt32}
    (h : Scanned base target header program literalStart) (hle : literalStart ≤ position)
    (hposition : position ≤ target.length)
    (hmatch : index.bestMatch base target position fingerprint = some (offset, length))
    (hcopy : emitCopyRun offset length = .ok copy) :
    position + length ≤ target.length ∧ Scanned base target header
        (program ++ emitInsertRun ((target.drop literalStart).take (position - literalStart))
          ++ copy) (position + length) := by
  obtain ⟨hblock, hlength⟩ := bestMatch_length hmatch
  obtain ⟨hbase, htgt, hsame⟩ := commonPrefix_spec (base.drop offset) (target.drop position)
  rw [← hlength] at hbase htgt hsame
  simp only [length_drop] at hbase htgt
  have hpos : 16 ≤ length := hblock
  obtain ⟨body, rfl, hbody⟩ := h.runs
  have hliteral := hbody.append
    (runs_emitInsertRun ((target.drop literalStart).take (position - literalStart)))
  have hcopied : Runs base copy ((base.drop offset).take length) :=
    runs_emitCopyRun hcopy (by omega)
  rw [hsame] at hcopied
  have hall := hliteral.append hcopied
  rw [← take_add, Nat.add_sub_cancel' hle, ← take_add] at hall
  exact ⟨by omega, by omega, _, by simp only [append_assoc], hall⟩

/-- The scan keeps what it has emitted in step with the target. -/
theorem scanLoop_scanned {header program' : Bytes} {limit position literalStart literalStart' : ℕ}
    {live : Option LivePositions} {fingerprint : UInt32} {rolling : Bool}
    (h : Scanned base target header program literalStart) (hle : literalStart ≤ position)
    (hposition : position ≤ target.length)
    (hscan : scanLoop index base target limit live position literalStart fingerprint rolling program
      = .ok (some (literalStart', program'))) :
    Scanned base target header program' literalStart' := by
  fun_induction scanLoop index base target limit live position literalStart fingerprint rolling
    program with
  | case1 position literalStart fingerprint rolling program hwindow hskip ih =>
    -- unmarked positions join the literal
    have hroom : position + 16 ≤ target.length := hwindow
    refine ih h (hle.trans hskip.le) ?_ hscan
    unfold scanNext
    split
    · exact hposition
    · simp only [deltaIndexBlockBytes]
      split <;> omega
  | case2 => cases hscan
  | case3 position literalStart fingerprint rolling program _ _ _ _ offset length hmatch ih =>
    obtain ⟨copy, hcopy, hscan⟩ := bind_eq_ok.mp hscan
    obtain ⟨hend, hnext⟩ := h.advance hle hposition hmatch hcopy
    exact ih copy hnext le_rfl hend hscan
  | case4 position literalStart fingerprint rolling program hwindow _ _ _ _ ih =>
    have hroom : position + 16 ≤ target.length := hwindow
    exact ih h (by omega) (by omega) hscan
  | case5 =>
    cases hscan
    exact h

theorem scanIndexedDeltaProgram_ok {limit : ℕ} {live : Option LivePositions}
    (h : scanIndexedDeltaProgram index base target limit live = .ok (some program)) :
    Encodes base target program ∧ program.length < limit := by
  simp only [scanIndexedDeltaProgram, bind_eq_ok] at h
  obtain ⟨baseSize, hbaseSize, targetSize, htgtSize, scanned, hscan, h⟩ := h
  obtain ⟨hbaseFits, rfl⟩ := encodeDeltaVarint_ok hbaseSize
  obtain ⟨htgtFits, rfl⟩ := encodeDeltaVarint_ok htgtSize
  cases scanned with
  | none => cases h
  | some scanned =>
    obtain ⟨literalStart, scanned⟩ := scanned
    obtain ⟨hbound, body, rfl, hbody⟩ := scanLoop_scanned
      ⟨zero_le _, [], (append_nil _).symm, .nil base⟩ le_rfl (zero_le _) hscan
    simp only [pure_eq_ok] at h
    split at h
    · next hlimit =>
      cases h
      refine ⟨⟨hbaseFits, htgtFits, body ++ emitInsertRun (target.drop literalStart), ?_, ?_⟩,
        hlimit⟩
      · simp only [append_assoc]
      · have hall := hbody.append (runs_emitInsertRun (target.drop literalStart))
        rwa [take_append_drop] at hall
    · cases h

/-! ### Agreement -/

/-- **Encoder and decoder agree**: a program is shorter than its bound, and
applying it to the base gives the target. -/
theorem makeDeltaProgramWith_applies {base target program : Bytes} {search : DeltaSearch}
    {index : Option BaseDeltaIndex} {live : Option LivePositions} {bound : ℕ}
    (h : makeDeltaProgramWith base target search index live bound = .ok (some program)) :
    program.length < bound ∧ ∀ limits : PackLimits, limits.Admits base target program →
      applyDelta limits base program = .ok target := by
  suffices hencodes : Encodes base target program ∧ program.length < bound from
    ⟨hencodes.2, fun limits hlimits => hencodes.1.applyDelta hlimits⟩
  simp only [makeDeltaProgramWith, bind_eq_ok] at h
  obtain ⟨delta, hplan, indexed, hindexed, h⟩ := h
  cases indexed with
  | some program' =>
    cases h
    unfold indexedProgram at hindexed
    split at hindexed
    · obtain ⟨hencodes, hlimit⟩ := scanIndexedDeltaProgram_ok hindexed
      exact ⟨hencodes, lt_of_lt_of_le hlimit (min_le_left _ _)⟩
    · cases hindexed
  | none =>
    simp only at h
    split at h
    · next hshort =>
      obtain ⟨program', hencode, heq⟩ := bind_eq_ok.mp h
      cases heq
      obtain ⟨hencodes, hlength⟩ := encode_ok hplan hencode
      exact ⟨hencodes, hlength ▸ hshort⟩
    · cases h

/-- Limits that bind nothing small. -/
def roomyLimits : PackLimits where
  maxInputBytes := 1000
  maxEntries := 1000
  maxObjectBytes := 1000
  maxDeltaDepth := 1000
  maxDeltaFanout := 1000
  maxTotalExpandedBytes := 1000
  maxDeltaWork := 1000
  maxCachedBytes := 1000
  maxIndexEntries := 1000
  maxTotalExpandedBytes_fits := by decide
  maxDeltaWork_fits := by decide

/-- A base between two new bytes: the indexed scan copies it whole. -/
theorem makeDeltaProgramWith_applies_shifted :
    ∃ base target program : Bytes, makeDeltaProgramWith base target .indexedBlocks
        (BaseDeltaIndex.build roomyLimits base)
        (LivePositions.build target (BaseDeltaIndex.build roomyLimits base).toList) target.length
          = .ok (some program) ∧
      program.length < target.length ∧ applyDelta roomyLimits base program = .ok target := by
  let base : Bytes := (range 40).map UInt8.ofNat
  let target : Bytes := 200 :: base ++ [201]
  let program : Bytes := [40, 42, 1, 200, 0x90, 40, 1, 201]
  have hmade : makeDeltaProgramWith base target .indexedBlocks (build roomyLimits base)
      (LivePositions.build target (build roomyLimits base).toList) target.length
        = .ok (some program) := by decide +kernel
  obtain ⟨hlength, happly⟩ := makeDeltaProgramWith_applies hmade
  exact ⟨base, target, program, hmade, hlength,
    happly roomyLimits ⟨by decide, by decide, by decide, by decide, by decide⟩⟩

end Frankengit.Pack
