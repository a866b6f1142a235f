/-
Frankengit/Diff/Patch.lean

The hunks of a diff as replacements of ranges of the old bytes.

* They are sorted and do not touch, and replacing them gives the new bytes.
* They are effective: no run of neighbouring hunks restores the old text.  A run
  that did would lie between equal bytes, hence between equal units
  (`units_flatten_injective`), where a tight script has no changes.
-/
import Frankengit.Diff.Correct
import Frankengit.Lib.Cut
import Frankengit.Lib.Patch

namespace Frankengit.Diff

open Alignment Patch List Edit DiffHunk Nat

/-! ### Equal bytes are equal units -/

/-- Lines with their newlines.  Only the last may lack one. -/
inductive Lined : List Bytes → Prop
  | nil : Lined []
  | last {line : Bytes} (hne : line ≠ []) (h : 10 ∉ line) : Lined [line]
  | cons {line : Bytes} {lines : List Bytes} (h : 10 ∉ line) (hrest : Lined lines) :
      Lined ((line ++ [10]) :: lines)

variable {l l' : List Bytes}

theorem Lined.of_append (h : Lined (l ++ l')) : Lined l ∧ Lined l' := by
  induction l with
  | nil => exact ⟨.nil, h⟩
  | cons line l ih =>
    rw [cons_append] at h
    generalize hl : l ++ l' = rest at h ih
    cases h with
    | last hne hnot =>
      obtain ⟨rfl, rfl⟩ := append_eq_nil_iff.mp hl
      exact ⟨.last hne hnot, .nil⟩
    | cons hnot hrest => exact ⟨.cons hnot (ih hrest).1, (ih hrest).2⟩

/-- The first separator divides a list in one way. -/
theorem append_cons_injective {a : UInt8} {u u' v v' : Bytes} (hu : a ∉ u) (hu' : a ∉ u')
    (h : u ++ a :: v = u' ++ a :: v') : u = u' ∧ v = v' := by
  have hcut := Cutting.cut_eq_some.mpr ⟨h, hu'⟩
  rw [Cutting.cut_eq_some.mpr ⟨rfl, hu⟩] at hcut
  exact Prod.mk.inj (Option.some.inj hcut)

theorem Lined.flatten_injective (h : Lined l) (h' : Lined l') (heq : l.flatten = l'.flatten) :
    l = l' := by
  induction h generalizing l' with
  | nil =>
    cases h' with
    | nil => rfl
    | last hne _ => exact absurd (by simpa using heq) hne
    | cons => simp at heq
  | @last line hne hnot =>
    cases h' with
    | nil => exact absurd (by simpa using heq) hne
    | last => simpa using heq
    | @cons line' lines' =>
      rw [flatten_singleton] at heq
      exact absurd (by rw [heq]; simp) hnot
  | @cons line lines hnot _ ih =>
    cases h' with
    | nil => simp at heq
    | @last line' _ hnot' =>
      rw [flatten_singleton] at heq
      exact absurd (by rw [← heq]; simp) hnot'
    | @cons line' lines' hnot' hrest' =>
      rw [flatten_cons, flatten_cons, append_assoc, append_assoc,
        singleton_append, singleton_append] at heq
      obtain ⟨rfl, hflatten⟩ := append_cons_injective hnot hnot' heq
      rw [ih hrest' hflatten]

variable (bytes : Bytes)

theorem lined_lineTokensFrom {start : ℕ} (front rest : Bytes) (hbytes : bytes = front ++ rest)
    (hstart : start ≤ front.length) (hline : 10 ∉ front.drop start) :
    Lined ((lineTokensFrom start front.length rest).map fun token =>
      slice bytes token.byteStart token.byteEnd) := by
  induction rest generalizing start front with
  | nil =>
    rw [append_nil] at hbytes
    rw [lineTokensFrom]
    split
    · next hlt =>
      have htext : slice bytes start front.length = front.drop start := by
        rw [slice, hbytes, ← length_drop, take_length]
      rw [map_singleton, htext]
      refine .last ?_ hline
      rw [ne_eq, drop_eq_nil_iff]
      omega
    · exact .nil
  | cons byte rest ih =>
    have hnext : bytes = (front ++ [byte]) ++ rest := by
      rw [hbytes, append_assoc, singleton_append]
    have hlen : (front ++ [byte]).length = front.length + 1 := by simp
    rw [lineTokensFrom]
    split
    · next hbyte =>
      have htext : slice bytes start (front.length + 1) = front.drop start ++ [10] := by
        rw [slice, hnext, append_assoc, drop_append_of_le_length hstart,
          ← append_assoc, hbyte, take_left']
        rw [length_append, length_drop, length_singleton]
        omega
      have hrest := ih (front ++ [byte]) hnext le_rfl (by simp)
      rw [hlen] at hrest
      rw [map_cons, htext]
      exact .cons hline hrest
    · next hbyte =>
      have hrest := ih (front ++ [byte]) hnext (by omega : start ≤ (front ++ [byte]).length) <| by
        rw [drop_append_of_le_length hstart, mem_append, mem_singleton]
        rintro (hmem | hmem)
        · exact hline hmem
        · exact hbyte hmem.symm
      rw [hlen] at hrest
      exact hrest

theorem lined_units : Lined (units bytes .lines) :=
  lined_lineTokensFrom bytes [] bytes rfl le_rfl (by simp)

theorem single_units : ∀ unit ∈ units bytes .bytes, unit.length = 1 := by
  refine forall_mem_map.mpr (forall_mem_map.mpr fun offset hoff => ?_)
  rw [mem_range] at hoff
  rw [TokenStream.slice, length_take, length_drop]
  show min (offset + 1 - offset) (bytes.length - offset) = 1
  omega

theorem flatten_injective_of_single (h : ∀ u ∈ l, u.length = 1) (h' : ∀ u ∈ l', u.length = 1)
    (heq : l.flatten = l'.flatten) : l = l' := by
  have hones : ∀ {l : List Bytes}, (∀ u ∈ l, u.length = 1) →
      l.map length = replicate l.flatten.length 1 := by
    intro l h
    have hmap : l.map length = replicate l.length 1 := by
      rw [map_congr_left h, map_const']
    rw [length_flatten, hmap, sum_replicate, smul_eq_mul, mul_one]
  rw [eq_iff_flatten_eq, hones h, hones h', heq]
  exact ⟨rfl, rfl⟩

/-- Runs of units with equal bytes are equal. -/
theorem units_flatten_injective {granularity : SequenceGranularity} {old new : Bytes}
    {i i' j j' : ℕ} (h : (slice (units old granularity) i i').flatten
      = (slice (units new granularity) j j').flatten) :
    slice (units old granularity) i i' = slice (units new granularity) j j' := by
  cases granularity with
  | bytes =>
    refine flatten_injective_of_single (fun u hu => ?_) (fun u hu => ?_) h
    · exact single_units old u (mem_of_mem_drop (mem_of_mem_take hu))
    · exact single_units new u (mem_of_mem_drop (mem_of_mem_take hu))
  | lines =>
    have hpart : ∀ (bytes : Bytes) (i i' : ℕ), Lined (slice (units bytes .lines) i i') := by
      intro bytes i i'
      have hlined := lined_units bytes
      rw [← take_append_drop i (units bytes .lines)] at hlined
      have hdrop := hlined.of_append.2
      rw [← take_append_drop (i' - i) ((units bytes .lines).drop i)] at hdrop
      exact hdrop.of_append.1
    exact (hpart old i i').flatten_injective (hpart new j j') h

/-! ### Runs of edits -/

section Runs

variable {old new : TokenStream} {i j : ℕ}

/-- The old text of an edit. -/
def Edit.oldText (old : TokenStream) (e : Edit) : Bytes :=
  slice old.bytes e.oldSpan.byteStart e.oldSpan.byteEnd

/-- The new text of an edit. -/
def Edit.newText (new : TokenStream) (e : Edit) : Bytes :=
  slice new.bytes e.newSpan.byteStart e.newSpan.byteEnd

/-- The edits up to a place, as a script and as units. -/
theorem Edits.of_append {e₁ e₂ : List Edit} (h : Edits old new i j (e₁ ++ e₂)) :
    ∃ i' j', Edits old new i' j' e₂ ∧ Script (Same old.units new.units) i j i' j' (e₁.map step) ∧
      (e₁.map (oldText old)).flatten = (slice old.units i i').flatten ∧
      (e₁.map (newText new)).flatten = (slice new.units j j').flatten := by
  induction e₁ generalizing i j with
  | nil =>
    refine ⟨i, j, h, .nil i j, ?_, ?_⟩
    · rw [slice_self]
      rfl
    · rw [slice_self]
      rfl
  | cons e e₁ ih =>
    generalize hrest : e₁ ++ e₂ = edits at h
    -- a step of one unit adds the unit to the text
    have hunit : ∀ (self : TokenStream) {k k' : ℕ}, k < self.tokens.length → k + 1 ≤ k' →
        slice self.bytes (self.byteOffsetAt k) (self.byteOffsetAt (k + 1))
          ++ (slice self.units (k + 1) k').flatten = (slice self.units k k').flatten := by
      intro self k k' hk hk'
      rw [self.slice_unit hk, slice_cons (TokenStream.getElem?_units_of_lt hk) hk', flatten_cons]
    cases h with
    | equal hi hj hsame h =>
      subst hrest
      obtain ⟨i', j', hedits, hscript, hold, hnew⟩ := ih h
      refine ⟨i', j', hedits, .equal ⟨_, TokenStream.getElem?_units_of_lt hi, ?_⟩ hscript, ?_, ?_⟩
      · rw [hsame]
        exact TokenStream.getElem?_units_of_lt hj
      · rw [map_cons, flatten_cons, hold]
        exact hunit old hi hscript.old_le
      · rw [map_cons, flatten_cons, hnew]
        exact hunit new hj hscript.new_le
    | delete hi h =>
      subst hrest
      obtain ⟨i', j', hedits, hscript, hold, hnew⟩ := ih h
      refine ⟨i', j', hedits, .delete hscript, ?_, ?_⟩
      · rw [map_cons, flatten_cons, hold]
        exact hunit old hi hscript.old_le
      · rw [map_cons, flatten_cons, hnew]
        show slice new.bytes (new.byteOffsetAt j) (new.byteOffsetAt j) ++ _ = _
        rw [slice_self, nil_append]
    | insert hj h =>
      subst hrest
      obtain ⟨i', j', hedits, hscript, hold, hnew⟩ := ih h
      refine ⟨i', j', hedits, .insert hscript, ?_, ?_⟩
      · rw [map_cons, flatten_cons, hold]
        show slice old.bytes (old.byteOffsetAt i) (old.byteOffsetAt i) ++ _ = _
        rw [slice_self, nil_append]
      · rw [map_cons, flatten_cons, hnew]
        exact hunit new hj hscript.new_le

end Runs

/-- A run of edits between equal texts has no changes. -/
theorem Computed.equal_of_text {old new : Bytes} {options : DiffOptions} {r : DiffResult}
    (h : Computed (.new old options.granularity) (.new new options.granularity) options r)
    {e₁ e₂ e₃ : List Edit} (hedits : r.edits = e₁ ++ (e₂ ++ e₃))
    (htext : (e₂.map (oldText (.new old options.granularity))).flatten
      = (e₂.map (newText (.new new options.granularity))).flatten) :
    e₂.filter (fun e => !e.isEqual) = [] := by
  have hrun := h.edits
  rw [hedits] at hrun
  obtain ⟨i, j, hrun, hscript, -, -⟩ := hrun.of_append
  obtain ⟨i', j', -, hscript', hold, hnew⟩ := hrun.of_append
  rw [hold, hnew] at htext
  have hchanged := h.tight (e₁.map step) (e₂.map step) (e₃.map step) i j i' j'
    (by rw [hedits, map_append, map_append]) hscript hscript'
    (units_flatten_injective htext)
  rw [changed_steps] at hchanged
  exact length_eq_zero_iff.mp hchanged

/-! ### Hunks as replacements -/

/-- The bytes that an edit inserts. -/
def Edit.inserted : Edit → Bytes
  | .insert _ _ bytes => bytes
  | _ => []

/-- The range that a hunk replaces, and its text. -/
def DiffHunk.replacement (hunk : DiffHunk) : Replacement UInt8 :=
  ⟨hunk.old.byteStart, hunk.old.byteEnd, hunk.edits.flatMap inserted⟩

variable {edits : List Edit}

theorem Grouped.of_append {hs hs' : List DiffHunk} (h : Grouped edits (hs ++ hs')) :
    ∃ e₁ e₂, edits = e₁ ++ e₂ ∧ Grouped e₁ hs ∧ Grouped e₂ hs' := by
  induction hs generalizing edits with
  | nil => exact ⟨[], edits, rfl, .last (by simp), h⟩
  | cons hunk hs ih =>
    cases h with
    | @hunk gap rest _ _ hgap hcovers hstop h =>
      obtain ⟨e₁, e₂, rfl, hleft, hright⟩ := ih h
      refine ⟨gap ++ (hunk.edits ++ e₁), e₂, by simp only [append_assoc], ?_, hright⟩
      refine .hunk hgap hcovers (fun e he => hstop e ?_) hleft
      cases e₁ with
      | nil => cases he
      | cons => exact he

/-- A hunk stands between what is before it and what is after it. -/
theorem DiffHunk.Covers.between {hunk : DiffHunk} (hcovers : hunk.Covers) {gap rest : List Edit}
    {b u b' u' : ℕ} (h : Abut b u ((gap ++ (hunk.edits ++ rest)).map oldSpan) b' u') :
    Abut b u (gap.map oldSpan) hunk.old.byteStart hunk.old.unitStart ∧
      Abut hunk.old.byteEnd hunk.old.unitEnd (rest.map oldSpan) b' u' := by
  rw [map_append, map_append] at h
  obtain ⟨b₁, u₁, hgap, h⟩ := Abut.append_iff.mp h
  obtain ⟨b₂, u₂, hcov, hrest⟩ := Abut.append_iff.mp h
  obtain ⟨rfl, rfl, rfl, rfl⟩ := hcov.unique hcovers.old (by simpa using hcovers.nonempty)
  exact ⟨hgap, hrest⟩

variable {hunks : List DiffHunk}

section Texts

variable {old new : TokenStream}

theorem oldText_eq {b u b' u' : ℕ} (h : Abut b u (edits.map oldSpan) b' u') :
    (edits.map (oldText old)).flatten = slice old.bytes b b' := by
  rw [← h.flatten old.bytes, map_map]
  rfl

theorem newText_eq {b u b' u' : ℕ} (h : Abut b u (edits.map newSpan) b' u') :
    (edits.map (newText new)).flatten = slice new.bytes b b' := by
  rw [← h.flatten new.bytes, map_map]
  rfl

theorem equal_texts {gap : List Edit} (hrelates : ∀ e ∈ gap, e.Relates old new)
    (hgap : ∀ e ∈ gap, e.isEqual = true) : gap.map (oldText old) = gap.map (newText new) := by
  refine map_congr_left fun e he => ?_
  have hrelated := hrelates e he
  have hequal := hgap e he
  cases e with
  | equal s t =>
    obtain ⟨-, -, -, -, unit, -, -, hold, hnew⟩ := hrelated
    exact hold.trans hnew.symm
  | delete | insert => cases hequal

theorem inserted_texts (hrelates : ∀ e ∈ edits, e.Relates old new)
    (hchanges : ∀ e ∈ edits, e.isEqual = false) :
    edits.flatMap inserted = (edits.map (newText new)).flatten := by
  rw [flatMap_def]
  congr 1
  refine map_congr_left fun e he => ?_
  have hrelated := hrelates e he
  have hchange := hchanges e he
  cases e with
  | equal => cases hchange
  | delete s t =>
    show [] = slice new.bytes t.byteStart t.byteEnd
    rw [hrelated.2.1, slice_self]
  | insert s t bytes => exact hrelated.2.2.2.symm

/-- Replacing the hunks of a run of edits turns its old text into its new
one. -/
theorem Grouped.patched {b u b' u' : ℕ} (h : Grouped edits hunks)
    (hrelates : ∀ e ∈ edits, e.Relates old new) (hold : Abut b u (edits.map oldSpan) b' u') :
    patched old.bytes b b' (hunks.map replacement) = (edits.map (newText new)).flatten := by
  induction h generalizing b u with
  | last hgap =>
    rw [map_nil, Patch.patched, ← oldText_eq hold, equal_texts hrelates hgap]
  | @hunk gap edits hunk hunks hgap hcovers _ _ ih =>
    obtain ⟨hgapped, hold⟩ := hcovers.between hold
    show slice old.bytes b hunk.old.byteStart
      ++ (hunk.edits.flatMap inserted ++ Patch.patched old.bytes hunk.old.byteEnd b' _) = _
    rw [ih (fun e he => hrelates e (by simp [he])) hold, ← oldText_eq hgapped,
      equal_texts (fun e he => hrelates e (by simp [he])) hgap,
      inserted_texts (fun e he => hrelates e (by simp [he])) hcovers.changes]
    simp only [map_append, flatten_append]

/-- Hunks lie between the ends of their edits. -/
theorem Grouped.bounds {b u b' u' : ℕ} (h : Grouped edits hunks)
    (hold : Abut b u (edits.map oldSpan) b' u') :
    ∀ hunk ∈ hunks, b ≤ hunk.old.byteStart ∧ hunk.old.byteEnd ≤ b' := by
  induction h generalizing b u with
  | last => simp
  | @hunk gap edits hunk hunks _ hcovers _ _ ih =>
    obtain ⟨hgapped, hold⟩ := hcovers.between hold
    refine forall_mem_cons.mpr ⟨⟨hgapped.le.1, hold.le.1⟩, fun hunk' hmem => ?_⟩
    obtain ⟨hstart, hstop⟩ := ih hold hunk' hmem
    exact ⟨(hgapped.le.1.trans hcovers.old.le.1).trans hstart, hstop⟩

end Texts

/-- No run of replacements restores the text of a window around it. -/
def Effective (base : Bytes) (changes : List (Replacement UInt8)) : Prop :=
  ∀ pre cs post a b, changes = pre ++ (cs ++ post) → cs ≠ [] → Sorted a cs → a ≤ b →
    (∀ c ∈ cs, c.stop ≤ b) → patched base a b cs ≠ slice base a b

theorem Effective.of_append {base : Bytes} {cs ds : List (Replacement UInt8)}
    (h : Effective base (cs ++ ds)) : Effective base ds := by
  intro pre cs' post a b heq
  refine h (cs ++ pre) cs' post a b ?_
  rw [heq, append_assoc]

/-- Replacements that turn one text into another. -/
structure Patches (old new : Bytes) (changes : List (Replacement UInt8)) : Prop where
  sorted : Sorted 0 changes
  stop_le : ∀ c ∈ changes, c.stop ≤ old.length
  patched : patched old 0 old.length changes = new
  effective : Effective old changes

theorem sorted_of_apart (hcovers : ∀ h ∈ hunks, h.Covers) (hapart : hunks.IsChain (Apart edits))
    {a : ℕ} (ha : ∀ h, hunks.head? = some h → a ≤ h.old.byteStart) :
    Sorted a (hunks.map replacement) := by
  induction hunks generalizing a with
  | nil => trivial
  | cons h hunks ih =>
    refine ⟨ha h rfl, (hcovers h mem_cons_self).old.le.1, ?_⟩
    refine ih (fun h' hh' => hcovers h' (mem_cons_of_mem _ hh')) hapart.tail fun h' hh' => ?_
    cases hunks with
    | nil => cases hh'
    | cons h'' hunks =>
      cases hh'
      obtain ⟨s, t, -, h₁, h₂, h₃, -⟩ := hapart.rel
      show h.old.byteEnd + 1 ≤ h'.old.byteStart
      omega

/-- The hunks of a diff, as replacements. -/
theorem Computed.patches {old new : Bytes} {options : DiffOptions} {r : DiffResult}
    (h : Computed (.new old options.granularity) (.new new options.granularity) options r) :
    Patches old new (r.hunks.map replacement) := by
  have hold := h.edits.old_abut
  have hnew := h.edits.new_abut
  have hrelates := h.edits.relates
  have hgrouped := (grouped_hunksFrom hold hnew).1
  have hapart := hgrouped.apart hrelates hold hnew
  have hsorted : Sorted 0 (r.hunks.map replacement) :=
    sorted_of_apart hgrouped.covers hapart fun _ _ => zero_le _
  have hbounds := hgrouped.bounds hold
  have hpatched := hgrouped.patched hrelates hold
  rw [TokenStream.byteOffsetAt_zero, bytes_new] at hbounds hpatched hnew
  refine ⟨hsorted, forall_mem_map.mpr fun hunk hmem => (hbounds hunk hmem).2, ?_, ?_⟩
  · refine hpatched.trans ?_
    rw [newText_eq hnew, bytes_new, slice, drop_zero, Nat.sub_zero, take_length]
  · intro pre cs post a b hsplit hne hcs hab hin htext
    -- the edits of the run
    obtain ⟨hunks₁, hunks', hhunks, -, hhunks'⟩ := map_eq_append_iff.mp hsplit
    obtain ⟨hunks₂, hunks₃, rfl, rfl, -⟩ := map_eq_append_iff.mp hhunks'
    change Grouped r.edits r.hunks at hgrouped
    rw [hhunks] at hgrouped
    obtain ⟨e₁, e', hedits, -, hgrouped'⟩ := hgrouped.of_append
    obtain ⟨e₂, e₃, rfl, hrun, -⟩ := hgrouped'.of_append
    have hmem : ∀ e ∈ e₂, e ∈ r.edits := by
      intro e he
      rw [hedits]
      simp [he]
    rw [hedits, map_append, map_append] at hold
    obtain ⟨b₁, u₁, -, hold⟩ := Abut.append_iff.mp hold
    obtain ⟨b₂, u₂, hold, -⟩ := Abut.append_iff.mp hold
    have hwindow := hrun.bounds hold
    -- the run restores its own window too
    have hcs₀ : Sorted b₁ (hunks₂.map replacement) :=
      hcs.raise (forall_mem_map.mpr fun hunk hhunk => (hwindow hunk hhunk).1)
    have hin₀ : ∀ c ∈ hunks₂.map replacement, c.stop ≤ b₂ :=
      forall_mem_map.mpr fun hunk hhunk => (hwindow hunk hhunk).2
    have hwide := (patched_eq_slice_iff old hcs hab (zero_le a) (le_max_left b b₂) hin).mpr htext
    have hown := (patched_eq_slice_iff old hcs₀ hold.le.1 (zero_le b₁) (le_max_right b b₂)
      hin₀).mp hwide
    have hpatched := hrun.patched (fun e he => hrelates e (hmem e he)) hold
    rw [bytes_new, hown] at hpatched
    have htexts : (e₂.map (oldText (.new old options.granularity))).flatten
        = (e₂.map (newText (.new new options.granularity))).flatten := by
      rw [← hpatched, oldText_eq hold, bytes_new]
    have hnone := h.equal_of_text hedits htexts
    rw [← hrun.flatMap_edits, flatMap_eq_nil_iff] at hnone
    cases hunks₂ with
    | nil => exact hne rfl
    | cons hunk hunks₂ =>
      exact (hrun.covers hunk mem_cons_self).nonempty (hnone hunk mem_cons_self)

/-- **No change is reported for equal texts, and some for others**, under every
profile and granularity. -/
theorem diff_hunks_nil_iff {old new : Bytes} {options : DiffOptions} {r : DiffResult}
    (h : diff old new options = .ok r) : r.hunks = [] ↔ old = new := by
  have hpatches := (diff_eq_ok h).patches
  have hwhole : slice old 0 old.length = old := by rw [slice, drop_zero, Nat.sub_zero, take_length]
  constructor
  · intro hnil
    rw [← hpatches.patched, hnil]
    exact hwhole.symm
  · rintro rfl
    by_contra hne
    refine hpatches.effective [] _ [] 0 _ (append_nil _).symm (mt map_eq_nil_iff.mp hne)
      hpatches.sorted (zero_le _) hpatches.stop_le ?_
    rw [hpatches.patched, hwhole]

theorem diff_hunks_nil_iff_byte :
    let options : DiffOptions := ⟨.patience, .bytes, ⟨9, 9, 99, 99⟩⟩
    ∃ r, diff [1] [2] options = .ok r ∧ r.hunks ≠ [] := by
  intro options
  have hrun : (diff [1] [2] options).toOption.map DiffResult.algorithm
      = some .patienceAnchored := by
    decide +kernel
  obtain ⟨r, h, -⟩ := Fallible.exists_ok_of_toOption hrun
  exact ⟨r, h, mt (diff_hunks_nil_iff h).mp (by decide)⟩

end Frankengit.Diff
