/-
Frankengit/TreeFs/IntentLedger.lean

What the outcomes of a log say of its overlay.  Beside the evaluation runs a
record of the intent that put each entry (`Traced`).  An outcome `survives`
should name the path where that intent's own entry stands, every entry should
stand for an intent that survives, and an intent that lost its entry should
name the one that took it (`Accounted`).

The outcomes lose track in four ways: a rename leaves the owner of the path it
empties as it was; the whiteout it leaves stays when its target is taken over;
a directory takes what is staged below it along; a whiteout hides what is
staged below it.  `Basis.clean` rules these out, step by step.
-/
import Frankengit.Lib.Run
import Frankengit.TreeFs.Intent

namespace Frankengit.TreeFs

open List Option Evaluation Run Overlay BTree TreePath Except

/-! ### Lookups -/

/-- No ancestor of the path is deleted. -/
def Overlay.Open (overlay : Overlay) (path : TreePath) : Prop :=
  ∀ ancestor, path.below ancestor → overlay[ancestor]? ≠ some .whiteout

section Lookup

variable {overlay : Overlay} {path : TreePath} {entry : OverlayEntry}

theorem Overlay.open_of_lookup (h : ∀ ancestor, overlay.lookup path ≠ .deletedByAncestor ancestor) :
    overlay.Open path := by
  intro ancestor hbelow hwhiteout
  cases hfind : path.ancestors.find? fun ancestor => overlay[ancestor]? = some .whiteout with
  | some found => exact h found (by rw [lookup, hfind])
  | none =>
    have hnone := find?_eq_none.mp hfind ancestor (mem_ancestors.mpr hbelow)
    exact hnone (decide_eq_true hwhiteout)

theorem Overlay.lookup_of_open (h : overlay.Open path) (hentry : overlay[path]? = some entry) :
    overlay.lookup path = if entry = .whiteout then .deleted else .present entry := by
  have hfind : path.ancestors.find? (fun ancestor => overlay[ancestor]? = some .whiteout) = none :=
    find?_eq_none.mpr fun ancestor hmem =>
      by simpa using h ancestor (mem_ancestors.mp hmem)
  rw [lookup, hfind]
  simp only [hentry]
  cases entry <;> rfl

theorem Overlay.ne_whiteout_of_lookup (h : overlay.lookup path = .present entry) :
    entry ≠ .whiteout := by
  unfold lookup at h
  split at h
  · cases h
  · split at h
    · cases h
    · next hne _ => exact OverlayLookup.present.inj h ▸ fun heq => hne heq
    · cases h

end Lookup

/-! ### What applying an intent can do -/

/-- The intent did nothing. -/
def NetEffect.idle : NetEffect → Bool
  | .error _ | .noOp .alreadyIdentical => true
  | _ => false

def OverlayLookup.isHidden : OverlayLookup → Bool
  | .deletedByAncestor _ => true
  | _ => false

/-- What applying an intent can do to an evaluation. -/
inductive Applied (s : Evaluation) (n : ℕ) : TreeEditIntent → NetEffect → Evaluation → Prop
  | idle {intent : TreeEditIntent} {outcome : NetEffect} (h : outcome.idle) :
      Applied s n intent outcome s
  | placed {intent : TreeEditIntent} {entry : OverlayEntry}
    (hopen : s.overlay.Open intent.primaryPath)
      (hplain : intent.origin? = none)
      (hentry : entry = .whiteout → intent.hides = some intent.primaryPath) :
      Applied s n intent (.survives intent.primaryPath)
        ((s.supersede intent.primaryPath n false).put intent.primaryPath entry)
  | moved {origin target : TreePath} {basis : Option BasisEntry} {entry : OverlayEntry}
      (hopen : s.overlay.Open target) (hentry : entry ≠ .whiteout) :
      Applied s n (.rename origin target basis) (.survives target)
        (((s.put target entry).supersede target n false).put origin .whiteout)
  | cancelled {intent : TreeEditIntent} (hplain : intent.origin? = none)
      (hhides : intent.hides = some intent.primaryPath) :
      Applied s n intent (.noOp (.inverseCancellation n)) (s.cancel n intent.primaryPath)

variable {basis : Option BasisEntry} {path : TreePath}

namespace Basis

variable (base : Basis) {s : Evaluation} {n : ℕ}

theorem moved_ok {origin : TreePath} {entry : OverlayEntry}
    (h : base.moved s origin basis = .ok entry) : entry ≠ .whiteout := by
  unfold moved at h
  cases hlookup : s.overlay.lookup origin with
  | present found =>
    rw [hlookup] at h
    obtain rfl := ok.inj h
    exact ne_whiteout_of_lookup hlookup
  | absent =>
    simp only [hlookup] at h
    split at h
    · split at h
      · split at h
        · cases h
        · obtain rfl := ok.inj h
          simp
      · cases hbasis : fileBasis (base.baseSource origin) basis origin with
        | error error =>
          rw [hbasis] at h
          cases h
        | ok found =>
          rw [hbasis] at h
          obtain rfl := ok.inj h
          simp
    · cases h
  | deleted | deletedByAncestor => simp [hlookup] at h

theorem remoded_error {after : FileMode} {outcome : NetEffect}
    (h : base.remoded s path basis after = .error outcome) : outcome.idle := by
  unfold remoded at h
  repeat' split at h
  all_goals cases h
  all_goals rfl

theorem remoded_ok {after : FileMode} {entry : OverlayEntry}
    (h : base.remoded s path basis after = .ok entry) : entry ≠ .whiteout := by
  unfold remoded at h
  repeat' split at h
  all_goals cases h
  all_goals simp

/-- Applying an intent does one of these. -/
theorem applied (s : Evaluation) (n : ℕ) (intent : TreeEditIntent) :
    Applied s n intent (base.applyOne s n intent).1 (base.applyOne s n intent).2 := by
  unfold applyOne
  split
  · exact .idle rfl
  · next hfound =>
    have hopen := open_of_lookup fun ancestor h => hfound ancestor h
    have hremove : intent.origin? = none → intent.hides = some intent.primaryPath →
        Applied s n intent (base.remove s n intent.primaryPath).1
          (base.remove s n intent.primaryPath).2 := by
      intro hplain hhides
      unfold remove
      split
      · exact .cancelled hplain hhides
      · exact .placed hopen hplain fun _ => hhides
    cases intent with
    | write path content mode entryClass =>
      dsimp only
      split
      · exact .idle rfl
      · exact .placed hopen rfl (by simp)
    | createSymlink path linkTarget => exact .placed hopen rfl (by simp)
    | createDirectory path =>
      dsimp only
      split
      · split
        · exact .placed hopen rfl (by simp)
        · exact .idle rfl
      · exact .placed hopen rfl (by simp)
    | removeDirectory path | delete path => exact hremove rfl rfl
    | rename origin target basis =>
      dsimp only
      cases hmoved : base.moved s origin basis with
      | error error => exact .idle rfl
      | ok entry => exact .moved hopen (base.moved_ok hmoved)
    | chmod path basis after =>
      dsimp only
      cases hremoded : base.remoded s path basis after with
      | error outcome => exact .idle (base.remoded_error hremoded)
      | ok entry => exact .placed hopen rfl fun h => absurd h (base.remoded_ok hremoded)
    | updateSubmodule path afterOid => exact .placed hopen rfl (by simp)
    | recordConflictMarkers path marker mergeInputs => exact .placed hopen rfl (by simp)

/-- The intent has nothing to do: its path is under a deleted one, its entry is
there already or of another type, or there is nothing to move or to change. -/
def inert (s : Evaluation) (intent : TreeEditIntent) : Bool :=
  let found := s.overlay.lookup intent.primaryPath
  found.isHidden ||
    match intent with
    | .write _ content mode entryClass =>
      found = .present (.file (.overlay (base.contentId content)) mode entryClass)
    | .createDirectory _ => found.isPresent && found ≠ .present .directory
    | .rename origin _ basisEntry => (base.moved s origin basisEntry).toOption.isNone
    | .chmod path basisEntry after => (base.remoded s path basisEntry after).toOption.isNone
    | _ => false

theorem idle_of_inert {intent : TreeEditIntent} (h : base.inert s intent) :
    (base.applyOne s n intent).1.idle := by
  unfold applyOne
  split
  · rfl
  · next hfound =>
    have hopen : (s.overlay.lookup intent.primaryPath).isHidden = false := by
      unfold OverlayLookup.isHidden
      split
      · next hhidden => exact (hfound _ hhidden).elim
      · rfl
    unfold inert at h
    simp only [hopen, Bool.false_or] at h
    cases intent with
    | write path content mode entryClass =>
      dsimp only
      rw [if_pos (of_decide_eq_true h)]
      rfl
    | createDirectory path =>
      obtain ⟨hpresent, hother⟩ := Bool.and_eq_true_iff.mp h
      dsimp only
      split
      · next hlookup =>
        rw [hlookup] at hother
        rw [if_neg (by simpa using hother)]
        rfl
      · next hlookup =>
        unfold OverlayLookup.isPresent at hpresent
        split at hpresent
        · next hlookup' => exact (hlookup _ hlookup').elim
        · cases hpresent
    | rename origin target basisEntry =>
      cases hmoved : base.moved s origin basisEntry with
      | error error => simp [NetEffect.idle, hmoved]
      | ok entry => simp [hmoved, Except.toOption] at h
    | chmod path basisEntry after =>
      cases hremoded : base.remoded s path basisEntry after with
      | error outcome => simpa [hremoded] using base.remoded_error hremoded
      | ok entry => simp [hremoded, Except.toOption] at h
    | _ => cases h

end Basis

/-! ### Who put each entry -/

/-- An evaluation and the index of the intent that put each entry. -/
structure Traced where
  state : Evaluation
  placed : TreePath → Option ℕ

def Traced.start : Traced := ⟨.empty, fun _ => none⟩

/-- The index of the next intent. -/
def Traced.next (t : Traced) : ℕ := t.state.outcomes.length

/-- Who put the entries after an intent.  A rename puts two. -/
def placedAfter (placed : TreePath → Option ℕ) (n : ℕ) (intent : TreeEditIntent) :
    NetEffect → TreePath → Option ℕ
  | .survives path, q => if q = path ∨ intent.origin? = some q then some n else placed q
  | .noOp (.inverseCancellation _), q =>
    if q.startsWith intent.primaryPath then none else placed q
  | _, q => placed q

/-- No entry but the one at the path stands for its owner. -/
def Traced.alone (t : Traced) (path : TreePath) : Bool :=
  t.state.owner[path]?.all fun i => t.state.overlay.keys.all fun q => q = path ∨ t.placed q ≠ some i

/-- No intent owns a path below the path. -/
def Traced.vacant (t : Traced) (path : TreePath) : Bool := t.state.owner.keys.all (!·.below path)

/-- A rename takes an entry without an owner, to a path not below it. -/
def Traced.movable (t : Traced) : TreeEditIntent → Bool
  | .rename origin target _ =>
    (origin = target || t.state.owner[origin]?.isNone) && !target.below origin
  | _ => true

namespace Basis

variable (base : Basis)

def outcome (t : Traced) (intent : TreeEditIntent) : NetEffect :=
  (base.applyOne t.state t.next intent).1

def trace (t : Traced) (intent : TreeEditIntent) : Traced :=
  ⟨base.step t.state intent, placedAfter t.placed t.next intent (base.outcome t intent)⟩

/-- The intent has nothing to do, or takes its path from an owner of nothing else,
puts no whiteout above an owned path and moves no owned entry. -/
def clean (t : Traced) (intent : TreeEditIntent) : Bool :=
  base.inert t.state intent ||
    (t.alone intent.primaryPath && intent.hides.all t.vacant && t.movable intent)

theorem trace_state (log : List TreeEditIntent) (t : Traced) :
    (exec base.trace t log).state = exec base.step t.state log := by
  induction log generalizing t with
  | nil => rfl
  | cons intent log ih => exact ih (base.trace t intent)

end Basis

/-- The outcomes account for the overlay. -/
structure Accounted (log : List TreeEditIntent) (t : Traced) : Prop where
  length : t.next = log.length
  owners : ∀ (p : TreePath) (i : ℕ),
    t.state.owner[p]? = some i ↔ t.state.outcomes[i]? = some (.survives p)
  owned : ∀ (p : TreePath) (i : ℕ), t.state.owner[p]? = some i →
    t.placed p = some i ∧ ∃ e, t.state.overlay[p]? = some e
  entries : ∀ (p : TreePath) (e : OverlayEntry), t.state.overlay[p]? = some e →
    ∃ i, t.placed p = some i ∧ (t.state.owner[p]? = some i ∨ e = .whiteout ∧
      ∃ q basis, log[i]? = some (.rename p q basis) ∧ t.state.owner[q]? = some i)
  hidden : ∀ p : TreePath, t.state.overlay[p]? = some .whiteout →
    ∀ (q : TreePath) (i : ℕ), t.state.owner[q]? = some i → ¬ q.below p

namespace Accounted

variable {log : List TreeEditIntent} {t : Traced} {path : TreePath}

theorem start : Accounted [] .start where
  length := rfl
  owners p i := by simp [Traced.start, empty]
  owned p i h := by simp [Traced.start, empty] at h
  entries p e h := by simp [Traced.start, empty] at h
  hidden p h := by simp [Traced.start, empty] at h

theorem supersede_outcomes (h : Accounted log t) (n : ℕ) (inverse : Bool) (i : ℕ) :
    (t.state.supersede path n inverse).outcomes[i]? =
      if t.state.owner[path]? = some i then some (noOpBy n inverse) else t.state.outcomes[i]? := by
  unfold supersede
  cases howner : t.state.owner[path]? with
  | none => simp
  | some previous =>
    have hout := (h.owners path previous).mp howner
    simp only [hout, some.injEq]
    rw [getElem?_set]
    split
    · next heq => simp [(List.getElem?_eq_some_iff.mp hout).1]
    · rfl

theorem length_supersede (s : Evaluation) (path : TreePath) (n : ℕ) (inverse : Bool) :
    (s.supersede path n inverse).outcomes.length = s.outcomes.length := by
  unfold supersede
  split
  · rfl
  · split
    · exact length_set
    · rfl

/-- Who survives once a path is taken and another outcome is added. -/
theorem survives_after (h : Accounted log t) {inverse : Bool} {y : NetEffect}
    {p : TreePath} {i : ℕ} :
    ((t.state.supersede path t.next inverse).outcomes ++ [y])[i]? = some (.survives p) ↔
      (i = t.next ∧ y = .survives p) ∨
        (t.state.owner[path]? ≠ some i ∧ t.state.owner[p]? = some i) := by
  have hlen := length_supersede t.state path t.next inverse
  have hlt : ∀ {q : TreePath}, t.state.owner[q]? = some i → i < t.next := fun hq =>
    (List.getElem?_eq_some_iff.mp ((h.owners _ i).mp hq)).1
  by_cases hi : i < t.next
  · rw [getElem?_append_left (hlen ▸ hi), h.supersede_outcomes, h.owners p i]
    split
    · next howner =>
      simp only [howner, ne_eq, not_true, false_and, or_false, hi.ne, false_and]
      simp [noOpBy]
    · next howner => simp [howner, hi.ne]
  · rw [getElem?_append_right (hlen ▸ not_lt.mp hi), hlen]
    have hnone : t.state.owner[p]? ≠ some i := fun hp => hi (hlt hp)
    simp only [hnone, and_false, or_false]
    change [y][i - t.next]? = _ ↔ _
    rcases Nat.eq_or_lt_of_le (not_lt.mp hi) with rfl | hgt
    · simp
    · have hpos : i - t.next ≠ 0 := by omega
      simp [hpos, hgt.ne']

theorem owner_inj (h : Accounted log t) {p q : TreePath} {i : ℕ} (hp : t.state.owner[p]? = some i)
    (hq : t.state.owner[q]? = some i) : p = q := by
  have hsame := ((h.owners p i).mp hp).symm.trans ((h.owners q i).mp hq)
  exact NetEffect.survives.inj (some.inj hsame)

end Accounted

/-! ### The changes of a step -/

namespace Evaluation

variable {s : Evaluation} {q : TreePath} {n : ℕ}

theorem foldl_clear (paths : List TreePath) (s : Evaluation) (q : TreePath) :
    (paths.foldl clear s).outcomes = s.outcomes ∧
      (paths.foldl clear s).overlay[q]? = (if q ∈ paths then none else s.overlay[q]?) ∧
      (paths.foldl clear s).owner[q]? = if q ∈ paths then none else s.owner[q]? := by
  induction paths generalizing s with
  | nil => simp
  | cons path paths ih =>
    obtain ⟨houtcomes, hoverlay, howner⟩ := ih (s.clear path)
    refine ⟨houtcomes, hoverlay.trans ?_, howner.trans ?_⟩
    all_goals
      simp only [clear, get_erase, mem_cons, eq_comm (a := q)]
      split <;> simp [*]

/-- What a cancellation clears below its path. -/
theorem mem_cleared : q ∈ ((s.supersede path n true).clear path).staged path ↔
    s.overlay[q]? ≠ none ∧ q.below path := by
  rw [staged, mem_filter, Std.ExtTreeMap.mem_keys]
  refine and_congr_left fun hbelow => ?_
  rw [BTree.mem_iff_get, ← ne_none_iff_exists']
  simp only [clear, supersede, get_erase]
  rw [if_neg]
  rintro rfl
  simp [below] at hbelow

theorem cancel_overlay : (s.cancel n path).overlay[q]? =
    if path = q ∨ q.below path then none else s.overlay[q]? := by
  refine (foldl_clear _ _ q).2.1.trans ?_
  simp only [mem_cleared]
  simp only [clear, supersede, get_erase]
  by_cases heq : path = q
  · simp [heq]
  · cases hq : s.overlay[q]? <;> simp [heq]

theorem cancel_owner (hvacant : ∀ i, s.owner[q]? = some i → ¬ q.below path) :
    (s.cancel n path).owner[q]? = if path = q then none else s.owner[q]? := by
  refine (foldl_clear _ _ q).2.2.trans ?_
  simp only [mem_cleared]
  simp only [clear, supersede, get_erase, get_insert]
  cases hq : s.owner[q]? with
  | none => split_ifs <;> rfl
  | some i =>
    rw [if_neg fun hcleared => hvacant i hq hcleared.2]
    split_ifs <;> rfl

end Evaluation

namespace Traced

variable (t : Traced) (path : TreePath)

/-- Nothing happens but the outcome. -/
def idle (y : NetEffect) : Traced :=
  ⟨{ t.state with outcomes := t.state.outcomes ++ [y] }, t.placed⟩

/-- A path is taken, and an entry put there or all taken away from there on. -/
def take : Option OverlayEntry → Traced
  | some entry =>
    ⟨{ overlay := t.state.overlay.insert path entry
       owner := t.state.owner.insert path t.next
       outcomes := (t.state.supersede path t.next false).outcomes ++ [.survives path] },
      fun q => if q = path then some t.next else t.placed q⟩
  | none =>
    ⟨{ t.state.cancel t.next path with
       outcomes := (t.state.supersede path t.next true).outcomes ++
         [.noOp (.inverseCancellation t.next)] },
      fun q => if q.startsWith path then none else t.placed q⟩

/-- A whiteout is put at the origin of a rename. -/
def hide (n : ℕ) : Traced :=
  ⟨t.state.put path .whiteout, fun q => if q = path then some n else t.placed q⟩

variable {t path} {entry : Option OverlayEntry} {q : TreePath}

@[simp] theorem take_overlay : (t.take path entry).state.overlay[q]? =
    if path = q then entry else if entry = none ∧ q.below path then none
    else t.state.overlay[q]? := by
  cases entry with
  | none =>
    refine cancel_overlay.trans ?_
    by_cases heq : path = q <;> simp [heq]
  | some entry =>
    refine (get_insert _ _ _ _).trans ?_
    simp

theorem vacant_iff : t.vacant path ↔
    ∀ (q : TreePath) (i : ℕ), t.state.owner[q]? = some i → ¬ q.below path := by
  simp only [vacant, List.all_eq_true, Bool.not_eq_true', Std.ExtTreeMap.mem_keys,
    BTree.mem_iff_get]
  constructor
  · intro h q i hq
    simp [h q ⟨i, hq⟩]
  · rintro h q ⟨i, hq⟩
    simpa using h q i hq

theorem take_owner (hvacant : entry = none ∨ entry = some .whiteout → t.vacant path) :
    (t.take path entry).state.owner[q]? =
      if path = q then entry.map fun _ => t.next else t.state.owner[q]? := by
  cases entry with
  | none => exact cancel_owner (vacant_iff.mp (hvacant (.inl rfl)) q)
  | some entry => exact get_insert _ _ _ _

end Traced

theorem Traced.alone_iff {t : Traced} (h : t.alone path) {i : ℕ}
    (howner : t.state.owner[path]? = some i) {q : TreePath} {e : OverlayEntry}
    (hq : t.state.overlay[q]? = some e) (hne : q ≠ path) : t.placed q ≠ some i := by
  rw [Traced.alone, howner, all_some, List.all_eq_true] at h
  have hmem : q ∈ t.state.overlay.keys :=
    Std.ExtTreeMap.mem_keys.mpr (mem_iff_get.mpr ⟨e, hq⟩)
  exact (of_decide_eq_true (h q hmem)).resolve_left hne

/-- What a clean step does to the evaluation and the record. -/
inductive Traced.Stepped (t : Traced) (intent : TreeEditIntent) : Traced → Prop
  | idle {y : NetEffect} (hy : y.idle) : Stepped t intent (t.idle y)
  | take {path : TreePath} {entry : Option OverlayEntry} (halone : t.alone path)
      (hopen : entry = none ∨ t.state.overlay.Open path)
      (hvacant : entry = none ∨ entry = some .whiteout → t.vacant path) :
      Stepped t intent (t.take path entry)
  | move {origin target : TreePath} {basis : Option BasisEntry} {entry : OverlayEntry}
      (hintent : intent = .rename origin target basis) (halone : t.alone target)
      (hopen : t.state.overlay.Open target) (hentry : entry ≠ .whiteout) (hvacant : t.vacant origin)
      (howner : origin = target ∨ t.state.owner[origin]? = none) (haway : ¬ target.below origin) :
      Stepped t intent ((t.take target (some entry)).hide origin t.next)

/-- The record once an outcome is added. -/
def Traced.after (t : Traced) (intent : TreeEditIntent) (y : NetEffect) (s : Evaluation) : Traced :=
  ⟨{ s with outcomes := s.outcomes ++ [y] }, placedAfter t.placed t.next intent y⟩

variable {intent : TreeEditIntent}

theorem Applied.stepped {t : Traced} {y : NetEffect} {s : Evaluation}
    (h : Applied t.state t.next intent y s) (hclean : y.idle ∨ t.alone intent.primaryPath ∧
      intent.hides.all t.vacant ∧ t.movable intent) :
    t.Stepped intent (t.after intent y s) := by
  cases h with
  | idle hidle =>
    have hplaced : placedAfter t.placed t.next intent y = t.placed := by
      funext q
      unfold placedAfter
      split
      · cases hidle
      · cases hidle
      · rfl
    rw [Traced.after, hplaced]
    exact .idle hidle
  | @placed _ entry hopen hplain hentry =>
    obtain ⟨halone, hvacant, -⟩ := hclean.resolve_left (by simp [NetEffect.idle])
    have hplaced : placedAfter t.placed t.next intent (.survives intent.primaryPath)
        = fun q => if q = intent.primaryPath then some t.next else t.placed q := by
      funext q
      simp [placedAfter, hplain]
    rw [Traced.after, hplaced]
    show t.Stepped intent (t.take intent.primaryPath (some entry))
    refine .take halone (.inr hopen) fun hwhiteout => ?_
    simpa [hentry (by simpa using hwhiteout)] using hvacant
  | @moved origin target basis entry hopen hentry =>
    obtain ⟨halone, hvacant, hmovable⟩ := hclean.resolve_left (by simp [NetEffect.idle])
    obtain ⟨howner, haway⟩ : (origin = target ∨ t.state.owner[origin]? = none) ∧
        ¬ target.below origin := by simpa [Traced.movable] using hmovable
    have hplaced : placedAfter t.placed t.next (.rename origin target basis) (.survives target)
        = fun q => if q = origin then some t.next else if q = target then some t.next
          else t.placed q := by
      funext q
      simp only [placedAfter, TreeEditIntent.origin?, some.injEq]
      by_cases hq : q = origin
      · simp [hq]
      · simp [hq, Ne.symm hq]
    rw [Traced.after, hplaced]
    exact .move rfl halone hopen hentry (by simpa [TreeEditIntent.hides] using hvacant) howner haway
  | cancelled hplain hhides =>
    obtain ⟨halone, hvacant, -⟩ := hclean.resolve_left (by simp [NetEffect.idle])
    rw [Traced.after, show (t.state.cancel t.next intent.primaryPath).outcomes = _ from
      (foldl_clear _ _ intent.primaryPath).1]
    exact .take halone (.inl rfl) fun _ => by simpa [hhides] using hvacant

/-- Every clean step is one of these. -/
theorem Basis.stepped (base : Basis) {t : Traced} (hclean : base.clean t intent) :
    t.Stepped intent (base.trace t intent) := by
  refine (base.applied t.state t.next intent).stepped ?_
  rw [clean, Bool.or_eq_true, Bool.and_eq_true, Bool.and_eq_true, and_assoc] at hclean
  exact hclean.imp_left base.idle_of_inert

/-! ### Every clean step keeps the account -/

namespace Accounted

variable {log : List TreeEditIntent} {t : Traced} {path : TreePath}

variable (h : Accounted log t)
include h

theorem idle {y : NetEffect} (hy : y.idle) (intent : TreeEditIntent) :
    Accounted (log ++ [intent]) (t.idle y) where
  length := by simpa [Traced.next, Traced.idle] using h.length
  owners p i := by
    rw [show (t.idle y).state.owner[p]? = t.state.owner[p]? from rfl, h.owners p i]
    show _ ↔ (t.state.outcomes ++ [y])[i]? = _
    rcases lt_trichotomy i t.state.outcomes.length with hi | rfl | hi
    · rw [getElem?_append_left hi]
    · have hne : y ≠ .survives p := fun heq => by simp [heq, NetEffect.idle] at hy
      simp [hne]
    · rw [getElem?_eq_none hi.le, getElem?_eq_none (by simpa using hi)]
  owned := h.owned
  entries p e hp := by
    obtain ⟨i, hi, hown⟩ := h.entries p e hp
    refine ⟨i, hi, hown.imp_right ?_⟩
    rintro ⟨rfl, q, basis, hlog, hq⟩
    exact ⟨rfl, q, basis, getElem?_append_left (List.getElem?_eq_some_iff.mp hlog).1 ▸ hlog, hq⟩
  hidden := h.hidden

variable {entry : Option OverlayEntry}

omit h in
/-- Where an entry stands after a path is taken, the record is as before but
at that path. -/
theorem take_placed {q : TreePath} {e : OverlayEntry}
    (hq : (t.take path entry).state.overlay[q]? = some e) :
    (t.take path entry).placed q = if path = q then some t.next else t.placed q := by
  cases entry with
  | some entry => simp [Traced.take, eq_comm]
  | none =>
    rw [Traced.take_overlay] at hq
    split at hq
    · cases hq
    · next hne =>
      have hapart : ¬ q.startsWith path := fun hstarts => by
        simp [below, hstarts, Ne.symm hne] at hq
      simp [Traced.take, hapart, hne]

theorem take (halone : t.alone path) (hopen : entry = none ∨ t.state.overlay.Open path)
    (hvacant : entry = none ∨ entry = some .whiteout → t.vacant path)
    (intent : TreeEditIntent) : Accounted (log ++ [intent]) (t.take path entry) where
  length := by
    have := h.length
    cases entry <;> simp_all [Traced.next, Traced.take, length_supersede]
  owners p i := by
    have hafter : (t.take path entry).state.outcomes[i]? = some (.survives p) ↔
        (i = t.next ∧ entry.isSome ∧ path = p) ∨
          (t.state.owner[path]? ≠ some i ∧ t.state.owner[p]? = some i) := by
      cases entry <;> simp [Traced.take, h.survives_after]
    rw [hafter, Traced.take_owner hvacant]
    split
    · next heq =>
      subst heq
      cases entry <;> simp [eq_comm]
    · next hne =>
      have hother : t.state.owner[p]? = some i → t.state.owner[path]? ≠ some i :=
        fun hp hpath => hne (h.owner_inj hpath hp)
      simp only [hne, and_false, false_or]
      exact ⟨fun hp => ⟨hother hp, hp⟩, fun hp => hp.2⟩
  owned p i hp := by
    suffices hentry : ∃ e, (t.take path entry).state.overlay[p]? = some e ∧
        (if path = p then some t.next else t.placed p) = some i by
      obtain ⟨e, he, hi⟩ := hentry
      exact ⟨(take_placed he).trans hi, e, he⟩
    rw [Traced.take_owner hvacant] at hp
    by_cases heq : path = p
    · rw [if_pos heq] at hp
      obtain ⟨e, rfl, he⟩ := map_eq_some_iff.mp hp
      exact ⟨e, by simp [heq], by simp [heq, he]⟩
    · rw [if_neg heq] at hp
      obtain ⟨hplaced, e, he⟩ := h.owned p i hp
      -- what is cleared below a path that is given up has no owner
      have hkept : ¬ (entry = none ∧ p.below path) := fun hgone =>
        Traced.vacant_iff.mp (hvacant (.inl hgone.1)) p i hp hgone.2
      exact ⟨e, by rw [Traced.take_overlay, if_neg heq, if_neg hkept, he], by simp [heq, hplaced]⟩
  entries p e hp := by
    rw [take_placed hp, Traced.take_owner hvacant]
    rw [Traced.take_overlay] at hp
    by_cases heq : path = p
    · rw [if_pos heq] at hp
      exact ⟨t.next, by simp [heq], .inl (by simp [heq, hp])⟩
    · rw [if_neg heq] at hp
      split at hp
      · cases hp
      obtain ⟨i, hi, hown⟩ := h.entries p e hp
      refine ⟨i, by simp [heq, hi], hown.imp (by simp [heq]) ?_⟩
      rintro ⟨rfl, q, basis, hlog, hq⟩
      -- a rename whose whiteout stands keeps its target: the target's owner put more than one entry
      have hother : path ≠ q := by
        rintro rfl
        exact Traced.alone_iff halone hq hp (Ne.symm heq) hi
      exact ⟨rfl, q, basis, getElem?_append_left (List.getElem?_eq_some_iff.mp hlog).1 ▸ hlog,
        by simp [Traced.take_owner hvacant, hother, hq]⟩
  hidden p hp q i hq := by
    rw [Traced.take_overlay] at hp
    rw [Traced.take_owner hvacant] at hq
    by_cases heq : path = p
    · rw [if_pos heq] at hp
      subst heq
      split at hq
      · next heq => simp [← heq, below]
      · exact Traced.vacant_iff.mp (hvacant (.inr hp)) q i hq
    · rw [if_neg heq] at hp
      split at hp
      · cases hp
      split at hq
      · next heq =>
        obtain ⟨e, rfl, -⟩ := map_eq_some_iff.mp hq
        exact fun hbelow => hopen.resolve_left (by simp) p (heq ▸ hbelow) hp
      · exact h.hidden p hp q i hq

theorem hide {origin target : TreePath} {n : ℕ}
    (hlog : log[n]? = some (.rename origin target basis)) (htgt : t.state.owner[target]? = some n)
    (howner : origin = target ∨ t.state.owner[origin]? = none) (hvacant : t.vacant origin) :
    Accounted log (t.hide origin n) where
  length := h.length
  owners := h.owners
  owned p i hp := by
    obtain ⟨hplaced, e, he⟩ := h.owned p i hp
    simp only [Traced.hide, put, get_insert]
    by_cases heq : p = origin
    · subst heq
      rcases howner with rfl | hnone
      · exact ⟨by simpa using htgt.symm.trans hp, .whiteout, by simp⟩
      · exact absurd (hnone.symm.trans hp) (by simp)
    · exact ⟨by simp [heq, hplaced], e, by simp [Ne.symm heq, he]⟩
  entries p e hp := by
    simp only [Traced.hide, put, get_insert] at hp ⊢
    split at hp
    · next heq =>
      subst heq
      refine ⟨n, by simp, ?_⟩
      rcases howner with rfl | -
      · exact .inl htgt
      · exact .inr ⟨(some.inj hp).symm, target, basis, hlog, htgt⟩
    · next hne =>
      obtain ⟨i, hi, hown⟩ := h.entries p e hp
      exact ⟨i, by simp [Ne.symm hne, hi], hown⟩
  hidden p hp q i hq := by
    rcases get_insert_some hp with ⟨rfl, -⟩ | ⟨-, hp⟩
    · exact Traced.vacant_iff.mp hvacant q i hq
    · exact h.hidden p hp q i hq

theorem step {t' : Traced} (hstep : t.Stepped intent t') : Accounted (log ++ [intent]) t' := by
  cases hstep with
  | idle hy => exact h.idle hy intent
  | take halone hopen hvacant => exact h.take halone hopen hvacant intent
  | @move origin target basis entry hintent halone hopen hentry hvacant howner haway =>
    have htake : Accounted (log ++ [intent]) (t.take target (some entry)) :=
      h.take halone (.inr hopen) (by simp [hentry]) intent
    have htaken : ∀ q, (t.take target (some entry)).state.owner[q]? =
        if target = q then some t.next else t.state.owner[q]? :=
      fun q => Traced.take_owner (by simp [hentry])
    have hlog : (log ++ [intent])[t.next]? = some (.rename origin target basis) := by
      rw [h.length, hintent]
      simp
    refine htake.hide hlog (by simp [htaken]) ?_ (Traced.vacant_iff.mpr fun q i hq => ?_)
    · by_cases heq : origin = target
      · exact .inl heq
      · exact .inr (by rw [htaken, if_neg (Ne.symm heq)]; exact howner.resolve_left heq)
    · rw [htaken] at hq
      split at hq
      · next heq => exact heq ▸ haway
      · exact Traced.vacant_iff.mp hvacant q i hq

/-- An outcome changes only when its path is taken, and then names the taker. -/
theorem outcome_step {t' : Traced} (hstep : t.Stepped intent t') {i : ℕ} (hi : i < t.next) :
    t'.state.outcomes[i]? = t.state.outcomes[i]? ∨
      ∃ p inverse, t.state.owner[p]? = some i ∧ t'.placed p ≠ some i ∧
        t'.state.outcomes[i]? = some (noOpBy t.next inverse) := by
  have hsupersede : ∀ {path inverse y},
    ((t.state.supersede path t.next inverse).outcomes ++ [y])[i]? =
      if t.state.owner[path]? = some i then some (noOpBy t.next inverse)
      else t.state.outcomes[i]? := by
    intro path inverse y
    rw [getElem?_append_left (by rwa [length_supersede]), h.supersede_outcomes]
  cases hstep with
  | idle hy => exact .inl (getElem?_append_left hi)
  | @take path entry halone hopen hstaged =>
    by_cases howner : t.state.owner[path]? = some i
    · refine .inr ⟨path, entry.isNone, howner, ?_, ?_⟩
      · cases entry <;> simp [Traced.take, startsWith_refl, hi.ne']
      · cases entry <;> simp [Traced.take, hsupersede, howner]
    · cases entry <;> exact .inl (hsupersede.trans (if_neg howner))
  | @move origin target =>
    by_cases howner : t.state.owner[target]? = some i
    · refine .inr ⟨target, false, howner, ?_, hsupersede.trans (if_pos howner)⟩
      simp [Traced.hide, Traced.take, hi.ne']
    · exact .inl (hsupersede.trans (if_neg howner))

end Accounted

/-! ### Runs -/

/-- An intent that survived when it was applied still does, or names the later
intent that took its entry away. -/
def Basis.Named (base : Basis) (log : List TreeEditIntent) (t : Traced) : Prop :=
  ∀ before intent p, Happened base.trace .start log before intent →
    base.outcome before intent = .survives p →
    t.state.outcomes[before.next]? = some (.survives p) ∨
      ∃ later other inverse, Happened base.trace .start log later other ∧
        before.next < later.next ∧ later.placed p = some before.next ∧
        (base.trace later other).placed p ≠ some before.next ∧
        t.state.outcomes[before.next]? = some (noOpBy later.next inverse)

/-- What every clean run keeps. -/
structure Basis.Kept (base : Basis) (log : List TreeEditIntent) (t : Traced) : Prop where
  accounted : Accounted log t
  named : base.Named log t
  earlier : ∀ before intent, Happened base.trace .start log before intent → before.next < t.next

theorem Basis.Kept.step {base : Basis} {log : List TreeEditIntent}
    (h : base.Kept log (exec base.trace .start log))
    (hclean : base.clean (exec base.trace .start log) intent) :
    base.Kept (log ++ [intent]) (base.trace (exec base.trace .start log) intent) := by
  have hstep := base.stepped hclean
  have hnext := h.accounted.step hstep
  have hcount : (base.trace (exec base.trace .start log) intent).next
      = (exec base.trace .start log).next + 1 := by
    rw [hnext.length, h.accounted.length, length_append, length_singleton]
  refine ⟨hnext, fun before x p hhappened hout => ?_, fun before x hhappened => ?_⟩
  · rcases hhappened.of_snoc with hearlier | ⟨rfl, rfl⟩
    · have hi := h.earlier before x hearlier
      rcases h.named before x p hearlier hout with
        hsurvives | ⟨later, other, inverse, hlater, hlt, hhad, hlost, hname⟩
      · rcases h.accounted.outcome_step hstep hi with hkept | ⟨q, inverse, howner, hgone, hnow⟩
        · exact .inl (hkept.trans hsurvives)
        · have howned := (h.accounted.owners p _).mpr hsurvives
          obtain rfl : p = q := h.accounted.owner_inj howned howner
          exact .inr ⟨_, intent, inverse, .last log intent, hi,
            (h.accounted.owned p _ howner).1, hgone, hnow⟩
      · refine .inr ⟨later, other, inverse, hlater.append [intent], hlt, hhad, hlost, ?_⟩
        rcases h.accounted.outcome_step hstep hi with hkept | ⟨q, -, howner, -⟩
        · exact hkept.trans hname
        · -- a superseded intent owns nothing
          have hsurvives := ((h.accounted.owners q _).mp howner).symm.trans hname
          simp [noOpBy] at hsurvives
    · left
      have hlast : (base.trace (exec base.trace .start log) x).state.outcomes = _ ++ [_] := rfl
      rw [Traced.next, hlast, length_append, length_singleton, Nat.add_right_cancel_iff] at hcount
      rw [hlast, ← hcount, getElem?_concat_length]
      exact congrArg some hout
  · rcases hhappened.of_snoc with hearlier | ⟨rfl, rfl⟩
    · exact (h.earlier before x hearlier).trans (by omega)
    · omega

theorem Basis.kept_run {base : Basis} {log : List TreeEditIntent}
    (h : Meets base.trace (fun t intent => base.clean t intent) .start log) :
    base.Kept log (exec base.trace .start log) := by
  refine exec_invariant_of_meets (P := base.Kept) ⟨.start, ?_, ?_⟩
    (fun log intent hkept hclean => hkept.step hclean) h
  · rintro before intent p ⟨done, rest, hnil, -⟩
    simp at hnil
  · rintro before intent ⟨done, rest, hnil, -⟩
    simp at hnil

/-- A base that holds one file, `a`. -/
def oneFile : Basis where
  contentId bytes := ⟨0, bytes.length⟩
  baseExists path := path.components = [ascii "a"]
  baseSource _ := none

def pathA : TreePath := ⟨[ascii "a"], by decide, by decide⟩

def pathB : TreePath := ⟨[ascii "b"], by decide, by decide⟩

def pathBC : TreePath := ⟨[ascii "b", ascii "c"], by decide, by decide⟩

/-- A file is written twice and deleted, and the base file takes its path. -/
def rewrittenThenRenamed : List TreeEditIntent :=
  [.write pathB (ascii "1") .regular .content, .write pathB (ascii "22") .regular .content,
    .delete pathB, .rename pathA pathB (some ⟨[1], .regular⟩)]

end Frankengit.TreeFs
