/-
Frankengit/Merge/Pathwise.lean

When the tree merge decides every path once, from its three entries.

The walk is a list of turns (`turns`), each a path with the entries that are
taken at it.  The turns take every entry of the listings once, so what the merge
puts out for a path is what the turns at this path come to.  One turn takes all
the entries of the path.  A path that is a file on one side and a directory on
another can be met in two turns, with `a.b` between them for instance, and is
decided from other entries than its own (`mergeTrees_decides_twice`).  Two turns
come to what one would only if every listing has the path and the two that are
met together have the same entry (`WellMet`).
-/
import Frankengit.Merge.TreeInputs

namespace Frankengit.Merge

open Fallible WorkBudget Option TreeMergeError

variable {ObjectId : Type}

/-! ### Turns -/

/-- A turn of the walk: a path and the entries that are taken at it. -/
structure Turn (ObjectId : Type) where
  path : Bytes
  base : Option (TreeEntry ObjectId)
  ours : Option (TreeEntry ObjectId)
  theirs : Option (TreeEntry ObjectId)

def Turn.taken (turn : Turn ObjectId) : List (TreeEntry ObjectId) :=
  turn.base.toList ++ (turn.ours.toList ++ turn.theirs.toList)

/-- The turn at a path, where the cursors are. -/
def turnAt (base ours theirs : List (TreeEntry ObjectId)) (path : Bytes) : Turn ObjectId :=
  ⟨path, (takeMatching base path).1, (takeMatching ours path).1, (takeMatching theirs path).1⟩

def turnsFrom : ℕ → List (TreeEntry ObjectId) → List (TreeEntry ObjectId) →
    List (TreeEntry ObjectId) → List (Turn ObjectId)
  | 0, _, _, _ => []
  | n + 1, base, ours, theirs =>
    match nextPath base.head? ours.head? theirs.head? with
    | none => []
    | some path =>
      turnAt base ours theirs path :: turnsFrom n (takeMatching base path).2
        (takeMatching ours path).2 (takeMatching theirs path).2

/-- Where the cursors meet: the turns of a walk over three listings. -/
def turns (base ours theirs : List (TreeEntry ObjectId)) : List (Turn ObjectId) :=
  turnsFrom (base.length + ours.length + theirs.length) base ours theirs

/-- One turn takes what there is at the path, or two turns do, each of them equal
entries, and every listing has the path. -/
def WellMet (met : List (Turn ObjectId)) : Prop :=
  met.length = 1 ∨ met.length = 2 ∧ (met.flatMap Turn.taken).length = 3 ∧
    ∀ turn ∈ met, turn.taken.Pairwise (· = ·)

instance [DecidableEq ObjectId] (met : List (Turn ObjectId)) : Decidable (WellMet met) :=
  inferInstanceAs (Decidable (_ ∨ _))

section

variable {base ours theirs entries : List (TreeEntry ObjectId)} {path : Bytes}

theorem takeMatching_append (entries : List (TreeEntry ObjectId)) (path : Bytes) :
    (takeMatching entries path).1.toList ++ (takeMatching entries path).2 = entries := by
  cases entries with
  | nil => rfl
  | cons e entries =>
    rw [takeMatching]
    split <;> rfl

theorem takeMatching_path {e : TreeEntry ObjectId} (h : (takeMatching entries path).1 = some e) :
    e.path = path := by
  cases entries with
  | nil => cases h
  | cons first entries =>
    rw [takeMatching] at h
    split at h
    · next hpath => exact some.inj h ▸ hpath
    · cases h

theorem mem_minBy {α : Type} {cmp : α → α → Ordering} {l : List α} {least : α}
    (h : minBy cmp l = some least) : least ∈ l := by
  cases l with
  | nil => cases h
  | cons x xs =>
    obtain rfl := some.inj h
    refine List.foldlRecOn xs _ List.mem_cons_self fun least hleast y hy => ?_
    split
    · exact List.mem_cons_of_mem _ hy
    · exact hleast

/-- The next path is that of an entry at a cursor. -/
theorem nextPath_eq_some (h : nextPath base.head? ours.head? theirs.head? = some path) :
    ∃ e : TreeEntry ObjectId, e.path = path ∧
      (base.head? = some e ∨ ours.head? = some e ∨ theirs.head? = some e) := by
  obtain ⟨least, hleast, hpath⟩ := map_eq_some_iff.mp h
  have hmem := mem_minBy hleast
  simp only [List.mem_filterMap, List.mem_cons, List.not_mem_nil, or_false, id] at hmem
  obtain ⟨_, hhead, rfl⟩ := hmem
  exact ⟨least, hpath, hhead.imp Eq.symm (Or.imp Eq.symm Eq.symm)⟩

/-- A turn takes an entry. -/
theorem taken_turnAt (h : nextPath base.head? ours.head? theirs.head? = some path) :
    (turnAt base ours theirs path).taken ≠ [] := by
  obtain ⟨least, rfl, hhead⟩ := nextPath_eq_some h
  have htake : ∀ l : List (TreeEntry ObjectId), l.head? = some least →
      (takeMatching l least.path).1 = some least := by
    intro l hl
    cases l with
    | nil => cases hl
    | cons e l =>
      obtain rfl := some.inj hl
      exact congrArg Prod.fst (if_pos rfl)
  obtain hhead | hhead | hhead := hhead
  all_goals simp [Turn.taken, turnAt, htake _ hhead]

theorem nextPath_eq_none (h : nextPath base.head? ours.head? theirs.head? = none) :
    base = [] ∧ ours = [] ∧ theirs = [] := by
  cases base with
  | cons e base => cases h
  | nil =>
    cases ours with
    | cons e ours => cases h
    | nil =>
      cases theirs with
      | cons e theirs => cases h
      | nil => exact ⟨rfl, rfl, rfl⟩

theorem length_takeMatching (base ours theirs : List (TreeEntry ObjectId)) (path : Bytes) :
    (turnAt base ours theirs path).taken.length + ((takeMatching base path).2.length +
      (takeMatching ours path).2.length + (takeMatching theirs path).2.length)
      = base.length + ours.length + theirs.length := by
  have hlen : ∀ l : List (TreeEntry ObjectId), (takeMatching l path).1.toList.length +
      (takeMatching l path).2.length = l.length := by
    intro l
    rw [← List.length_append, takeMatching_append]
  rw [← hlen base, ← hlen ours, ← hlen theirs, Turn.taken, List.length_append, List.length_append]
  dsimp only [turnAt]
  omega

theorem remaining_lt (h : nextPath base.head? ours.head? theirs.head? = some path) :
    (takeMatching base path).2.length + (takeMatching ours path).2.length +
      (takeMatching theirs path).2.length < base.length + ours.length + theirs.length := by
  have hlen := length_takeMatching base ours theirs path
  have hpos := List.length_pos_iff.mpr (taken_turnAt h)
  omega

/-- The turns take the listings apart. -/
structure TakesApart (base ours theirs : List (TreeEntry ObjectId))
    (walk : List (Turn ObjectId)) : Prop where
  base_eq : walk.filterMap Turn.base = base
  ours_eq : walk.filterMap Turn.ours = ours
  theirs_eq : walk.filterMap Turn.theirs = theirs
  taken : ∀ turn ∈ walk, turn.taken ≠ [] ∧ ∀ e ∈ turn.taken, e.path = turn.path

theorem turnsFrom_takesApart {n : ℕ} (hn : base.length + ours.length + theirs.length ≤ n) :
    TakesApart base ours theirs (turnsFrom n base ours theirs) := by
  induction n generalizing base ours theirs with
  | zero =>
    obtain rfl : base = [] := List.length_eq_zero_iff.mp (by omega)
    obtain rfl : ours = [] := List.length_eq_zero_iff.mp (by omega)
    obtain rfl : theirs = [] := List.length_eq_zero_iff.mp (by omega)
    exact ⟨rfl, rfl, rfl, by simp [turnsFrom]⟩
  | succ n ih =>
    rw [turnsFrom]
    split
    · next hnone =>
      obtain ⟨rfl, rfl, rfl⟩ := nextPath_eq_none hnone
      exact ⟨rfl, rfl, rfl, by simp⟩
    · next path hnext =>
      obtain ⟨hbase, hours, htheirs, htaken⟩ :=
        ih (Nat.le_of_lt_succ ((remaining_lt hnext).trans_le hn))
      have hcons : ∀ {f : Turn ObjectId → Option (TreeEntry ObjectId)} {turn walk l},
          f turn = (takeMatching l path).1 → walk.filterMap f = (takeMatching l path).2 →
          (turn :: walk).filterMap f = l := by
        intro f turn walk l hturn hwalk
        have happend := takeMatching_append l path
        rw [← hturn, ← hwalk] at happend
        cases hf : f turn <;> simpa [hf] using happend
      refine ⟨hcons rfl hbase, hcons rfl hours, hcons rfl htheirs,
        List.forall_mem_cons.mpr ⟨⟨taken_turnAt hnext, ?_⟩, htaken⟩⟩
      intro e he
      simp only [Turn.taken, turnAt, List.mem_append, mem_toList] at he
      obtain he | he | he := he
      all_goals exact takeMatching_path he

theorem turns_takesApart (base ours theirs : List (TreeEntry ObjectId)) :
    TakesApart base ours theirs (turns base ours theirs) :=
  turnsFrom_takesApart le_rfl

theorem TakesApart.mem_iff {walk : List (Turn ObjectId)} (h : TakesApart base ours theirs walk)
    {e : TreeEntry ObjectId} :
    e ∈ base ++ (ours ++ theirs) ↔ ∃ turn ∈ walk, e ∈ turn.taken := by
  obtain ⟨rfl, rfl, rfl, -⟩ := h
  simp only [Turn.taken, List.mem_append, List.mem_filterMap, mem_toList, ← exists_or,
    ← and_or_left]

theorem TakesApart.hasPath {walk : List (Turn ObjectId)} (h : TakesApart base ours theirs walk)
    {turn : Turn ObjectId} (hturn : turn ∈ walk) :
    hasPath (base ++ (ours ++ theirs)) turn.path := by
  obtain ⟨hsome, htaken⟩ := h.taken turn hturn
  obtain ⟨e, he⟩ := List.exists_mem_of_ne_nil _ hsome
  exact ⟨e, h.mem_iff.mpr ⟨turn, hturn, he⟩, htaken e he⟩

end

/-! ### What a turn comes to -/

/-- The path of a merged entry. -/
def TreeMergeEntry.path : TreeMergeEntry ObjectId → Bytes
  | .clean entry => entry.path
  | .conflict c => c.path

/-- The entry, when it is clean. -/
def TreeMergeEntry.clean? : TreeMergeEntry ObjectId → Option (TreeEntry ObjectId)
  | .clean entry => some entry
  | .conflict _ => none

/-- The intent that goes with an entry. -/
def TreeMergeEntry.intent : TreeMergeEntry ObjectId → Option (ProposedTreeIntent ObjectId)
  | .clean _ => none
  | .conflict c => some c.intent

/-- What a listing has at a path. -/
def entryAt (entries : List (TreeEntry ObjectId)) (path : Bytes) : Option (TreeEntry ObjectId) :=
  entries.find? (·.path = path)

/-- A turn that takes all the entries of a path. -/
def wholeTurn (base ours theirs : List (TreeEntry ObjectId)) (path : Bytes) : Turn ObjectId :=
  ⟨path, entryAt base path, entryAt ours path, entryAt theirs path⟩

/-- The three entries of a path agree: two of them are the same. -/
def Agree (base ours theirs : Option (TreeEntry ObjectId)) : Prop :=
  ours = theirs ∨ base = ours ∨ base = theirs

variable [DecidableEq ObjectId]

/-- The three-way value of entries that agree. -/
def threeWay (base ours theirs : Option (TreeEntry ObjectId)) : Option (TreeEntry ObjectId) :=
  if base = ours then theirs else ours

section Merged

variable (renames : RenamePairs × RenamePairs)

/-- The sides rename the path of a turn in ways that conflict. -/
abbrev Turn.Forced (turn : Turn ObjectId) : Prop :=
  conflictingRenameSource renames.1 renames.2 turn.path turn.ours turn.theirs = true

/-- What a turn puts out. -/
def Turn.merged (turn : Turn ObjectId) : Option (TreeMergeEntry ObjectId) :=
  match mergeTreeEntry turn.path turn.base turn.ours turn.theirs
    (renamedPath renames.1 turn.path || renamedPath renames.2 turn.path)
    (conflictingRenameSource renames.1 renames.2 turn.path turn.ours turn.theirs) with
  | .ok entry => entry.map .clean
  | .error conflict => some (.conflict conflict)

/-- The clean entry that a turn puts out. -/
def Turn.value (turn : Turn ObjectId) : Option (TreeEntry ObjectId) :=
  (turn.merged renames).bind TreeMergeEntry.clean?

variable {renames} {turn : Turn ObjectId}

variable (renames) in
/-- The entries of the turn agree, and its path is not renamed in ways that conflict. -/
def Turn.Clean (turn : Turn ObjectId) : Prop :=
  Agree turn.base turn.ours turn.theirs ∧ ¬ turn.Forced renames

variable (renames) in
/-- A turn puts out the three-way value of its entries, or a conflict that carries them. -/
theorem Turn.merged_cases (turn : Turn ObjectId) :
    turn.Clean renames ∧ turn.merged renames
        = (threeWay turn.base turn.ours turn.theirs).map .clean ∨
      ¬ turn.Clean renames ∧ ∃ kind, turn.merged renames
        = some (.conflict ⟨turn.path, kind, turn.base, turn.ours, turn.theirs⟩) := by
  unfold merged mergeTreeEntry Clean Agree threeWay
  by_cases hforced : turn.Forced renames
  · rw [if_pos hforced]
    exact .inr ⟨fun h => h.2 hforced, _, rfl⟩
  rw [if_neg hforced]
  by_cases hsame : turn.ours = turn.theirs
  · rw [if_pos hsame, hsame, ite_self]
    exact .inl ⟨⟨.inl rfl, hforced⟩, rfl⟩
  rw [if_neg hsame]
  by_cases hours : turn.base = turn.ours
  · rw [if_pos hours, if_pos hours]
    exact .inl ⟨⟨.inr (.inl hours), hforced⟩, rfl⟩
  rw [if_neg hours, if_neg hours]
  by_cases htheirs : turn.base = turn.theirs
  · rw [if_pos htheirs]
    exact .inl ⟨⟨.inr (.inr htheirs), hforced⟩, rfl⟩
  · rw [if_neg htheirs]
    exact .inr ⟨fun h => h.1.elim hsame (·.elim hours htheirs), _, rfl⟩

/-- What is put out has the path of the turn. -/
theorem Turn.path_of_merged (htaken : ∀ e ∈ turn.taken, e.path = turn.path)
    {m : TreeMergeEntry ObjectId} (h : turn.merged renames = some m) :
    m.path = turn.path := by
  obtain ⟨-, heq⟩ | ⟨-, kind, heq⟩ := turn.merged_cases renames
  · rw [heq] at h
    obtain ⟨entry, hentry, rfl⟩ := map_eq_some_iff.mp h
    refine htaken entry ?_
    rw [threeWay] at hentry
    split at hentry
    all_goals simp [taken, hentry]
  · obtain rfl := some.inj (heq.symm.trans h)
    rfl

/-- A conflict carries what the turn takes. -/
theorem Turn.eq_of_merged_conflict {c : TreeConflict ObjectId}
    (h : turn.merged renames = some (.conflict c)) :
    turn = ⟨c.path, c.base, c.ours, c.theirs⟩ := by
  obtain ⟨-, heq⟩ | ⟨-, kind, heq⟩ := turn.merged_cases renames
  · rw [heq] at h
    obtain ⟨entry, -, hentry⟩ := map_eq_some_iff.mp h
    cases hentry
  · cases heq.symm.trans h
    rfl

/-- A turn that puts out nothing takes a base entry, which a side has kept or
both have deleted. -/
theorem Turn.merged_eq_none (hsome : turn.taken ≠ [])
    (h : turn.merged renames = none) :
    turn.base.isSome ∧ (turn.ours = none ∧ (turn.theirs = none ∨ turn.base = turn.theirs) ∨
      turn.theirs = none ∧ turn.base = turn.ours) := by
  obtain ⟨hclean, heq⟩ | ⟨-, kind, heq⟩ := turn.merged_cases renames
  · obtain ⟨path, base, ours, theirs⟩ := turn
    rw [heq, map_eq_none_iff, threeWay] at h
    dsimp only at h ⊢
    split at h
    · next hbase =>
      subst hbase h
      cases base with
      | none => exact absurd rfl hsome
      | some e => exact ⟨rfl, .inr ⟨rfl, rfl⟩⟩
    · next hbase =>
      subst h
      refine ⟨isSome_iff_ne_none.mpr hbase, .inl ⟨rfl, ?_⟩⟩
      rcases hclean.1 with hsame | hsame | hsame
      · exact .inl hsame.symm
      · exact absurd hsame hbase
      · exact .inr hsame
  · rw [heq] at h
    cases h

end Merged

section Pieces

variable {renames : RenamePairs × RenamePairs}

omit [DecidableEq ObjectId] in
/-- A side that has the path does not rename it, so the other side cannot
conflict with its rename. -/
theorem Turn.not_forced {turn : Turn ObjectId}
    (h : turn.ours ≠ none ∧ renameDestination renames.1 turn.path = none ∨
      turn.theirs ≠ none ∧ renameDestination renames.2 turn.path = none ∨
      renameDestination renames.1 turn.path = none ∧
        renameDestination renames.2 turn.path = none) :
    ¬ turn.Forced renames := by
  rw [Turn.Forced, conflictingRenameSource]
  rcases h with ⟨hsome, hnone⟩ | ⟨hsome, hnone⟩ | ⟨hnone, hnone'⟩
  · rw [hnone]
    cases renameDestination renames.2 turn.path <;> simp [hsome]
  · rw [hnone]
    cases renameDestination renames.1 turn.path <;> simp [hsome]
  · rw [hnone, hnone']
    simp

/-- Two turns at a path, the first with the base entry, come to what one would. -/
theorem pieces_iff {path : Bytes} {b : TreeEntry ObjectId} {o t o' t' : Option (TreeEntry ObjectId)}
    (hours : o = none ∨ o' = none) (htheirs : t = none ∨ t' = none)
    (hsome : (⟨path, none, o', t'⟩ : Turn ObjectId).taken ≠ [])
    (horen : o.or o' ≠ none → renameDestination renames.1 path = none)
    (htren : t.or t' ≠ none → renameDestination renames.2 path = none) :
    (⟨path, some b, o, t⟩ : Turn ObjectId).merged renames = none ∧
      (⟨path, none, o', t'⟩ : Turn ObjectId).merged renames
        = (⟨path, some b, o.or o', t.or t'⟩ : Turn ObjectId).merged renames ↔
    WellMet [⟨path, some b, o, t⟩, ⟨path, none, o', t'⟩] := by
  -- a piece with an entry of a side has all that the side has there, so it is not forced
  have hfree : ∀ base ours theirs, (ours ≠ none ∧ ours = o.or o' ∨
      theirs ≠ none ∧ theirs = t.or t' ∨ o.or o' ≠ none ∧ t.or t' ≠ none) →
      ¬ Turn.Forced renames ⟨path, base, ours, theirs⟩ := by
    intro base ours theirs h
    apply Turn.not_forced
    rcases h with ⟨hsome, rfl⟩ | ⟨hsome, rfl⟩ | ⟨h, h'⟩
    · exact .inl ⟨hsome, horen hsome⟩
    · exact .inr (.inl ⟨hsome, htren hsome⟩)
    · exact .inr (.inr ⟨horen h, htren h'⟩)
  have hn := Turn.merged_cases renames ⟨path, some b, o, t⟩
  have hm := Turn.merged_cases renames ⟨path, none, o', t'⟩
  have hw := Turn.merged_cases renames ⟨path, some b, o.or o', t.or t'⟩
  have hfn := hfree (some b) o t
  have hfm := hfree none o' t'
  have hfw := hfree (some b) (o.or o') (t.or t')
  clear hfree horen htren
  cases o <;> cases o' <;> cases t <;> cases t' <;> simp [Turn.taken] at hours htheirs hsome
  all_goals simp [Agree, threeWay, WellMet, Turn.taken, Turn.Clean] at hn hm hw hfn hfm hfw ⊢
  all_goals grind

omit [DecidableEq ObjectId] in
theorem WellMet.swap {u v : Turn ObjectId} (h : WellMet [u, v]) : WellMet [v, u] := by
  obtain hlen | ⟨-, hlen, heq⟩ := h
  · cases hlen
  · refine .inr ⟨rfl, ?_, fun turn hturn => heq turn (by simpa [or_comm] using hturn)⟩
    rw [← hlen]
    simp [Nat.add_comm]

theorem toList_append_eq {α : Type} {x y w : Option α} :
    x.toList ++ y.toList = w.toList ↔ (x = none ∨ y = none) ∧ x.or y = w := by
  cases x <;> cases y <;> cases w <;> simp

/-- Two turns come to what one would, exactly when they are well met. -/
theorem merged_pair_iff {path : Bytes} {b o t b' o' t' : Option (TreeEntry ObjectId)}
    (hsome : (⟨path, b, o, t⟩ : Turn ObjectId).taken ≠ [])
    (hsome' : (⟨path, b', o', t'⟩ : Turn ObjectId).taken ≠ [])
    (hbase : b = none ∨ b' = none) (hours : o = none ∨ o' = none) (htheirs : t = none ∨ t' = none)
    (horen : o.or o' ≠ none → renameDestination renames.1 path = none)
    (htren : t.or t' ≠ none → renameDestination renames.2 path = none) :
    ((⟨path, b, o, t⟩ : Turn ObjectId).merged renames).toList ++
      ((⟨path, b', o', t'⟩ : Turn ObjectId).merged renames).toList
        = ((⟨path, b.or b', o.or o', t.or t'⟩ : Turn ObjectId).merged renames).toList ↔
      WellMet [⟨path, b, o, t⟩, ⟨path, b', o', t'⟩] := by
  -- a turn without a base entry puts something out, so the other one must not
  have hout : ∀ {o t : Option (TreeEntry ObjectId)},
    (⟨path, none, o, t⟩ : Turn ObjectId).taken ≠ [] →
      (⟨path, none, o, t⟩ : Turn ObjectId).merged renames ≠ none :=
    fun hsome h => absurd (Turn.merged_eq_none hsome h).1 (by simp)
  rw [toList_append_eq]
  cases b with
  | some b =>
    obtain rfl : b' = none := hbase.resolve_left (by simp)
    rw [or_iff_left (hout hsome'), ← pieces_iff hours htheirs hsome' horen htren]
    exact and_congr_right fun h => by rw [h, none_or, or_none]
  | none =>
    rw [or_iff_right (hout hsome), and_congr_right fun h => by rw [h, or_none]]
    cases b' with
    | some b' =>
      have hcomm : ∀ {x y : Option (TreeEntry ObjectId)}, x = none ∨ y = none →
          x.or y = y.or x := by
        rintro x y (rfl | rfl) <;> simp
      rw [hcomm hours] at horen ⊢
      rw [hcomm htheirs] at htren ⊢
      exact (pieces_iff hours.symm htheirs.symm hsome horen htren).trans ⟨.swap, .swap⟩
    | none =>
      refine iff_of_false (fun h => hout hsome' h.1) ?_
      rintro (hlen | ⟨-, hlen, -⟩)
      · cases hlen
      · cases o <;> cases o' <;> cases t <;> cases t' <;> simp_all [Turn.taken]

variable (renames) in
/-- Every turn puts something out or takes a base entry. -/
theorem length_le_merged {met : List (Turn ObjectId)} (htaken : ∀ turn ∈ met, turn.taken ≠ []) :
    met.length ≤ (met.filterMap (Turn.merged renames)).length +
      (met.filterMap Turn.base).length := by
  induction met with
  | nil => exact Nat.zero_le _
  | cons turn met ih =>
    obtain ⟨hsome, hrest⟩ := List.forall_mem_cons.mp htaken
    have hlen := ih hrest
    cases hmerged : turn.merged renames with
    | some m =>
      have hle := ((List.sublist_cons_self turn met).filterMap Turn.base).length_le
      rw [List.filterMap_cons_some hmerged, List.length_cons, List.length_cons]
      omega
    | none =>
      obtain ⟨e, he⟩ := isSome_iff_exists.mp (turn.merged_eq_none hsome hmerged).1
      rw [List.filterMap_cons_none hmerged, List.filterMap_cons_some he, List.length_cons,
        List.length_cons]
      omega

/-- The turns at a path come to what one would, exactly when they are well met. -/
theorem merged_eq_whole_iff {met : List (Turn ObjectId)} {path : Bytes}
    {b o t : Option (TreeEntry ObjectId)} (hmet : met ≠ [])
    (hpath : ∀ turn ∈ met, turn.path = path) (htaken : ∀ turn ∈ met, turn.taken ≠ [])
    (hb : met.filterMap Turn.base = b.toList) (ho : met.filterMap Turn.ours = o.toList)
    (ht : met.filterMap Turn.theirs = t.toList)
    (horen : o ≠ none → renameDestination renames.1 path = none)
    (htren : t ≠ none → renameDestination renames.2 path = none) :
    met.filterMap (Turn.merged renames)
      = ((⟨path, b, o, t⟩ : Turn ObjectId).merged renames).toList ↔
      WellMet met := by
  have hcons : ∀ {α : Type} (f : Turn ObjectId → Option α) (u : Turn ObjectId) rest,
      (u :: rest).filterMap f = (f u).toList ++ rest.filterMap f := by
    intro α f u rest
    cases hu : f u <;> simp [hu]
  match met with
  | [⟨p, b', o', t'⟩] =>
    obtain rfl := hpath _ List.mem_cons_self
    have hsame : ∀ {x y : Option (TreeEntry ObjectId)}, x.toList = y.toList → x = y := by
      intro x y h
      cases x <;> cases y <;> simp_all
    rw [hcons, List.filterMap_nil, List.append_nil] at hb ho ht ⊢
    rw [← hsame hb, ← hsame ho, ← hsame ht]
    exact iff_of_true rfl (.inl rfl)
  | [⟨p, b', o', t'⟩, ⟨q, b'', o'', t''⟩] =>
    obtain ⟨rfl, rfl⟩ : p = path ∧ q = path := by simpa using hpath
    obtain ⟨hsome, hsome'⟩ : Turn.taken _ ≠ [] ∧ Turn.taken _ ≠ [] := by simpa using htaken
    rw [hcons, hcons, List.filterMap_nil, List.append_nil] at hb ho ht ⊢
    obtain ⟨hbase, rfl⟩ := toList_append_eq.mp hb
    obtain ⟨hours, rfl⟩ := toList_append_eq.mp ho
    obtain ⟨htheirs, rfl⟩ := toList_append_eq.mp ht
    exact merged_pair_iff hsome hsome' hbase hours htheirs horen htren
  | u :: v :: w :: rest =>
    have hlen := length_le_merged renames htaken
    have hone : ∀ {α : Type} (x : Option α), x.toList.length ≤ 1 := fun x => by cases x <;> simp
    rw [hb] at hlen
    refine iff_of_false (fun h => ?_) (by simp [WellMet])
    rw [h] at hlen
    exact absurd (hlen.trans (Nat.add_le_add (hone _) (hone b))) (by simp)

end Pieces

/-! ### The walk -/

/-- How much is left to walk. -/
def TreeMergeState.remaining (s : TreeMergeState ObjectId) : ℕ :=
  s.base.length + s.ours.length + s.theirs.length

/-- What the limits must allow from here on. -/
structure TreeRoom (limits : TreeMergeLimits) (s : TreeMergeState ObjectId) (work : ℕ) : Prop where
  work : s.remaining ≤ work
  paths : s.entries.length + s.remaining ≤ limits.maxPaths
  conflicts : s.proposedIntents.length + s.remaining ≤ limits.maxConflicts
  pathBytes : ∀ e ∈ s.base ++ (s.ours ++ s.theirs), e.path.length ≤ limits.maxPathBytes

section Walk

variable {limits : TreeMergeLimits} {renames : RenamePairs × RenamePairs}
  {s : TreeMergeState ObjectId} {path : Bytes} {room : Prop} {work : ℕ}

variable (renames) in
/-- The state after a turn. -/
def TreeMergeState.after (s : TreeMergeState ObjectId) (path : Bytes) : TreeMergeState ObjectId :=
  let merged := (turnAt s.base s.ours s.theirs path).merged renames
  ⟨(takeMatching s.base path).2, (takeMatching s.ours path).2, (takeMatching s.theirs path).2,
    s.entries ++ merged.toList,
    s.proposedIntents ++ merged.toList.filterMap TreeMergeEntry.intent⟩

theorem TreeRoom.after (h : TreeRoom limits s (work + 1))
    (hnext : nextPath s.base.head? s.ours.head? s.theirs.head? = some path) :
    TreeRoom limits (s.after renames path) work := by
  obtain ⟨hwork, hpaths, hconfl, hbytes⟩ := h
  have hless : (s.after renames path).remaining < s.remaining :=
    remaining_lt hnext
  have hone : ((turnAt s.base s.ours s.theirs path).merged renames).toList.length ≤ 1 := by
    cases (turnAt s.base s.ours s.theirs path).merged renames <;> simp
  refine ⟨by omega, ?_, ?_, fun e he => hbytes e ?_⟩
  · have hlen : (s.after renames path).entries.length = _ := List.length_append
    omega
  · have hle := hone.trans' (List.length_filterMap_le TreeMergeEntry.intent _)
    have hlen : (s.after renames path).proposedIntents.length = _ :=
      List.length_append
    omega
  · have hsub : ∀ l : List (TreeEntry ObjectId), e ∈ (takeMatching l path).2 → e ∈ l := by
      intro l hl
      rw [← takeMatching_append l path]
      exact List.mem_append_right _ hl
    simp only [TreeMergeState.after, List.mem_append] at he ⊢
    exact he.imp (hsub _) (Or.imp (hsub _) (hsub _))

theorem decidePath_fits (hroom : room → s.proposedIntents.length ≠ limits.maxConflicts) :
    Fits room .unsortedOrDuplicatePath (decidePath limits renames.1 renames.2 s path)
      (· = s.after renames path) := by
  rw [decidePath, TreeMergeState.after, Turn.merged]
  dsimp only [turnAt]
  split
  · next clean hmerged => simp [Fits, hmerged, TreeMergeEntry.intent]
  · next hmerged => simp [Fits, hmerged]
  · next conflict hmerged =>
    refine .refuseIf_bind (by simp) hroom ?_
    simp [Fits, hmerged, TreeMergeEntry.intent, pure, Except.pure]

theorem treeStep_fits (hnext : nextPath s.base.head? s.ours.head? s.theirs.head? = some path)
    (hroom : room → TreeRoom limits s (work + 1)) :
    Fits room .unsortedOrDuplicatePath (treeStep limits renames.1 renames.2 s)
      (· = s.after renames path) := by
  have hpos : 0 < s.remaining := Nat.zero_lt_of_lt (remaining_lt hnext)
  refine .refuseIf_bind (by simp) (fun r => ?_) ?_
  · have hlimit := (hroom r).paths
    omega
  rw [hnext]
  refine .refuseIf_bind (by simp) (fun r => ?_) (decidePath_fits fun r => ?_)
  · obtain ⟨e, rfl, hhead⟩ := nextPath_eq_some hnext
    refine not_lt.mpr ((hroom r).pathBytes e ?_)
    rw [List.mem_append, List.mem_append]
    exact hhead.imp List.mem_of_head? (Or.imp List.mem_of_head? List.mem_of_head?)
  · have hlimit := (hroom r).conflicts
    omega

variable (renames) in
/-- A walk puts out what its turns come to. -/
def PutsOut (walk : List (Turn ObjectId)) (s s' : TreeMergeState ObjectId) : Prop :=
  let put := walk.filterMap (Turn.merged renames)
  s'.entries = s.entries ++ put ∧
    s'.proposedIntents = s.proposedIntents ++ put.filterMap TreeMergeEntry.intent

theorem PutsOut.nil (h : s.base = [] ∧ s.ours = [] ∧ s.theirs = []) (n : ℕ) :
    PutsOut renames (turnsFrom n s.base s.ours s.theirs) s s := by
  rw [h.1, h.2.1, h.2.2]
  cases n <;> exact ⟨(List.append_nil _).symm, (List.append_nil _).symm⟩

theorem PutsOut.cons {walk : List (Turn ObjectId)} {s' : TreeMergeState ObjectId}
    (h : PutsOut renames walk (s.after renames path) s') :
    PutsOut renames (turnAt s.base s.ours s.theirs path :: walk) s s' := by
  obtain ⟨hentries, hintents⟩ := h
  rw [PutsOut, hentries, hintents, TreeMergeState.after]
  cases hmerged : (turnAt s.base s.ours s.theirs path).merged renames with
  | none => simp [hmerged]
  | some m => cases hintent : m.intent <;> simp [hmerged, hintent]

variable (renames) in
theorem treeLoop_fits {n : ℕ} (hn : s.remaining ≤ n) (hroom : room → TreeRoom limits s work) :
    Fits room .unsortedOrDuplicatePath (treeLoop limits renames.1 renames.2 work s)
      (PutsOut renames (turnsFrom n s.base s.ours s.theirs) s) := by
  induction work generalizing s n with
  | zero =>
    rw [treeLoop]
    split
    · next hnone => exact .nil hnone n
    · next hsome =>
      refine ⟨by simp, fun r => hsome ?_⟩
      have hwork := (hroom r).work
      rw [TreeMergeState.remaining] at hwork
      simp only [← List.length_eq_zero_iff]
      omega
  | succ work ih =>
    rw [treeLoop]
    split
    · next hnone => exact .nil hnone n
    · next hsome =>
      cases hnext : nextPath s.base.head? s.ours.head? s.theirs.head? with
      | none => exact absurd (nextPath_eq_none hnext) hsome
      | some path =>
        have hless := (remaining_lt hnext).trans_le hn
        obtain ⟨n, rfl⟩ := Nat.exists_eq_succ_of_ne_zero (Nat.ne_zero_of_lt hless)
        rw [turnsFrom, hnext]
        refine (treeStep_fits hnext hroom).bind fun s' hs' => ?_
        subst hs'
        exact (ih (s := s.after _ path) (Nat.le_of_lt_succ hless)
          fun r => (hroom r).after hnext).mono fun _ h => h.cons

end Walk

/-! ### Results -/

/-- The sides rename a path in ways that conflict. -/
def RenamedApart (base ours theirs : List (TreeEntry ObjectId)) (path : Bytes) : Prop :=
  conflictingRenameSource (renamesOf base ours) (renamesOf base theirs) path
    (entryAt ours path) (entryAt theirs path) = true

/-- Every path is decided once, from its three entries. -/
structure Pathwise (base ours theirs : List (TreeEntry ObjectId))
    (result : TreeMergeResult ObjectId) : Prop where
  distinct : (result.entries.map TreeMergeEntry.path).Nodup
  occurs : ∀ m ∈ result.entries, hasPath (base ++ (ours ++ theirs)) m.path
  clean : ∀ path, hasPath (base ++ (ours ++ theirs)) path →
    Agree (entryAt base path) (entryAt ours path) (entryAt theirs path) →
    ¬ RenamedApart base ours theirs path →
    result.entries.filter (·.path = path) = ((threeWay (entryAt base path) (entryAt ours path)
      (entryAt theirs path)).map TreeMergeEntry.clean).toList
  conflict : ∀ path, hasPath (base ++ (ours ++ theirs)) path →
    ¬ (Agree (entryAt base path) (entryAt ours path) (entryAt theirs path) ∧
      ¬ RenamedApart base ours theirs path) →
    ∃ kind, result.entries.filter (·.path = path) = [.conflict ⟨path, kind, entryAt base path,
      entryAt ours path, entryAt theirs path⟩]
  listing : Listing (result.entries.filterMap TreeMergeEntry.clean?) ∧
    ((result.entries.filterMap TreeMergeEntry.clean?).map TreeEntry.path).Nodup
  intents : result.proposedIntents = result.entries.filterMap TreeMergeEntry.intent

section Results

variable {base ours theirs : List (TreeEntry ObjectId)} {path : Bytes}

variable (base ours theirs) in
/-- What each side renames. -/
def bothRenames : RenamePairs × RenamePairs := (renamesOf base ours, renamesOf base theirs)

variable (base ours theirs) in
/-- What the merge puts out. -/
def putOut : List (TreeMergeEntry ObjectId) :=
  (turns base ours theirs).filterMap (Turn.merged (bothRenames base ours theirs))

omit [DecidableEq ObjectId] in
/-- What comes of the turns at a path is what has the path among all that comes of
turns. -/
theorem filterMap_filter_path {α : Type} {walk : List (Turn ObjectId)}
    {f : Turn ObjectId → Option α} (name : α → Bytes)
    (h : ∀ turn ∈ walk, ∀ a, f turn = some a → name a = turn.path) (path : Bytes) :
    (walk.filter (·.path = path)).filterMap f = (walk.filterMap f).filter (name · = path) := by
  rw [List.filterMap_filter, List.filter_filterMap]
  refine List.filterMap_congr fun turn hturn => ?_
  cases hf : f turn with
  | none => simp
  | some a => simp [Option.filter, h turn hturn a hf]

omit [DecidableEq ObjectId] in
theorem filter_eq_entryAt {entries : List (TreeEntry ObjectId)}
    (h : (entries.map TreeEntry.path).Nodup) (path : Bytes) :
    entries.filter (·.path = path) = (entryAt entries path).toList := by
  induction entries with
  | nil => rfl
  | cons e entries ih =>
    obtain ⟨hnot, hrest⟩ := List.nodup_cons.mp h
    rw [entryAt]
    by_cases hpath : e.path = path
    · rw [List.filter_cons_of_pos (by simpa using hpath),
        List.find?_cons_of_pos (by simpa using hpath), List.filter_eq_nil_iff.mpr ?_]
      · rfl
      · intro f hf hsame
        exact hnot (List.mem_map.mpr ⟨f, hf, (decide_eq_true_eq.mp hsame).trans hpath.symm⟩)
    · rw [List.filter_cons_of_neg (by simpa using hpath),
        List.find?_cons_of_neg (by simpa using hpath)]
      exact ih hrest

omit [DecidableEq ObjectId] in
/-- Where no path has two entries, the paths are distinct. -/
theorem nodup_of_filter_path {l : List (TreeMergeEntry ObjectId)}
    (h : ∀ m ∈ l, (l.filter (·.path = m.path)).length ≤ 1) :
    (l.map TreeMergeEntry.path).Nodup := by
  rw [List.nodup_iff_count_le_one]
  intro path
  by_cases hpath : path ∈ l.map TreeMergeEntry.path
  · obtain ⟨m, hm, rfl⟩ := List.mem_map.mp hpath
    rw [List.count_eq_length_filter, List.filter_map, List.length_map]
    simpa only [Function.comp_def, beq_eq_decide] using h m hm
  · exact (List.count_eq_zero_of_not_mem hpath).trans_le (Nat.zero_le 1)

omit [DecidableEq ObjectId] in
theorem nodup_clean {l : List (TreeMergeEntry ObjectId)}
    (h : (l.map TreeMergeEntry.path).Nodup) :
    ((l.filterMap TreeMergeEntry.clean?).map TreeEntry.path).Nodup := by
  rw [List.Nodup, List.pairwise_map, List.pairwise_filterMap]
  refine (List.pairwise_map.mp h).imp fun {m n} hne e he f hf => ?_
  cases m with
  | conflict c => cases he
  | clean entry =>
    cases n with
    | conflict c => cases hf
    | clean entry' =>
      obtain rfl := some.inj he
      obtain rfl := some.inj hf
      exact hne

variable (hbase : (base.map TreeEntry.path).Nodup) (hours : (ours.map TreeEntry.path).Nodup)
  (htheirs : (theirs.map TreeEntry.path).Nodup)

include hbase hours htheirs in
/-- The entries at a path are what its three entries come to, exactly when it is
well met. -/
theorem putOut_at_iff {turn : Turn ObjectId} (hturn : turn ∈ turns base ours theirs) :
    (putOut base ours theirs).filter (·.path = turn.path)
      = ((wholeTurn base ours theirs turn.path).merged (bothRenames base ours theirs)).toList ↔
      WellMet ((turns base ours theirs).filter (·.path = turn.path)) := by
  obtain ⟨hb, ho, ht, htaken⟩ := turns_takesApart base ours theirs
  rw [putOut, ← filterMap_filter_path TreeMergeEntry.path fun turn hturn m hm =>
    Turn.path_of_merged (htaken turn hturn).2 hm]
  have hpart : ∀ {f : Turn ObjectId → Option (TreeEntry ObjectId)} {l},
    (l.map TreeEntry.path).Nodup →
      (turns base ours theirs).filterMap f = l → (∀ turn e, f turn = some e → e ∈ turn.taken) →
      ((turns base ours theirs).filter (·.path = turn.path)).filterMap f
        = (entryAt l turn.path).toList := by
    intro f l hl hf hmem
    rw [filterMap_filter_path TreeEntry.path fun turn hturn e he =>
      (htaken turn hturn).2 e (hmem turn e he), hf, filter_eq_entryAt hl]
  have hrename : ∀ {side : List (TreeEntry ObjectId)}, entryAt side turn.path ≠ none →
      renameDestination (renamesOf base side) turn.path = none := by
    intro side hside
    obtain ⟨e, he⟩ := ne_none_iff_exists'.mp hside
    exact renameDestination_eq_none base side ⟨e, List.mem_of_find?_eq_some he,
      by simpa using List.find?_some he⟩
  refine merged_eq_whole_iff ?_ (fun t ht => by simpa using (List.mem_filter.mp ht).2)
    (fun t ht => (htaken t (List.mem_filter.mp ht).1).1) (hpart hbase hb ?_) (hpart hours ho ?_)
    (hpart htheirs ht ?_) hrename hrename
  · exact List.ne_nil_of_mem (List.mem_filter.mpr ⟨hturn, decide_eq_true rfl⟩)
  all_goals
    intro turn e he
    simp [Turn.taken, he]

theorem mem_putOut {m : TreeMergeEntry ObjectId} (h : m ∈ putOut base ours theirs) :
    ∃ turn ∈ turns base ours theirs, turn.merged (bothRenames base ours theirs)
      = some m ∧ m.path = turn.path := by
  obtain ⟨turn, hturn, hm⟩ := List.mem_filterMap.mp h
  exact ⟨turn, hturn, hm, Turn.path_of_merged ((turns_takesApart _ _ _).taken turn hturn).2 hm⟩

theorem hasPath_of_mem_putOut {m : TreeMergeEntry ObjectId} (hm : m ∈ putOut base ours theirs) :
    hasPath (base ++ (ours ++ theirs)) m.path := by
  obtain ⟨turn, hturn, -, hpath⟩ := mem_putOut hm
  exact hpath ▸ (turns_takesApart base ours theirs).hasPath hturn

include hbase hours htheirs in
theorem wellMet_of_pathwise {intents : List (ProposedTreeIntent ObjectId)}
    (h : Pathwise base ours theirs ⟨putOut base ours theirs, intents⟩) {turn : Turn ObjectId}
    (hturn : turn ∈ turns base ours theirs) :
    WellMet ((turns base ours theirs).filter (·.path = turn.path)) := by
  have hpath := (turns_takesApart base ours theirs).hasPath hturn
  apply (putOut_at_iff hbase hours htheirs hturn).mp
  obtain ⟨hclean, heq⟩ | ⟨hclean, -⟩ :=
    (wholeTurn base ours theirs turn.path).merged_cases (bothRenames base ours theirs)
  · rw [heq]
    exact h.clean turn.path hpath hclean.1 hclean.2
  · obtain ⟨kind, hconf⟩ := h.conflict turn.path hpath hclean
    have hmem : TreeMergeEntry.conflict _ ∈ putOut base ours theirs :=
      List.mem_of_mem_filter (hconf ▸ List.mem_cons_self)
    -- the turn that puts the conflict out takes all three entries
    obtain ⟨u, -, hu, -⟩ := mem_putOut hmem
    have hwhole : u = wholeTurn base ours theirs turn.path := Turn.eq_of_merged_conflict hu
    rw [← hwhole, hu]
    exact hconf

include hbase hours htheirs in
theorem pathwise_of_wellMet
    (hmet : ∀ turn ∈ turns base ours theirs,
      WellMet ((turns base ours theirs).filter (·.path = turn.path)))
    (hvalues : Listing ((turns base ours theirs).filterMap
      (Turn.value (bothRenames base ours theirs)))) :
    Pathwise base ours theirs ⟨putOut base ours theirs,
      (putOut base ours theirs).filterMap TreeMergeEntry.intent⟩ := by
  have hat : ∀ path, hasPath (base ++ (ours ++ theirs)) path →
      (putOut base ours theirs).filter (·.path = path)
        = ((wholeTurn base ours theirs path).merged (bothRenames base ours theirs)).toList := by
    -- an entry of an input is taken in some turn, whose path is its path
    rintro _ ⟨e, he, rfl⟩
    obtain ⟨turn, hturn, he⟩ := (turns_takesApart base ours theirs).mem_iff.mp he
    rw [((turns_takesApart base ours theirs).taken turn hturn).2 e he]
    exact (putOut_at_iff hbase hours htheirs hturn).mpr (hmet turn hturn)
  have hdistinct : ((putOut base ours theirs).map TreeMergeEntry.path).Nodup := by
    refine nodup_of_filter_path fun m hm => ?_
    rw [hat m.path (hasPath_of_mem_putOut hm)]
    cases (wholeTurn base ours theirs m.path).merged _ <;> simp
  refine ⟨hdistinct, fun m => hasPath_of_mem_putOut, fun path hpath hagree hrename => ?_,
    fun path hpath hnot => ?_, ⟨?_, nodup_clean hdistinct⟩, rfl⟩
  · obtain ⟨-, heq⟩ | ⟨hnot, -⟩ := (wholeTurn base ours theirs path).merged_cases _
    · exact (hat path hpath).trans (congrArg _ heq)
    · exact absurd ⟨hagree, hrename⟩ hnot
  · obtain ⟨hclean, -⟩ | ⟨-, kind, heq⟩ :=
      (wholeTurn base ours theirs path).merged_cases (bothRenames base ours theirs)
    · exact absurd hclean hnot
    · exact ⟨kind, (hat path hpath).trans (congrArg _ heq)⟩
  · rw [putOut, List.filterMap_filterMap]
    exact hvalues

omit hbase hours htheirs in
theorem mergeTrees_eq_putOut {limits : TreeMergeLimits} {result : TreeMergeResult ObjectId}
    (h : mergeTrees base ours theirs limits = .ok result) :
    result = ⟨putOut base ours theirs,
      (putOut base ours theirs).filterMap TreeMergeEntry.intent⟩ := by
  simp only [mergeTrees, bind_eq_ok, pure_eq_ok] at h
  obtain ⟨_, hcollect, _, hcollect', _, hcollect'', ⟨oursRenames, budget⟩, hrenames,
    ⟨theirsRenames, budget'⟩, hrenames', s, hloop, rfl⟩ := h
  obtain ⟨rfl, -⟩ := collectTree_eq_ok hcollect
  obtain ⟨rfl, -⟩ := collectTree_eq_ok hcollect'
  obtain ⟨rfl, -⟩ := collectTree_eq_ok hcollect''
  obtain rfl := (exactObjectRenames_gives _ _).answer hrenames
  obtain rfl := (exactObjectRenames_gives _ _).answer hrenames'
  obtain ⟨hentries, hintents⟩ := (treeLoop_fits (bothRenames _ _ _) le_rfl False.elim).answer hloop
  rw [hentries, hintents]
  rfl

omit hbase hours htheirs in
theorem exists_mergeTrees_eq_ok (hbase : Listing base) (hours : Listing ours)
    (htheirs : Listing theirs) :
    ∃ enough : ℕ, ∀ limits : TreeMergeLimits,
      (∀ limit ∈ [limits.maxEntriesPerTree, limits.maxPaths, limits.maxPathBytes,
        limits.maxConflicts, limits.maxWorkSteps], enough ≤ limit) →
      ∃ result, mergeTrees base ours theirs limits = .ok result := by
  obtain ⟨oursCost, _, hoursTakes, rfl⟩ := exactObjectRenames_gives base ours
  obtain ⟨theirsCost, _, htheirsTakes, rfl⟩ := exactObjectRenames_gives base theirs
  let inputs := base ++ (ours ++ theirs)
  refine ⟨oursCost + theirsCost + inputs.length + (inputs.map fun e => e.path.length).sum,
    fun limits henough => ?_⟩
  simp only [List.forall_mem_cons, List.not_mem_nil, false_imp_iff, implies_true, and_true]
    at henough
  have hlen : inputs.length = base.length + ours.length + theirs.length := by
    rw [List.length_append, List.length_append, Nat.add_assoc]
  have hpathBytes : ∀ e ∈ inputs, e.path.length ≤ limits.maxPathBytes := by
    intro e he
    have hsum : e.path.length ≤ (inputs.map fun e => e.path.length).sum :=
      List.le_sum_of_mem (List.mem_map_of_mem he)
    omega
  have hcollect : ∀ l : List (TreeEntry ObjectId), Listing l → l.length ≤ inputs.length →
      (∀ e ∈ l, e ∈ inputs) →
      collectTree l limits.maxEntriesPerTree limits.maxPathBytes = .ok l := by
    intro l hl hle hsub
    exact collectTree_of_room hl (by omega) fun e he => hpathBytes e (hsub e he)
  have hroom : TreeRoom limits ⟨base, ours, theirs, [], []⟩
      (limits.maxWorkSteps - oursCost - theirsCost) := by
    refine ⟨?_, ?_, ?_, hpathBytes⟩
    all_goals
      simp only [TreeMergeState.remaining, List.length_nil]
      omega
  obtain ⟨s, hs⟩ := (treeLoop_fits (bothRenames base ours theirs) le_rfl
    fun _ => hroom).exists_ok trivial
  refine ⟨⟨s.entries, s.proposedIntents⟩, ?_⟩
  have hoursRun := hoursTakes.eq_ok (b := .new limits.maxWorkSteps)
    (show oursCost ≤ limits.maxWorkSteps by omega)
  have htheirsRun := htheirsTakes.eq_ok
    (b := ⟨limits.maxWorkSteps - oursCost, limits.maxWorkSteps⟩)
    (show theirsCost ≤ limits.maxWorkSteps - oursCost by omega)
  simp only [mergeTrees, bind_eq_ok, pure_eq_ok]
  exact ⟨base, hcollect base hbase (by omega) (fun e he => List.mem_append_left _ he), ours,
    hcollect ours hours (by omega)
      (fun e he => List.mem_append_right _ (List.mem_append_left _ he)), theirs,
    hcollect theirs htheirs (by omega)
      (fun e he => List.mem_append_right _ (List.mem_append_right _ he)),
    _, hoursRun, _, htheirsRun, s, hs, rfl⟩

end Results

end Frankengit.Merge
