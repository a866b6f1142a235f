/-
Frankengit/Lib/Search.lean

Reachability in a finite graph given as a map from nodes to successor
lists, by a stack walk that visits every node once.

`walk` is the loop with an explicit fuel; `reaches` gives it the fuel that
always suffices (one turn for the start node and one for every listed
successor).  `reaches_iff` says the walk decides the reflexive transitive
closure of the edge relation, so everything else about it (monotonicity in
the graph, composition) is a fact about `Relation.ReflTransGen`.
-/
import Frankengit.Lib.BTree
import Frankengit.Lib.Saturate

namespace Search

open List BTree Relation

variable {α : Type*} [LinearOrder α]

/-- `Edge view a b`: the graph lists `b` among the successors of `a`. -/
def Edge (view : BTreeMap α (List α)) (a b : α) : Prop :=
  ∃ nexts, view[a]? = some nexts ∧ b ∈ nexts

theorem Edge.mono {view view' : BTreeMap α (List α)}
    (h : ∀ (a : α) nexts, view[a]? = some nexts → view'[a]? = some nexts) {a b : α} :
    Edge view a b → Edge view' a b := by
  rintro ⟨nexts, hn, hb⟩
  exact ⟨nexts, h a nexts hn, hb⟩

/-- The stack walk: pop a node, skip it if it was visited, stop if the
target is one of its successors, otherwise push its successors. -/
def walk (view : BTreeMap α (List α)) (target : α) : ℕ → BTreeSet α → List α → Bool
  | 0, _, _ => false
  | _ + 1, _, [] => false
  | fuel + 1, visited, current :: frontier =>
    if current ∈ visited then walk view target fuel visited frontier
    else
      match view[current]? with
      | none => walk view target fuel (visited.insert current) frontier
      | some nexts =>
        if target ∈ nexts then true
        else walk view target fuel (visited.insert current) (nexts.reverse ++ frontier)

/-- Turns that suffice for any walk over `view` from one start node. -/
def budget (view : BTreeMap α (List α)) : ℕ :=
  2 + (view.toList.map fun e => e.2.length).sum

/-- Whether the walk from `start` meets `target`. -/
def reaches (view : BTreeMap α (List α)) (start target : α) : Bool :=
  if start = target then true else walk view target (budget view) ∅ [start]

variable {view : BTreeMap α (List α)} {target : α}

variable {visited : BTreeSet α}

/-! ### Turns -/

/-- Successors listed by the entries whose node was not visited. -/
def unpushed (entries : List (α × List α)) (visited : BTreeSet α) : ℕ :=
  (entries.map fun e => if e.1 ∈ visited then 0 else e.2.length).sum

/-- Successors the walk has not pushed yet. -/
def pending (view : BTreeMap α (List α)) (visited : BTreeSet α) : ℕ :=
  unpushed view.toList visited

theorem unpushed_insert_le (entries : List (α × List α)) (visited : BTreeSet α) (a : α) :
    unpushed entries (visited.insert a) ≤ unpushed entries visited := by
  refine sum_le_sum fun e _ => ?_
  by_cases he : e.1 ∈ visited <;> by_cases ha : a = e.1 <;> simp [he, ha]

theorem unpushed_insert_of_mem {entries : List (α × List α)} {a : α} (ha : a ∉ visited)
    {nexts : List α} (hmem : (a, nexts) ∈ entries) :
    unpushed entries (visited.insert a) + nexts.length ≤ unpushed entries visited := by
  have hin : a ∈ visited.insert a := (mem_insert _ _ _).mpr (.inl rfl)
  have hperm := perm_cons_erase hmem
  -- the other entries list no more than before
  have hle := unpushed_insert_le (entries.erase (a, nexts)) visited a
  simp only [unpushed] at hle ⊢
  rw [(hperm.map _).sum_eq, (hperm.map _).sum_eq, map_cons, map_cons, sum_cons, sum_cons,
    if_pos hin, if_neg ha]
  dsimp only
  omega

theorem pending_insert_of_get {a : α} {nexts : List α} (ha : a ∉ visited)
    (hn : view[a]? = some nexts) :
    pending view (visited.insert a) + nexts.length ≤ pending view visited :=
  unpushed_insert_of_mem ha (Std.ExtTreeMap.mem_toList_iff_getElem?_eq_some.mpr hn)

/-! ### The walk decides reachability -/

theorem pending_empty : pending view ∅ = (view.toList.map fun e => e.2.length).sum := by
  simp [pending, unpushed]

/-- The walk meets the target at an edge from a node it comes to. -/
theorem walk_iff (start : α) {fuel : ℕ} {frontier : List α}
    (hfuel : frontier.length + pending view visited < fuel)
    (h : Spread (Edge view) (· = start) (fun v => v ∈ visited ∨ v ∈ frontier) (· ∈ visited))
    (hsafe : ∀ v ∈ visited, ¬ Edge view v target) :
    walk view target fuel visited frontier = true ↔ TransGen (Edge view) start target := by
  induction fuel generalizing visited frontier with
  | zero => omega
  | succ fuel ih =>
    cases frontier with
    | nil =>
      refine ⟨nofun, fun hpath => ?_⟩
      obtain ⟨v, hv, hedge⟩ := TransGen.tail'_iff.mp hpath
      have hall : ∀ v, v ∈ visited ∨ v ∈ [] → v ∈ visited := by simp
      exact absurd hedge (hsafe v (hall v ((h.known_iff hall).mpr ⟨start, rfl, hv⟩)))
    | cons current frontier =>
      rw [length_cons] at hfuel
      rw [walk]
      split
      · next hvis =>
        refine ih (by omega) (h.visit (.inl hvis) (fun v => ?_) fun v hv => .inl hv) hsafe
        have hclosed := h.closed current v hvis
        have hcur : v = current → v ∈ visited := fun heq => heq ▸ hvis
        rw [mem_cons] at hclosed ⊢
        tauto
      · next hvis =>
        have hvisit : ∀ v, v ∈ visited.insert current ↔ v = current ∨ v ∈ visited := by
          intro v
          rw [mem_insert, eq_comm]
        have hdone : ∀ v ∈ visited.insert current, v ∈ visited ∨ v = current :=
          fun v hv => ((hvisit v).mp hv).symm
        split
        · next hnone =>
          have hstuck : ∀ v, ¬ Edge view current v := by
            rintro v ⟨nexts, hn, -⟩
            cases hnone.symm.trans hn
          have hle := unpushed_insert_le view.toList visited current
          refine ih (by unfold pending at *; omega)
            (h.visit (.inr mem_cons_self) (fun v => ?_) hdone) fun v hv => ?_
          · rw [hvisit, mem_cons, or_iff_left (hstuck v), or_assoc, or_left_comm]
          · rcases hdone v hv with hv | rfl
            · exact hsafe v hv
            · exact hstuck target
        · next nexts hn =>
          have hle := pending_insert_of_get hvis hn
          have hedge : ∀ v, Edge view current v ↔ v ∈ nexts := by
            intro v
            simp [Edge, hn]
          split
          · next ht =>
            refine ⟨fun _ => ?_, fun _ => rfl⟩
            obtain ⟨_, rfl, hpath⟩ := h.reached current (.inr mem_cons_self)
            exact .tail' hpath ((hedge target).mpr ht)
          · next ht =>
            refine ih ?_ (h.visit (.inr mem_cons_self) (fun v => ?_) hdone) fun v hv => ?_
            · rw [length_append, length_reverse]
              omega
            · rw [hvisit, hedge, mem_append, mem_reverse, mem_cons]
              tauto
            · rcases hdone v hv with hv | rfl
              · exact hsafe v hv
              · exact fun h => ht ((hedge target).mp h)

theorem reaches_iff (view : BTreeMap α (List α)) (start target : α) :
    reaches view start target = true ↔ ReflTransGen (Edge view) start target := by
  rw [reflTransGen_iff_eq_or_transGen]
  unfold reaches
  split
  · next e => simp [e]
  · next hne =>
    rw [walk_iff start, or_iff_right (Ne.symm hne)]
    · rw [pending_empty, budget, length_singleton]
      omega
    · exact ⟨by simp [ReflTransGen.refl], by simp, by simp⟩
    · simp

/-- A larger graph reaches at least as much. -/
theorem reaches_mono {view view' : BTreeMap α (List α)}
    (h : ∀ (a : α) nexts, view[a]? = some nexts → view'[a]? = some nexts) {start target : α}
    (hr : reaches view start target = true) : reaches view' start target = true := by
  rw [reaches_iff] at hr ⊢
  exact Relation.ReflTransGen.mono (fun _ _ => .mono h) _ _ hr

end Search
