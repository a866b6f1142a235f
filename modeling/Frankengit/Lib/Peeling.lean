/-
Frankengit/Lib/Peeling.lean

Core numbers by peeling.  A set is a `k`-core if each of its members has `k`
neighbours in it, and the core number of a node is the greatest `k` with a
`k`-core around it.

Peeling takes a node of least degree again and again and lowers its neighbours,
but none below the degree it took.  The degrees it works with are those among
the nodes left, held up at the last degree taken (`Peeled`); whichever node of
least degree is taken, that degree is its core number (`Peeled.isGreatest`).
-/
import Mathlib.Data.Finset.Card
import Mathlib.Order.Bounds.Basic

namespace Peeling

variable {α : Type*} [DecidableEq α]

/-- Each member has `k` neighbours in the set. -/
def Core (near : α → Finset α) (k : ℕ) (s : Finset α) : Prop := ∀ v ∈ s, k ≤ (near v ∩ s).card

/-- The cores that a node is in. -/
def coresOf (near : α → Finset α) (nodes : Finset α) (v : α) : Set ℕ :=
  {k | ∃ s ⊆ nodes, v ∈ s ∧ Core near k s}

/-- The nodes left, their degrees and the last degree taken. -/
structure Peeled (near : α → Finset α) (nodes left : Finset α) (degree : α → ℕ) (level : ℕ) :
    Prop where
  degree_eq : ∀ v ∈ left, degree v = max (near v ∩ left).card level
  /-- What is left is in a core of that level. -/
  inside : ∃ s ⊆ nodes, left ⊆ s ∧ Core near level s
  /-- A higher core has lost nothing. -/
  above : ∀ k, ∀ s ⊆ nodes, Core near k s → s ⊆ left ∨ k ≤ level

variable {near : α → Finset α} {nodes left : Finset α} {degree degree' : α → ℕ} {level : ℕ} {v : α}

theorem peeled_start (hdeg : ∀ v ∈ nodes, near v ⊆ nodes ∧ degree v = (near v).card) :
    Peeled near nodes nodes degree 0 where
  degree_eq v hv := by
    obtain ⟨hsub, hdeg⟩ := hdeg v hv
    rw [hdeg, Finset.inter_eq_left.mpr hsub, Nat.max_zero]
  inside := ⟨nodes, subset_rfl, subset_rfl, fun _ _ => Nat.zero_le _⟩
  above _ _ hs _ := .inl hs

namespace Peeled

variable (h : Peeled near nodes left degree level)

include h

/-- The least degree is the level of a core around what is left. -/
theorem core_least (hsub : left ⊆ nodes) (hv : v ∈ left)
    (hleast : ∀ u ∈ left, degree v ≤ degree u) :
    ∃ s ⊆ nodes, left ⊆ s ∧ Core near (degree v) s := by
  rcases eq_or_lt_of_le (h.degree_eq v hv ▸ le_max_right _ _ : level ≤ degree v) with heq | hlt
  · exact heq ▸ h.inside
  · refine ⟨left, hsub, subset_rfl, fun u hu => ?_⟩
    have hu' := hleast u hu
    rw [h.degree_eq u hu] at hu'
    exact (le_max_iff.mp hu').resolve_right (not_le.mpr hlt)

/-- A core around the node taken is not above its degree. -/
theorem le_degree (hv : v ∈ left) {k : ℕ} {s : Finset α}
    (hs : s ⊆ nodes) (hmem : v ∈ s) (hcore : Core near k s) : k ≤ degree v := by
  rw [h.degree_eq v hv, le_max_iff]
  refine (h.above k s hs hcore).imp_left fun hleft => ?_
  exact (hcore v hmem).trans (Finset.card_le_card (Finset.inter_subset_inter_left hleft))

/-- **The degree that is taken is the core number of its node.** -/
theorem isGreatest (hsub : left ⊆ nodes) (hv : v ∈ left)
    (hleast : ∀ u ∈ left, degree v ≤ degree u) : IsGreatest (coresOf near nodes v) (degree v) := by
  obtain ⟨s, hs, hleft, hcore⟩ := h.core_least hsub hv hleast
  refine ⟨⟨s, hs, hleft hv, hcore⟩, ?_⟩
  rintro k ⟨t, ht, hmem, hk⟩
  exact h.le_degree hv ht hmem hk

theorem step (hsub : left ⊆ nodes) (hsymm : ∀ u, u ∈ near v ↔ v ∈ near u) (hv : v ∈ left)
    (hleast : ∀ u ∈ left, degree v ≤ degree u) (hdeg : ∀ u ∈ left.erase v,
      degree' u = if u ∈ near v ∧ degree v < degree u then degree u - 1 else degree u) :
    Peeled near nodes (left.erase v) degree' (degree v) where
  degree_eq u hu := by
    have hleft := Finset.mem_of_mem_erase hu
    have hu' := h.degree_eq u hleft
    have hle := hleast u hleft
    have hlevel : level ≤ degree v := h.degree_eq v hv ▸ le_max_right _ _
    rw [hdeg u hu, Finset.inter_erase, Finset.card_erase_eq_ite]
    simp only [Finset.mem_inter, hsymm u, hv, and_true]
    by_cases hnear : v ∈ near u
    · have hpos : 0 < (near u ∩ left).card :=
        Finset.card_pos.mpr ⟨v, Finset.mem_inter.mpr ⟨hnear, hv⟩⟩
      simp only [hnear, true_and, if_true]
      split <;> omega
    · simp only [hnear, false_and, if_false]
      omega
  inside := by
    obtain ⟨s, hs, hleft, hcore⟩ := h.core_least hsub hv hleast
    exact ⟨s, hs, (Finset.erase_subset _ _).trans hleft, hcore⟩
  above k s hs hcore := by
    by_cases hmem : v ∈ s
    · exact .inr (h.le_degree hv hs hmem hcore)
    · refine (h.above k s hs hcore).imp (Finset.subset_erase.mpr ⟨·, hmem⟩) fun hle => ?_
      exact hle.trans (h.degree_eq v hv ▸ le_max_right _ _)

end Peeled

end Peeling
