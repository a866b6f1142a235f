/-
Frankengit/Lib/Tokens.lean

Owned tokens and the registry that issued them.  The registry has a value for
every key it knows; the owner of a handle holds a key and the value it believes
the key to have.  `Tracked` says that no belief is wrong and that no key is held
twice; the rules say how a token is consumed, revalued and issued.
-/
import Mathlib.Logic.Function.Basic

namespace Tokens

open Function

variable {K V H : Type*} [DecidableEq H]

structure Tracked (registry : K → Option V) (owned : H → Option (K × V)) : Prop where
  registered : ∀ h k v, owned h = some (k, v) → registry k = some v
  apart : ∀ h h' k v v', owned h = some (k, v) → owned h' = some (k, v') → h = h'

namespace Tracked

variable {registry : K → Option V} {owned : H → Option (K × V)} {h : H} {k : K} {v : V}

/-- A token is thrown away. -/
theorem discard (ht : Tracked registry owned) (h : H) :
    Tracked registry (update owned h none) := by
  have hsub : ∀ h' t, update owned h none h' = some t → owned h' = some t := by
    intro h' t hown
    rw [update_apply] at hown
    split at hown
    · cases hown
    · exact hown
  exact ⟨fun h' k v hown => ht.registered h' k v (hsub h' _ hown),
    fun h₁ h₂ k v v' h1 h2 => ht.apart h₁ h₂ k v v' (hsub h₁ _ h1) (hsub h₂ _ h2)⟩

variable [DecidableEq K] {x : Option V} (ht : Tracked registry owned)

include ht

/-- A handle gets a token of a key that no other handle owns, or none; the
registry may say anything about that key. -/
theorem place {token : Option (K × V)} (halone : ∀ h' v', h' ≠ h → owned h' ≠ some (k, v'))
    (htoken : ∀ t ∈ token, t.1 = k ∧ x = some t.2) :
    Tracked (update registry k x) (update owned h token) := by
  refine ⟨fun h₁ k₁ v₁ h1 => ?_, fun h₁ h₂ k₁ v₁ v₂ h1 h2 => ?_⟩
  · rw [update_apply] at h1
    split at h1
    · obtain ⟨rfl, hx⟩ := htoken _ h1
      rw [update_self, hx]
    · next hne =>
      have hk : k₁ ≠ k := fun heq => halone h₁ v₁ hne (heq ▸ h1)
      rw [update_of_ne hk]
      exact ht.registered h₁ k₁ v₁ h1
  · rw [update_apply] at h1 h2
    split at h1 <;> split at h2
    · next e₁ e₂ => rw [e₁, e₂]
    · next hne =>
      obtain ⟨rfl, -⟩ := htoken _ h1
      exact absurd h2 (halone h₂ v₂ hne)
    · next hne _ =>
      obtain ⟨rfl, -⟩ := htoken _ h2
      exact absurd h1 (halone h₁ v₁ hne)
    · exact ht.apart _ _ _ _ _ h1 h2

/-- A token is used up. -/
theorem consume (hown : owned h = some (k, v)) :
    Tracked (update registry k x) (update owned h none) :=
  ht.place (fun _ u hne hown' => hne (ht.apart _ _ k u v hown' hown)) nofun

/-- The owner and the registry change the value together. -/
theorem revalue (hown : owned h = some (k, v)) (v' : V) :
    Tracked (update registry k (some v')) (update owned h (some (k, v'))) :=
  ht.place (fun _ u hne hown' => hne (ht.apart _ _ k u v hown' hown)) (by simp)

/-- A new key is registered and given to an owner. -/
theorem issue (hnew : registry k = none) (v : V) (h : H) :
    Tracked (update registry k (some v)) (update owned h (some (k, v))) := by
  refine ht.place (fun _ _ _ hown => ?_) (by simp)
  rw [ht.registered _ _ _ hown] at hnew
  cases hnew

end Tracked

end Tokens
