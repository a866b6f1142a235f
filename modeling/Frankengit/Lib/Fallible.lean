/-
Frankengit/Lib/Fallible.lean

Computations that may fail, as `Except`.  The inversion lemmas peel one
bind, guard or return off a successful computation; the loop rules do the
same for `foldlM`: `foldlM_induction` carries an invariant of the consumed
elements through a loop that succeeded, and `foldlM_observe` computes what
a loop over a map that writes one key per turn leaves at each key and shows
that it succeeds; `foldl_observe` is its case for loops that cannot fail.

`Fits room bad x P` is for computations under limits: the answer has `P`, a
failure is for lack of room, and the failure `bad` does not happen.
-/
import Frankengit.Lib.BTree

namespace Fallible

open List Std.ExtTreeMap BTree

universe u

variable {ε : Type*} {α β : Type u}

/-! ### Peeling a successful computation -/

variable {x : Except ε α}

@[simp] theorem bind_eq_ok {g : α → Except ε β} {b : β} :
    x >>= g = .ok b ↔ ∃ a, x = .ok a ∧ g a = .ok b := by
  cases x with
  | error e | ok a => simp [bind, Except.bind]

@[simp] theorem pure_eq_ok {a b : α} : (pure a : Except ε α) = .ok b ↔ a = b :=
  ⟨Except.ok.inj, congrArg _⟩

@[simp] theorem throw_ne_ok {e : ε} {a : α} : ¬ (throw e : Except ε α) = .ok a := nofun

@[simp] theorem map_eq_ok {f : α → β} {b : β} : f <$> x = .ok b ↔ ∃ a, x = .ok a ∧ f a = b := by
  cases x <;> simp [Functor.map, Except.map]

@[simp] theorem mapError_eq_ok {ε' : Type*} {f : ε → ε'} {a : α} :
    x.mapError f = .ok a ↔ x = .ok a := by
  cases x <;> simp [Except.mapError]

theorem exists_ok_of_toOption {f : α → β} {b : β} (h : x.toOption.map f = some b) :
    ∃ a, x = .ok a ∧ f a = b := by
  cases x with
  | error e => cases h
  | ok a => exact ⟨a, rfl, Option.some.inj h⟩

/-- Fail on a condition. -/
def refuseIf (p : Prop) [Decidable p] (e : ε) : Except ε PUnit := if p then .error e else .ok ⟨⟩

@[simp] theorem refuseIf_eq_ok {p : Prop} [Decidable p] {e : ε} {u : PUnit} :
    refuseIf p e = .ok u ↔ ¬ p := by
  unfold refuseIf
  split <;> simp_all

theorem ite_error_eq_ok {p : Prop} [Decidable p] {e : ε} {a : α} :
    (if p then .error e else x) = .ok a ↔ ¬ p ∧ x = .ok a := by
  split <;> simp [*]

/-- A check made under a condition. -/
theorem check_eq_ok {p : Prop} [Decidable p] {x : Except ε PUnit} {k : Except ε α} {a : α} :
    (if p then x >>= fun _ => k else k) = .ok a ↔ (p → x = .ok ⟨⟩) ∧ k = .ok a := by
  by_cases hp : p
  · simp [hp, PUnit.eq_punit]
  · simp [hp]

theorem throwIf_eq_ok {p : Prop} [Decidable p] {e : ε} {k : Except ε α} {a : α} :
    (if p then (throw e : Except ε PUnit) >>= fun _ => k else k) = .ok a ↔ ¬ p ∧ k = .ok a := by
  simp [check_eq_ok]

/-! ### Computations that succeed alike -/

/-- The two succeed with the same answers; failures may differ. -/
def Agree (x y : Except ε α) : Prop := ∀ a, x = .ok a ↔ y = .ok a

variable {f : α → Except ε β}

namespace Agree

variable {x y : Except ε α}

theorem of_eq (h : x = y) : Agree x y := fun _ => by rw [h]

theorem toOption_eq (h : Agree x y) : x.toOption = y.toOption := by
  cases x with
  | ok a => rw [(h a).mp rfl]
  | error e =>
    cases y with
    | ok b => cases (h b).mpr rfl
    | error e' => rfl

theorem bind {g : α → Except ε β} (h : Agree x y) (hfg : ∀ a, Agree (f a) (g a)) :
    Agree (x >>= f) (y >>= g) := by
  intro b
  rw [bind_eq_ok, bind_eq_ok]
  exact exists_congr fun a => and_congr (h a) (hfg a b)

theorem map {f : α → β} (h : Agree x y) : Agree (f <$> x) (f <$> y) := by
  intro b
  rw [map_eq_ok, map_eq_ok]
  exact exists_congr fun a => and_congr_left fun _ => h a

theorem mapError {ε' : Type*} {f g : ε → ε'} : Agree (x.mapError f) (x.mapError g) := by
  intro a
  rw [mapError_eq_ok, mapError_eq_ok]

theorem error {e e' : ε} : Agree (.error e : Except ε α) (.error e') := fun _ => ⟨nofun, nofun⟩

end Agree

/-- Where one succeeds the other does, with a related answer. -/
def Simulates (R : α → β → Prop) (x : Except ε α) (y : Except ε β) : Prop :=
  ∀ a, x = .ok a → ∃ b, y = .ok b ∧ R a b

namespace Simulates

variable {γ δ : Type u} {R : α → β → Prop} {Q : γ → δ → Prop} {y : Except ε β} {p q : Prop}
  [Decidable p] [Decidable q]

theorem pure {a : α} {b : β} (h : R a b) : Simulates R (pure a : Except ε α) (pure b) := by
  rintro _ ⟨⟩
  exact ⟨b, rfl, h⟩

theorem bind {f : α → Except ε γ} {g : β → Except ε δ} (h : Simulates R x y)
    (hfg : ∀ a b, R a b → Simulates Q (f a) (g b)) : Simulates Q (x >>= f) (y >>= g) := by
  intro c hc
  obtain ⟨a, ha, hc⟩ := bind_eq_ok.mp hc
  obtain ⟨b, hb, hab⟩ := h a ha
  obtain ⟨d, hd, hcd⟩ := hfg a b hab c hc
  exact ⟨d, bind_eq_ok.mpr ⟨b, hb, hd⟩, hcd⟩

/-- Two computations that do not see each other, in the other order. -/
theorem comm {f : α → β → Except ε γ} {g : β → α → Except ε δ}
    (h : ∀ a b, x = .ok a → y = .ok b → Simulates Q (f a b) (g b a)) :
    Simulates Q (x >>= fun a => y >>= f a) (y >>= fun b => x >>= g b) := by
  intro c hc
  obtain ⟨a, ha, hc⟩ := bind_eq_ok.mp hc
  obtain ⟨b, hb, hc⟩ := bind_eq_ok.mp hc
  obtain ⟨d, hd, hcd⟩ := h a b ha hb c hc
  exact ⟨d, bind_eq_ok.mpr ⟨b, hb, bind_eq_ok.mpr ⟨a, ha, hd⟩⟩, hcd⟩

theorem ite {x' : Except ε α} {y' : Except ε β} (hpq : p ↔ q) (hpos : p → Simulates R x y)
    (hneg : ¬ p → Simulates R x' y') : Simulates R (if p then x else x') (if q then y else y') := by
  by_cases hp : p
  · rw [if_pos hp, if_pos (hpq.mp hp)]
    exact hpos hp
  · rw [if_neg hp, if_neg (mt hpq.mpr hp)]
    exact hneg hp

theorem refuseIf {e e' : ε} (hpq : q → p) :
    Simulates (fun _ _ => True) (refuseIf p e) (refuseIf q e') := by
  intro _ h
  rw [refuseIf_eq_ok] at h
  exact ⟨⟨⟩, refuseIf_eq_ok.mpr (mt hpq h), trivial⟩

end Simulates

/-! ### Loops that succeeded -/

theorem foldlM_cons_ok {ι : Type*} {f : α → ι → Except ε α} {x : ι} {xs : List ι} {s t : α} :
    (x :: xs).foldlM f s = .ok t ↔ ∃ m, f s x = .ok m ∧ xs.foldlM f m = .ok t := by
  rw [foldlM_cons, bind_eq_ok]

/-- An invariant of the consumed elements and the state they lead to holds
at the end of a loop that succeeded. -/
theorem foldlM_induction {ι : Type*} {f : α → ι → Except ε α} {P : List ι → α → Prop}
    {xs : List ι} {s t : α} (h : xs.foldlM f s = .ok t) (init : P [] s)
    (step : ∀ done x a b, x ∈ xs → P done a → f a x = .ok b → P (done ++ [x]) b) : P xs t := by
  -- generalise over the elements already consumed
  suffices aux : ∀ (rest done : List ι) (a : α), (∀ x ∈ rest, x ∈ xs) → P done a →
      rest.foldlM f a = .ok t → P (done ++ rest) t by
    simpa using aux xs [] s (fun _ hx => hx) init h
  intro rest
  induction rest with
  | nil =>
    intro done a _ hP hrun
    rw [foldlM_nil, pure_eq_ok] at hrun
    simpa [← hrun] using hP
  | cons x rest ih =>
    intro done a hmem hP hrun
    obtain ⟨m, hx, hrest⟩ := foldlM_cons_ok.mp hrun
    have hm := step done x a m (hmem x (by simp)) hP hx
    have := ih (done ++ [x]) m (fun y hy => hmem y (by simp [hy])) hm hrest
    simpa using this

/-- A loop of checks succeeds when every check does. -/
theorem forM_eq_ok {ι : Type*} {f : ι → Except ε PUnit} (xs : List ι) :
    xs.forM f = .ok ⟨⟩ ↔ ∀ x ∈ xs, f x = .ok ⟨⟩ := by
  induction xs with
  | nil => simp [List.forM, pure, Except.pure]
  | cons x xs ih =>
    have hstep : (x :: xs).forM f = f x >>= fun _ => xs.forM f := rfl
    simp [hstep, ← ih, PUnit.eq_punit]

theorem mapM_cons_ok {x : α} {xs : List α} {ys : List β} :
    (x :: xs).mapM f = .ok ys ↔ ∃ y rest, f x = .ok y ∧ xs.mapM f = .ok rest ∧ y :: rest = ys := by
  simp [mapM_cons]

/-- Every element of a mapped list has an image. -/
theorem mapM_ok_forall {xs : List α} {ys : List β} (h : xs.mapM f = .ok ys) :
    ∀ y ∈ ys, ∃ x ∈ xs, f x = .ok y := by
  induction xs generalizing ys with
  | nil =>
    rw [mapM_nil, pure_eq_ok] at h
    simp [← h]
  | cons x xs ih =>
    obtain ⟨y, rest, hy, hrest, rfl⟩ := mapM_cons_ok.mp h
    refine forall_mem_cons.mpr ⟨⟨x, by simp, hy⟩, fun z hz => ?_⟩
    obtain ⟨w, hw, hfw⟩ := ih hrest z hz
    exact ⟨w, by simp [hw], hfw⟩

/-- A function that succeeds where a partial one is defined collects its values. -/
theorem mapM_eq_ok_iff {g : α → Option β} (hf : ∀ x y, f x = .ok y ↔ g x = some y) {xs : List α}
    {ys : List β} : xs.mapM f = .ok ys ↔ (∀ x ∈ xs, g x ≠ none) ∧ xs.filterMap g = ys := by
  induction xs generalizing ys with
  | nil => simp [pure_eq_ok]
  | cons x xs ih =>
    simp only [mapM_cons_ok, hf, ih, forall_mem_cons]
    cases hx : g x with
    | none => simp
    | some y => simp [hx]

/-! ### Loops over a map that write one key per turn -/

variable {K V O : Type*} {S : Type u} [LinearOrder K]

section Observe

variable (obs : S → K → O) (upd : S → K → V → Except ε S) (good : K → V → O → Prop)
  (g : K → V → O → O) (hupd : ∀ s k v, good k v (obs s k) → ∃ s', upd s k v = .ok s' ∧
    ∀ a, obs s' a = if k = a then g a v (obs s a) else obs s a)
include hupd

/-- A loop over entries with distinct keys succeeds when every entry is good at
its own key, and changes the observation at its key only. -/
theorem list_foldlM_observe {l : List (K × V)} (hl : l.Pairwise fun x y => x.1 ≠ y.1) (s : S)
    (hgood : ∀ e ∈ l, good e.1 e.2 (obs s e.1)) :
    ∃ s', l.foldlM (fun s e => upd s e.1 e.2) s = .ok s' ∧
      (∀ a v, (a, v) ∈ l → obs s' a = g a v (obs s a)) ∧
      ∀ a, (∀ v, (a, v) ∉ l) → obs s' a = obs s a := by
  induction l generalizing s with
  | nil => exact ⟨s, rfl, by simp, by simp⟩
  | cons e rest ih =>
    obtain ⟨hhead, hrest⟩ := pairwise_cons.mp hl
    obtain ⟨m, hm, hobs⟩ := hupd s e.1 e.2 (hgood e (by simp))
    obtain ⟨s', hs', hin, hout⟩ := ih hrest m fun x hx => by
      rw [hobs, if_neg (hhead x hx)]
      exact hgood x (by simp [hx])
    refine ⟨s', foldlM_cons_ok.mpr ⟨m, hm, hs'⟩, fun a v hmem => ?_, fun a hnot => ?_⟩
    · rcases mem_cons.mp hmem with rfl | hmem
      · -- the key is written now and never again
        rw [hout a fun v' hv' => hhead _ hv' rfl, hobs, if_pos rfl]
      · rw [hin a v hmem, hobs, if_neg (hhead _ hmem)]
    · rw [hout a fun v hv => hnot v (by simp [hv]), hobs, if_neg]
      exact fun heq => hnot e.2 (by simp [← heq])

/-- A loop over a map leaves at a key the entry's own update where the map has
an entry, nothing elsewhere. -/
theorem foldlM_observe (t : BTreeMap K V) (s : S)
    (hgood : ∀ (k : K) v, t[k]? = some v → good k v (obs s k)) :
    ∃ s', t.toList.foldlM (fun s e => upd s e.1 e.2) s = .ok s' ∧
      ∀ a, obs s' a = (t[a]?).elim (obs s a) fun v => g a v (obs s a) := by
  obtain ⟨s', hs', hin, hout⟩ := list_foldlM_observe obs upd good g hupd
    (toList_pairwise_ne t) s fun e he =>
      hgood e.1 e.2 (mem_toList_iff_getElem?_eq_some.mp he)
  refine ⟨s', hs', fun a => ?_⟩
  cases e : t[a]? with
  | none =>
    refine hout a fun v hv => ?_
    rw [mem_toList_iff_getElem?_eq_some, e] at hv
    cases hv
  | some v => exact hin a v (mem_toList_iff_getElem?_eq_some.mpr e)

end Observe

section Pure

variable {W : Type*} (obs : S → K → O)

/-- The same for a loop that cannot fail. -/
theorem foldl_observe (upd : S → K → V → S) (g : K → V → O → O)
    (h : ∀ s k v a, obs (upd s k v) a = if k = a then g a v (obs s a) else obs s a)
    (t : BTreeMap K V) (s : S) (a : K) :
    obs (t.foldl upd s) a = (t[a]?).elim (obs s a) fun v => g a v (obs s a) := by
  obtain ⟨s', hs', hobs⟩ := foldlM_observe obs (fun s k v => (pure (upd s k v) : Except Unit S))
    (fun _ _ _ => True) g (fun s k v _ => ⟨_, rfl, h s k v⟩) t s fun _ _ _ => trivial
  rw [foldlM_pure, pure_eq_ok] at hs'
  rw [foldl_eq_foldl_toList, hs', hobs]

/-- The same for a loop over a set. -/
theorem foldl_observe_set (upd : S → K → S) (g : K → O → O)
    (h : ∀ s k a, obs (upd s k) a = if k = a then g a (obs s a) else obs s a) (t : BTreeSet K)
    (s : S) (a : K) : obs (t.foldl upd s) a = if a ∈ t then g a (obs s a) else obs s a := by
  have hne : (t.toList.map fun k => (k, ())).Pairwise fun x y => x.1 ≠ y.1 := by
    rw [pairwise_map]
    simpa only [compare_eq_iff_eq] using t.distinct_toList
  obtain ⟨s', hs', hin, hout⟩ := list_foldlM_observe obs
    (fun s k (_ : Unit) => (pure (upd s k) : Except Unit S)) (fun _ _ _ => True) (fun a _ => g a)
    (fun s k _ _ => ⟨_, rfl, h s k⟩) hne s fun _ _ => trivial
  rw [foldlM_map, foldlM_pure, pure_eq_ok] at hs'
  rw [Std.ExtTreeSet.foldl_eq_foldl_toList, hs']
  split
  · next ha => exact hin a () (by simpa using ha)
  · next ha => exact hout a fun v hv => ha (by simpa using hv)

/-- A loop that records every entry a test selects. -/
theorem get_foldl_insert (p : K → V → Prop) [∀ k v, Decidable (p k v)] (w : K → V → W)
    (t : BTreeMap K V) (m : BTreeMap K W) (a : K) :
    (t.foldl (fun acc k v => if p k v then acc.insert k (w k v) else acc) m)[a]?
      = (t[a]?).elim m[a]? fun v => if p a v then some (w a v) else m[a]? := by
  refine foldl_observe (fun (m : BTreeMap K W) k => m[k]?) _
    (fun k v seen => if p k v then some (w k v) else seen) (fun acc k v b => ?_) t m a
  by_cases hk : k = b
  · subst hk
    split <;> simp
  · split <;> simp [get_insert, hk]

/-- The same for a loop over a set. -/
theorem get_foldl_insert_set (p : K → Prop) [DecidablePred p] (w : K → W)
    (t : BTreeSet K) (m : BTreeMap K W) (a : K) :
    (t.foldl (fun acc k => if p k then acc.insert k (w k) else acc) m)[a]?
      = if a ∈ t ∧ p a then some (w a) else m[a]? := by
  rw [foldl_observe_set (fun (m : BTreeMap K W) k => m[k]?) _
    (fun k seen => if p k then some (w k) else seen)]
  · by_cases ha : a ∈ t <;> simp [ha]
  · intro acc k b
    by_cases hk : k = b
    · subst hk
      split <;> simp
    · split <;> simp [get_insert, hk]

end Pure

/-! ### Limits -/

/-- The answer has the property.  A failure is for lack of room, and not the
bad one. -/
def Fits (room : Prop) (bad : ε) (x : Except ε α) (P : α → Prop) : Prop :=
  match x with
  | .ok a => P a
  | .error e => e ≠ bad ∧ ¬ room

namespace Fits

variable {room : Prop} {bad : ε} {x : Except ε α} {P : α → Prop}

theorem bind {Q : β → Prop} (hx : Fits room bad x P) (hf : ∀ a, P a → Fits room bad (f a) Q) :
    Fits room bad (x >>= f) Q := by
  cases x with
  | error e => exact hx
  | ok a => exact hf a hx

theorem mono {Q : α → Prop} (hx : Fits room bad x P) (h : ∀ a, P a → Q a) : Fits room bad x Q := by
  cases x with
  | error e => exact hx
  | ok a => exact h a hx

/-- A guard that room keeps open. -/
theorem ite {p : Prop} [Decidable p] {e : ε} (he : e ≠ bad) (hroom : room → ¬ p)
    (hx : ¬ p → Fits room bad x P) : Fits room bad (if p then .error e else x) P := by
  by_cases hp : p
  · rw [if_pos hp]
    exact ⟨he, fun h => hroom h hp⟩
  · rw [if_neg hp]
    exact hx hp

theorem refuseIf_bind {p : Prop} [Decidable p] {e : ε} (he : e ≠ bad) (hroom : room → ¬ p)
    {f : PUnit → Except ε α} (hf : Fits room bad (f ⟨⟩) P) : Fits room bad (refuseIf p e >>= f) P :=
  bind (P := fun _ => True) (ite he hroom fun _ => trivial) fun _ _ => hf

/-- A guard that is open. -/
theorem passes {p : Prop} [Decidable p] {e : ε} (hp : ¬ p) (hx : Fits room bad x P) :
    Fits room bad (if p then .error e else x) P := by
  rw [if_neg hp]
  exact hx

theorem answer (h : Fits room bad x P) {a : α} (ha : x = .ok a) : P a := by
  subst ha
  exact h

theorem ne_bad (h : Fits room bad x P) : x ≠ .error bad := by
  rintro rfl
  exact h.1 rfl

theorem exists_ok (h : Fits room bad x P) (hroom : room) : ∃ a, x = .ok a := by
  cases x with
  | error e => exact absurd hroom h.2
  | ok a => exact ⟨a, rfl⟩

end Fits

end Fallible
