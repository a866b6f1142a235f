/-
Frankengit/Reference/HeadChain.lean

The chain of authority heads.

Two transitions move the head: the compare-and-swap that installs a staged
batch and the configuration transition.  Each of them links a new body onto
the head it replaces (`LinksHead`), one generation further, and only the
second changes the policy epoch, by one.  `run_links` recovers that step for
every body of the chain, and from it follow the predecessor walk down to
genesis (`chain_descends`) and the source's own check
(`walkHeadChain_of_descends`).
-/
import Frankengit.Reference.History

namespace Frankengit.Reference

open Fallible RepositoryState Option

theorem nextOr_eq_ok {kind : CounterKind} {label : String} {c d : Counter kind} :
    nextOr label c = .ok d ↔ c.next = some d := by
  unfold nextOr
  cases c.next with
  | none | some e => simp

/-! ### Links -/

/-- How a step that links a new head changes the policy epoch. -/
def EpochLink (before after : PolicyEpoch) : ModelInput → Prop
  | .publishConfiguration _ => before.next = some after
  | .compareAndSwap _ => after = before
  | _ => False

/-- The input `i`, given to `before`, linked `head` onto the current head. -/
structure LinksHead (before : RepositoryState) (i : ModelInput) (head : AuthorityHead) :
    Prop where
  installed : (next before i).head = head
  predecessor : head.body.predecessor = some before.head.id
  generation : before.head.body.generation.next = some head.body.generation
  epoch : EpochLink before.head.body.configuration.epoch head.body.configuration.epoch i

/-- `Descends chain n id root`: `n` predecessor links lead from `id` to
`root`, each of them one generation down. -/
inductive Descends (chain : BTreeMap RepositoryAuthorityHeadId AuthorityHeadBody) :
    ℕ → RepositoryAuthorityHeadId → RepositoryAuthorityHeadId → Prop
  | here (id : RepositoryAuthorityHeadId) : Descends chain 0 id id
  | link {n : ℕ} {id predecessor root : RepositoryAuthorityHeadId}
      {body previous : AuthorityHeadBody} (hbody : chain[id]? = some body)
      (hpred : body.predecessor = some predecessor)
      (hprev : chain[predecessor]? = some previous)
      (hgen : previous.generation.next = some body.generation)
      (rest : Descends chain n predecessor root) : Descends chain (n + 1) id root

/-- The source's walk ends at the root the links lead to and counts them. -/
theorem walkHeadChain_of_descends
    {chain : BTreeMap RepositoryAuthorityHeadId AuthorityHeadBody} {n : ℕ}
    {id root : RepositoryAuthorityHeadId} {rootBody : AuthorityHeadBody}
    (h : Descends chain n id root) (hroot : chain[root]? = some rootBody)
    (hlast : rootBody.predecessor = none) :
    ∀ {body : AuthorityHeadBody}, chain[id]? = some body → ∀ {fuel : ℕ}, n ≤ fuel → ∀ steps,
      walkHeadChain chain fuel body steps = .ok (rootBody, steps + n) := by
  induction h with
  | here id =>
    intro body hbody fuel _ steps
    rw [hroot, some.injEq] at hbody
    subst hbody
    cases fuel with
    | zero => rfl
    | succ fuel => rw [walkHeadChain, hlast]; rfl
  | @link n id predecessor root found previous hfound hpred hprev hgen rest ih =>
    intro body hbody fuel hfuel steps
    rw [hfound, some.injEq] at hbody
    subst hbody
    obtain ⟨fuel, rfl⟩ : ∃ m, fuel = m + 1 := ⟨fuel - 1, by omega⟩
    have hnext : nextOr "generation" previous.generation = .ok found.generation :=
      nextOr_eq_ok.mpr hgen
    have hrest := ih hroot hprev (Nat.le_of_succ_le_succ hfuel) (steps + 1)
    simp only [walkHeadChain, hpred, hprev, hnext]
    rw [show steps + (n + 1) = steps + 1 + n by omega, ← hrest]
    simp [bind, Except.bind]

variable (inputs : List ModelInput)

section Runs

variable {configuration : GenesisConfiguration}

/-! ### One step -/

/-- A step of a run leaves head and chain alone or links a new head. -/
theorem next_links (configuration : GenesisConfiguration) (inputs : List ModelInput)
    (i : ModelInput) :
    let s := run configuration inputs
    ((next s i).head = s.head ∧ (next s i).headChain = s.headChain) ∨
      (LinksHead s i (next s i).head ∧ (next s i).headChain
          = s.headChain.insert (next s i).head.id (next s i).head.body) := by
  intro s
  have hmove := next_moves s i
  generalize hafter : next s i = s' at hmove
  cases hmove with
  | stays | sealed | quarantined | prepared | staged | cancelled => exact .inl ⟨rfl, rfl⟩
  | configured input generation identities hexp hepoch hnext hspend =>
    refine .inr ⟨⟨?_, rfl, nextOr_eq_ok.mp hnext, nextOr_eq_ok.mp hepoch⟩, rfl⟩
    rw [hafter]
  | swapped input x guards =>
    obtain ⟨before, request, -, ⟨attempt⟩, hhead⟩ := swap_staged_here guards
    rw [installBatch_eq] at hafter ⊢
    refine .inr ⟨⟨by rw [hafter], guards.predecessor, nextOr_eq_ok.mp guards.generation, ?_⟩, rfl⟩
    -- the candidate carries the configuration of the head it was staged on
    show x.candidateHead.body.configuration.epoch = _
    rw [attempt.candidateHead_eq.2.2.1, hhead]

/-! ### Whole runs -/

/-- Every body of the chain is the genesis body or was linked by a step of
the run. -/
def ChainLinked (configuration : GenesisConfiguration) (inputs : List ModelInput)
    (s : RepositoryState) : Prop :=
  ∀ (id : RepositoryAuthorityHeadId) body, s.headChain[id]? = some body →
    (id = configuration.genesisHeadId ∧ body = genesisBody configuration) ∨
      ∃ before i, Took configuration inputs before i ∧ LinksHead before i ⟨id, body⟩

theorem run_links : ChainLinked configuration inputs (run configuration inputs) := by
  refine run_history (P := ChainLinked configuration) ?_ (fun done i ih id body hbody => ?_) inputs
  · intro id body hbody
    simp only [genesis, BTree.get_insert] at hbody
    split at hbody
    · next e => exact .inl ⟨e.symm, (some.inj hbody).symm⟩
    · simp at hbody
  · have hold : ChainLinked configuration (done ++ [i]) (run configuration done) := by
      intro id body h
      obtain hgenesis | ⟨before, j, htook, hlinks⟩ := ih id body h
      · exact .inl hgenesis
      · exact .inr ⟨before, j, htook.append [i], hlinks⟩
    obtain ⟨-, hsame⟩ | ⟨hlinks, hchain⟩ := next_links configuration done i
    · exact hold id body (hsame ▸ hbody)
    · rw [hchain] at hbody
      obtain ⟨rfl, rfl⟩ | ⟨-, hbody⟩ := BTree.get_insert_some hbody
      · exact .inr ⟨_, i, Run.Happened.last done i, hlinks⟩
      · exact hold id body hbody

theorem genesis_persists : (run configuration inputs).headChain[configuration.genesisHeadId]?
      = some (genesisBody configuration) := by
  have h := headChain_persists configuration [] inputs
  refine h _ _ ?_
  show (genesis configuration).headChain[configuration.genesisHeadId]? = _
  simp [genesis]

/-- From every body of the chain the links lead down to genesis, in as many
steps as its generation says. -/
theorem chain_descends : ∀ n (id : RepositoryAuthorityHeadId) (body : AuthorityHeadBody),
      body.generation.val = n + 1 → (run configuration inputs).headChain[id]? = some body →
      Descends (run configuration inputs).headChain n id configuration.genesisHeadId := by
  intro n
  induction n with
  | zero =>
    intro id body hgen hbody
    obtain ⟨rfl, -⟩ | ⟨before, i, -, hlinks⟩ := run_links inputs id body hbody
    · exact .here _
    · -- a linked body is above the first generation
      have hnext := (Counter.next_eq_some ..).mp hlinks.generation
      have hpos := before.head.body.generation.pos
      simp only at hnext
      omega
  | succ n ih =>
    intro id body hgen hbody
    obtain ⟨-, rfl⟩ | ⟨before, i, htook, hlinks⟩ := run_links inputs id body hbody
    · simp [genesisBody, Counter.first] at hgen
    · have hprev := htook.chainExtends _ _ htook.headsFresh.current
      have hnext := (Counter.next_eq_some ..).mp hlinks.generation
      simp only at hnext
      exact .link hbody hlinks.predecessor hprev hlinks.generation (ih _ _ (by omega) hprev)

end Runs

/-- **The head chain is continuous in every reached state.**  The check of
the source succeeds; the links lead from the head to the genesis head in
`generation - 1` steps, one generation down each; whatever head was ever
published, and whatever body the chain ever held, is still in it; every
step keeps the head or links a new one; and every body but the genesis one
was linked by a step of the run, where the configuration transition moves
the policy epoch by one and the compare-and-swap keeps it. -/
theorem head_chain_continuous (configuration : GenesisConfiguration) (inputs : List ModelInput) :
    let s := run configuration inputs
    s.assertHeadChainContinuous = .ok () ∧
    (s.headChain[s.head.id]? = some s.head.body ∧
      s.headChain[configuration.genesisHeadId]? = some (RepositoryState.genesisBody configuration) ∧
      Descends s.headChain (s.head.body.generation.val - 1) s.head.id
        configuration.genesisHeadId) ∧
    (∀ done rest, inputs = done ++ rest →
      s.headChain[(run configuration done).head.id]? = some (run configuration done).head.body ∧
      ∀ (id : RepositoryAuthorityHeadId) body,
        (run configuration done).headChain[id]? = some body → s.headChain[id]? = some body) ∧
    (∀ before i, Took configuration inputs before i →
      (next before i).head = before.head ∨ LinksHead before i (next before i).head) ∧
    (∀ (id : RepositoryAuthorityHeadId) body, s.headChain[id]? = some body →
      (id = configuration.genesisHeadId ∧ body = RepositoryState.genesisBody configuration) ∨
        ∃ before i, Took configuration inputs before i ∧ LinksHead before i ⟨id, body⟩) := by
  intro s
  have hcur := (run_headsFresh configuration inputs).current
  have hpos := s.head.body.generation.pos
  have hdescends : Descends s.headChain (s.head.body.generation.val - 1) s.head.id
      configuration.genesisHeadId :=
    chain_descends inputs _ _ s.head.body (by omega) hcur
  refine ⟨?_, ⟨hcur, genesis_persists inputs, hdescends⟩, ?_, ?_, run_links inputs⟩
  · have hwalk := walkHeadChain_of_descends hdescends (genesis_persists inputs) rfl hcur
      (Nat.sub_le s.head.body.generation.val 1) 0
    unfold assertHeadChainContinuous
    rw [hwalk]
    have hsteps : s.head.body.generation.val - 1 + 1 = s.head.body.generation.val := by omega
    simp [bind, Except.bind, hsteps, genesisBody]
  · rintro done rest rfl
    have hpersists := headChain_persists configuration done rest
    exact ⟨hpersists _ _ (run_headsFresh configuration done).current, hpersists⟩
  · intro before i htook
    obtain ⟨done, rest, -, rfl⟩ := htook.exists_run
    exact (next_links configuration done i).imp And.left And.left

/-! ### No fork -/

section Linear

variable {chain chain' : BTreeMap RepositoryAuthorityHeadId AuthorityHeadBody} {n : ℕ}
  {id root root' : RepositoryAuthorityHeadId} {body rootBody : AuthorityHeadBody}

theorem Descends.mono (hmono : ∀ (id : RepositoryAuthorityHeadId) body, chain[id]? = some body →
      chain'[id]? = some body) (h : Descends chain n id root) : Descends chain' n id root := by
  induction h with
  | here id => exact .here id
  | link hbody hpred hprev hgen _ ih =>
    exact .link (hmono _ _ hbody) hpred (hmono _ _ hprev) hgen ih

/-- Links count the generations between their ends. -/
theorem Descends.generation (h : Descends chain n id root) (hroot : chain[root]? = some rootBody)
    (hbody : chain[id]? = some body) : body.generation.val = rootBody.generation.val + n := by
  induction h generalizing body with
  | here id =>
    rw [hroot, some.injEq] at hbody
    rw [hbody, Nat.add_zero]
  | link hfound _ hprev hgen _ ih =>
    rw [hfound, some.injEq] at hbody
    have hnext := (Counter.next_eq_some ..).mp hgen
    have hrest := ih hroot hprev
    rw [← hbody]
    omega

theorem Descends.unique (h : Descends chain n id root) (h' : Descends chain n id root') :
    root = root' := by
  induction h with
  | here id =>
    cases h'
    rfl
  | link hbody hpred _ _ _ ih =>
    cases h' with
    | link hbody' hpred' _ _ rest' =>
      rw [hbody, some.injEq] at hbody'
      rw [← hbody', hpred, some.injEq] at hpred'
      exact ih (hpred' ▸ rest')

end Linear

/-- The head descends from every published head. -/
def HeadsDescend (s : RepositoryState) : Prop :=
  ∀ (id : RepositoryAuthorityHeadId) body, s.headChain[id]? = some body →
    ∃ n, Descends s.headChain n s.head.id id

theorem run_descends {configuration : GenesisConfiguration} :
    HeadsDescend (run configuration inputs) := by
  refine run_history (P := fun _ => HeadsDescend) ?_ (fun done i ih id body hbody => ?_) inputs
  · intro id body hbody
    obtain ⟨rfl, -⟩ | ⟨-, hbody⟩ := BTree.get_insert_some hbody
    · exact ⟨0, .here _⟩
    · simp at hbody
  · have hfresh := run_headsFresh configuration done
    have hkept := (next_moves _ i).chainExtends hfresh
    obtain ⟨hhead, hchain⟩ | ⟨hlinks, hchain⟩ := next_links configuration done i
    · rw [hhead, hchain]
      exact ih id body (hchain ▸ hbody)
    · have hnew := ((next_moves _ i).headsFresh hfresh).current
      rw [hchain] at hbody
      obtain ⟨rfl, -⟩ | ⟨-, hbody⟩ := BTree.get_insert_some hbody
      · exact ⟨0, .here _⟩
      -- the new head is one link above the head it replaced
      · obtain ⟨n, hdescends⟩ := ih id body hbody
        exact ⟨n + 1, .link hnew hlinks.predecessor (hkept _ _ hfresh.current) hlinks.generation
          (hdescends.mono hkept)⟩

/-- **The published heads are one line.**  In every reached state the head
descends from every head ever published, and no two of them have one
generation: of the updates made on one head at most one is published, and what
was published is never left behind. -/
theorem published_heads_linear (configuration : GenesisConfiguration) (inputs : List ModelInput) :
    let s := run configuration inputs
    HeadsDescend s ∧ ∀ (id id' : RepositoryAuthorityHeadId) body body',
      s.headChain[id]? = some body → s.headChain[id']? = some body' →
      body.generation = body'.generation → id = id' := by
  intro s
  refine ⟨run_descends inputs, fun id id' body body' hbody hbody' hgen => ?_⟩
  have hcur := (run_headsFresh configuration inputs).current
  obtain ⟨n, h⟩ := run_descends inputs id body hbody
  obtain ⟨n', h'⟩ := run_descends inputs id' body' hbody'
  have hdepth := h.generation hbody hcur
  rw [h'.generation hbody' hcur, hgen] at hdepth
  obtain rfl : n' = n := Nat.add_left_cancel hdepth
  exact h.unique h'

end Frankengit.Reference
