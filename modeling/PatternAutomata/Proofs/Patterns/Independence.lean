/-
What is done with one automaton of a pattern does not show at the others.

Where an automaton is made, how it looks is decided by what it is made of: it mirrors the one
that is made where there is nothing else (`Tree.Pedigree`), at other places of a graph that may
hold much more. A bench is steady if that is so of all that it keeps, and if automata that are
kept for different stages have no state in common (`Bench.Steady`). Each use of a pattern, be it
an access to a stage or reading with its automaton, leaves a steady bench steady.

So after any uses each stage looks as it does when it alone is taken from a fresh pattern
(`stages_undisturbed`).
-/
import PatternAutomata.Proofs.Canonical.Minimizing
import PatternAutomata.Proofs.Patterns.Using
import PatternAutomata.Proofs.Renaming.Blocks
import PatternAutomata.Proofs.Renaming.Building
import PatternAutomata.Proofs.Renaming.Subsets

set_option autoImplicit false

namespace PatternAutomata

open PatternAutomata.Graph

variable {w w' : Workspace} {h k : Handle} {ρ : Vertex → Vertex} {strict : Bool} {t : Tree}
  {m m' : Machine}

/-- What is mirrored in a workspace goes on to be mirrored there, at the same places. Later the
workspace may hold more, and its automata may have read more, but a mirrored automaton is compared
without its run. -/
theorem Machine.Mirrors.later (hm : m.Mirrors True ρ (w.machine h)) (hs : m.automaton.Sound m.graph)
    (hw : w.Later w') (hh : h < w.automata.size) : ∃ σ, m.Mirrors True σ (w'.machine h) := by
  obtain ⟨σ, hgraph, hσ⟩ := hm.graph.later hw.size_le hw.node_eq
  have hautomaton : (w'.machine h).automaton = { w.automaton h with run := (w'.automaton h).run } :=
    hw.automaton_eq h hh
  -- the states of the automaton keep the names that they had
  have hnames : ∀ v ∈ m.automaton.states, ρ v = σ v := fun v hv => (hσ v (hs.placed v hv)).symm
  refine ⟨σ, hgraph, ?_⟩
  rw [hautomaton]
  constructor
  · exact hm.start_eq.trans (hnames _ hs.start_mem)
  · exact hm.states_eq.trans (OrdSet.image_congr hnames)
  · exact hm.automaton.alphabet_eq
  · exact hm.automaton.strict_eq
  · exact hm.automaton.discarded_eq

/-! ## Where there is nothing else -/

/-- Machines for the stages of a tree, as they are made where there is nothing else, each from
the one before it. -/
structure Tree.Pedigree (t : Tree) (strict : Bool) (P : Stage → Machine) : Prop where
  sound : ∀ s, (P s).automaton.Sound (P s).graph
  deterministic : (P .dfa).graph.Deterministic (P .dfa).automaton.states
  nfa_graph : (P .nfa).graph = (t.automaton ⟨∅, 0⟩).2.graph
  nfa_automaton : (P .nfa).automaton = { (t.automaton ⟨∅, 0⟩).1 with strict }
  epsilonFree : (P .nfa).removeEpsilons = .ok () (P .epsilonFree)
  dfa : (P .epsilonFree).determinized = ((P .dfa).graph, (P .dfa).automaton)
  minimalDfa : (P .dfa).quotient (P .dfa).refined =
    .ok ((P .minimalDfa).graph, (P .minimalDfa).automaton)

/-- What is given for a stage. -/
def Stage.pick {α : Type} (nfa epsilonFree dfa minimalDfa : α) : Stage → α
  | .nfa => nfa
  | .epsilonFree => epsilonFree
  | .dfa => dfa
  | .minimalDfa => minimalDfa

/-- A tree that describes a word has machines for its stages: they are made one after the other in
an empty workspace. The automaton with silent edges and the one without them have one handle there,
so the machine of each is taken when it has just been made. -/
theorem Tree.exists_pedigree (ht : t.Feasible) (strict : Bool) : ∃ P, t.Pedigree strict P := by
  obtain ⟨_, _, w₁, _, _, hnfa, hgraph, hautomaton⟩ := Work.build_spec ht {} strict
  obtain ⟨m, _, hrun, hfree⟩ := Work.removeEpsilons_spec hnfa
  obtain ⟨i, w₂, _, hdfa, hdeterminized⟩ := Work.determinize_spec hfree.offers
  obtain ⟨j, w₃, _, hminimal, hquotient⟩ := Work.minimize_spec hdfa.offers
  -- the first two stages are one automaton, before and after its silent edges are removed
  refine ⟨Stage.pick (w₁.machine 0) ((w₁.putBack 0 m).machine 0) (w₂.machine i) (w₃.machine j), ?_⟩
  constructor
  · intro s
    cases s with
    | nfa => exact hnfa.offers.serves.sound
    | epsilonFree => exact hfree.offers.serves.sound
    | dfa => exact hdfa.offers.serves.sound
    | minimalDfa => exact hminimal.offers.serves.sound
  · exact hdfa.offers.fits.1
  · exact hgraph
  · exact hautomaton
  · have hback := Workspace.machine_putBack hnfa.offers.held m
    exact hrun.trans (congrArg (EStateM.Result.ok ()) hback.symm)
  · exact hdeterminized
  · exact hquotient

namespace Tree.Pedigree

variable {P : Stage → Machine} {g : Graph} (hP : t.Pedigree strict P)

include hP

/-- Building a tree gives what the pedigree has, at places behind all that the graph held before. -/
theorem mirrors_nfa (hgraph : w.graph = (t.automaton ⟨g, 0⟩).2.graph)
    (hautomaton : w.automaton h = { (t.automaton ⟨g, 0⟩).1 with strict }) :
    (P .nfa).Mirrors True (g.size + ·) (w.machine h) := by
  have hbuilt := t.mirrors_automaton g 0
  constructor
  · rw [hP.nfa_graph, Workspace.machine, hgraph]
    exact hbuilt.graph
  · rw [hP.nfa_automaton, Workspace.machine, hautomaton]
    exact { hbuilt.automaton with strict_eq := rfl }

/-- Removing silent edges from what mirrors the first machine gives what mirrors the second. -/
theorem mirrors_epsilonFree (hm : (P .nfa).Mirrors True ρ m) (hrun : m.removeEpsilons = .ok () m') :
    (P .epsilonFree).Mirrors True ρ m' := by
  obtain ⟨s, hrun', hs⟩ := hm.removeEpsilons hP.epsilonFree
  rw [hrun] at hrun'
  cases hrun'
  exact hs

/-- Determinizing what mirrors the second machine gives what mirrors the third. Its states are new,
and lie at places that the graph alone decides. -/
theorem mirrors_dfa (hm : (P .epsilonFree).Mirrors True ρ m)
    (hmade : m.determinized = (w.graph, w.automaton h)) :
    (P .dfa).Mirrors True ρ (w.machine h) := by
  have hs := hP.sound .epsilonFree
  have hmirrors := hm.determinized (hs.placed _ hs.start_mem)
  rw [hP.dfa, hmade] at hmirrors
  exact ⟨hmirrors.graph, hmirrors.automaton⟩

/-- Minimizing what mirrors the third machine gives what mirrors the fourth. Both have to be
deterministic and sound, or the quotient might fail on one side. -/
theorem mirrors_minimalDfa (hm : (P .dfa).Mirrors True ρ m) (hs : m.automaton.Sound m.graph)
    (hd : m.graph.Deterministic m.automaton.states)
    (hmade : m.quotient m.refined = .ok (w.graph, w.automaton h)) :
    (P .minimalDfa).Mirrors True ρ (w.machine h) := by
  obtain ⟨made, made', hquotient, hquotient', hmirrors⟩ :=
    hm.quotient (hP.sound .dfa) hP.deterministic hs hd
  rw [hP.minimalDfa] at hquotient
  rw [hmade] at hquotient'
  cases hquotient
  cases hquotient'
  exact ⟨hmirrors.graph, hmirrors.automaton⟩

end Tree.Pedigree

namespace Regex

variable {b b' : Bench} {P : Stage → Machine} {s : Stage}

/-! ## Steady benches -/

/-- The automaton is what its stage asks for. It looks as if it had been made where there is
nothing else, and has no state in common with what is kept for another stage. -/
structure Bench.Admits (strict : Bool) (t : Tree) (P : Stage → Machine) (b : Bench) (s : Stage)
    (h : Handle) : Prop where
  offers : b.workspace.Offers s h strict t.language
  mirrors : ∃ ρ, (P s).Mirrors True ρ (b.workspace.machine h)
  apart : ∀ k j, s ≠ k → b.regex.keptAt k = some j →
    ∀ v ∈ (b.workspace.automaton h).states, v ∉ (b.workspace.automaton j).states

/-- All that is kept is what its stage asks for. What is kept may have read any text by now. -/
structure Bench.Steady (strict : Bool) (t : Tree) (P : Stage → Machine) (b : Bench) : Prop where
  good : b.Good strict t
  admits : ∀ s h, b.regex.keptAt s = some h → b.Admits strict t P s h

/-- Automata were added and kept, and all that was there is as it was. Unlike in `Workspace.Later`,
nothing has been read. -/
structure Bench.Extends (b b' : Bench) : Prop where
  grows : b.workspace.Grows b'.workspace
  kept : ∀ s h, b.regex.keptAt s = some h → b'.regex.keptAt s = some h

namespace Bench

/-- What was kept is still placed where it was. Only its run may be another one. -/
theorem Good.states_eq (hb : b.Good strict t) (hw : b.workspace.Later w)
    (hk : b.regex.keptAt s = some h) :
    (w.automaton h).states = (b.workspace.automaton h).states := by
  rw [hw.automaton_eq h (hb.kept s h hk).held]

/-- What was admitted stays so while other automata are made and while automata read. -/
theorem Admits.later (hP : t.Pedigree strict P) (hb : b.Good strict t) (hw : b.workspace.Later w)
    (ha : b.Admits strict t P s h) : Admits strict t P { b with workspace := w } s h := by
  obtain ⟨ρ, hmirrors⟩ := ha.mirrors
  constructor
  · exact ha.offers.later hw
  · exact hmirrors.later (hP.sound s) hw ha.offers.held
  · intro k j hne hj v hv
    rw [hw.automaton_eq h ha.offers.held] at hv
    rw [hb.states_eq hw hj]
    exact ha.apart k j hne hj v hv

namespace Steady

/-- A steady bench stays so while other automata are made and while automata read. -/
theorem later (hP : t.Pedigree strict P) (hb : b.Steady strict t P) (hw : b.workspace.Later w) :
    Steady strict t P { b with workspace := w } where
  good := hb.good.later hw
  admits s h hk := (hb.admits s h hk).later hP hb.good hw

/-- Only the workspace, and what is kept for the stages, counts. -/
theorem congr (hb : b.Steady strict t P) (hgood : b'.Good strict t)
    (workspace_eq : b'.workspace = b.workspace)
    (keptAt_eq : ∀ k, b'.regex.keptAt k = b.regex.keptAt k) : b'.Steady strict t P := by
  refine ⟨hgood, fun s h hk => ?_⟩
  rw [keptAt_eq] at hk
  obtain ⟨hoffers, hmirrors, hapart⟩ := hb.admits s h hk
  constructor
  · rwa [workspace_eq]
  · rwa [workspace_eq]
  · intro k j hne hj
    rw [keptAt_eq] at hj
    rw [workspace_eq]
    exact hapart k j hne hj

/-- What is asked for may be kept. Of two stages at least one is not the one that the automaton is
kept for, so they are apart because the new automaton is apart from the others, or because they were
before. -/
theorem keepAt (hb : b.Steady strict t P) (ha : b.Admits strict t P s h) :
    Steady strict t P { b with regex := b.regex.keepAt s h } := by
  refine ⟨hb.good.keepAt ha.offers, fun k i hi => ?_⟩
  rw [keptAt_keepAt] at hi
  split at hi
  · next heq =>
    obtain rfl := Option.some.inj hi
    subst heq
    refine ⟨ha.offers, ha.mirrors, fun l j hne hj => ?_⟩
    rw [keptAt_keepAt, if_neg fun h => hne h.symm] at hj
    exact ha.apart l j hne hj
  · next hks =>
    obtain ⟨hoffers, hmirrors, hapart⟩ := hb.admits k i hi
    refine ⟨hoffers, hmirrors, fun l j hne hj => ?_⟩
    rw [keptAt_keepAt] at hj
    split at hj
    · next hls =>
      -- the new automaton shares nothing with what was kept before it
      obtain rfl := Option.some.inj hj
      intro v hv hv'
      exact ha.apart k i (fun h => hks h.symm) hi v hv' hv
    · exact hapart l j hne hj

/-- An automaton on new states shares nothing with what is kept. What is kept lies within the graph
as it was, and the new states lie behind it. -/
theorem admits_added (hP : t.Pedigree strict P) (hb : b.Steady strict t P)
    (hadds : b.workspace.Adds w s h strict t.language)
    (hmirrors : ∃ ρ, (P s).Mirrors True ρ (w.machine h)) :
    Steady strict t P { b with workspace := w } ∧
      Admits strict t P { b with workspace := w } s h := by
  refine ⟨hb.later hP hadds.grows.later, hadds.offers, hmirrors, ?_⟩
  intro k j _ hj v hv hv'
  rw [hb.good.states_eq hadds.grows.later hj] at hv'
  exact Nat.not_lt.2 (hadds.states_ge v hv) ((hb.good.kept k j hj).serves.sound.placed v hv')

end Steady

end Bench

/-! ## Accesses -/

/-- What extends a bench that extends another one extends that one. -/
theorem Bench.Extends.trans {b'' : Bench} (hb : b.Extends b') (hb' : b'.Extends b'') :
    b.Extends b'' where
  grows := hb.grows.trans hb'.grows
  kept s h hk := hb'.kept s h (hb.kept s h hk)

/-- The workspace may grow. -/
theorem Bench.Extends.grow (hb : b.Extends b') (hw : b'.workspace.Grows w) :
    b.Extends { b' with workspace := w } :=
  hb.trans ⟨hw, fun _ _ hk => hk⟩

/-- What is kept first is kept. If nothing was kept for the stage, keeping something for it takes
nothing away. -/
theorem Bench.Extends.keepAt (hb : b.Extends b') (hnone : b.regex.keptAt s = none) (h : Handle) :
    b.Extends { b' with regex := b'.regex.keepAt s h } where
  grows := hb.grows
  kept k j hk := by
    rw [keptAt_keepAt, if_neg]
    · exact hb.kept k j hk
    · rintro rfl
      rw [hnone] at hk
      cases hk

namespace Access

/-- The tree is built as it would be where there is nothing else. All that a build needs of the
bench is the tree, which is kept or read again. -/
theorem steady_build (hP : t.Pedigree strict P) (hb : b.Steady strict t P) :
    ∃ (b₁ : Bench) (h : Handle) (w' : Workspace) (ρ : Vertex → Vertex),
      Access.build b = .ok h { b₁ with workspace := w' } ∧ b₁.Steady strict t P ∧ b.Extends b₁ ∧
        b₁.workspace.Adds w' .nfa h strict t.language ∧ (P .nfa).Mirrors True ρ (w'.machine h) := by
  obtain ⟨b₁, h, w', hbuild, hgood, hworkspace, hkept, hadds, hgraph, hautomaton⟩ :=
    build_spec hb.good
  have hext : b.Extends b₁ :=
    ⟨hworkspace ▸ Workspace.Grows.refl b.workspace, fun s h hk => (hkept s).trans hk⟩
  exact ⟨b₁, h, w', _, hbuild, hb.congr hgood hworkspace hkept, hext, hadds,
    hP.mirrors_nfa hgraph hautomaton⟩

/-- Making and keeping automata leaves a bench steady, and extends it. Each automaton is made from
what mirrors the one before it in the pedigree, so it mirrors the next one. -/
theorem tended_steady (hP : t.Pedigree strict P) (b₀ : Bench) :
    Tended (fun b => b.Steady strict t P ∧ b₀.Extends b)
      (fun s b h => b.Admits strict t P s h) where
  build := by
    rintro b ⟨hb, hext⟩
    obtain ⟨b₁, h, w', ρ, hbuild, hb₁, hext₁, hadds, hmirrors⟩ := steady_build hP hb
    obtain ⟨hsteady, hadmits⟩ := hb₁.admits_added hP hadds ⟨ρ, hmirrors⟩
    exact ⟨h, _, hbuild, ⟨hsteady, (hext.trans hext₁).grow hadds.grows⟩, hadmits⟩
  free := by
    rintro b ⟨hb, hext⟩
    obtain ⟨b₁, h, w', ρ, hbuild, hb₁, hext₁, hadds, hmirrors⟩ := steady_build hP hb
    obtain ⟨m, hrun, hremoved, hfree⟩ := Work.removeEpsilons_spec hadds
    -- silent edges are removed in the automaton that was just built, which is put back under its
    -- handle
    have hback := Workspace.machine_putBack hadds.offers.held m
    have hmirrors' := hP.mirrors_epsilonFree hmirrors hremoved
    rw [← hback] at hmirrors'
    obtain ⟨hsteady, hadmits⟩ := hb₁.admits_added hP hfree ⟨ρ, hmirrors'⟩
    refine ⟨h, _, ?_, ⟨hsteady, (hext.trans hext₁).grow hfree.grows⟩, hadmits⟩
    simp only [outcome_bind, hbuild, work_eq_ok (b := { b₁ with workspace := w' }) hrun]
    rfl
  determinize := by
    rintro b h ⟨hb, hext⟩ ha
    obtain ⟨k, w', hrun, hadds, hmade⟩ := Work.determinize_spec ha.offers
    obtain ⟨ρ, hmirrors⟩ := ha.mirrors
    obtain ⟨hsteady, hadmits⟩ := hb.admits_added hP hadds ⟨ρ, hP.mirrors_dfa hmirrors hmade⟩
    exact ⟨k, w', hrun, ⟨hsteady, hext.grow hadds.grows⟩, hadmits⟩
  minimize := by
    rintro b h ⟨hb, hext⟩ ha
    obtain ⟨k, w', hrun, hadds, hmade⟩ := Work.minimize_spec ha.offers
    obtain ⟨ρ, hmirrors⟩ := ha.mirrors
    have hmirrors' := hP.mirrors_minimalDfa hmirrors ha.offers.serves.sound ha.offers.fits.1 hmade
    obtain ⟨hsteady, hadmits⟩ := hb.admits_added hP hadds ⟨ρ, hmirrors'⟩
    exact ⟨k, w', hrun, ⟨hsteady, hext.grow hadds.grows⟩, hadmits⟩
  log := by
    rintro b s h log ⟨hb, hext⟩ ha
    have hgrows := Workspace.Grows.logged b.workspace log
    exact ⟨⟨hb.later hP hgrows.later, hext.grow hgrows⟩, ha.later hP hb.good hgrows.later⟩
  keep := by
    rintro b b' s h ⟨_, hext⟩ hnone ⟨hb', hext'⟩ ha
    -- nothing was kept for the stage to begin with, for it would still be kept
    have hnone₀ : b₀.regex.keptAt s = none := by
      cases hk : b₀.regex.keptAt s with
      | none => rfl
      | some j =>
        rw [hext.kept s j hk] at hnone
        cases hnone
    exact ⟨hb'.keepAt ha, hext'.keepAt hnone₀ h⟩
  kept _ s h hb hk := hb.1.admits s h hk

/-- An access to a stage leads to an automaton that is kept from then on. -/
theorem steady_stage (hP : t.Pedigree strict P) (hb : b.Steady strict t P) (s : Stage) :
    ∃ h b', Access.stage s b = .ok h b' ∧ b'.Steady strict t P ∧ b.Extends b' ∧
      b'.regex.keptAt s = some h := by
  have hext : b.Extends b := ⟨.refl _, fun _ _ hk => hk⟩
  obtain ⟨h, b', hrun, ⟨hb', hext'⟩, hk⟩ := (tended_steady hP b).stage s b ⟨hb, hext⟩
  exact ⟨h, b', hrun, hb', hext', hk⟩

/-- Reading with the automaton of a stage leaves a bench steady. -/
theorem steady_onStage {α : Type} (hP : t.Pedigree strict P) (hb : b.Steady strict t P) (s : Stage)
    {x : Edit α} (hx : x.OnlyReads) : (leftBy (onStage s x b)).Steady strict t P := by
  obtain ⟨h, b', hrun, hb', _, hk⟩ := steady_stage hP hb s
  obtain ⟨w, hw, hleft⟩ := leftBy_work_on hx (hb'.good.kept s h hk)
  have heq : onStage s x b = work (.on h x) b' := by
    simp only [onStage, outcome_bind, hrun]
  rw [heq, hleft]
  exact hb'.later hP hw

end Access

/-! ## Uses -/

/-- What a pattern can be used for. -/
inductive Use where
  | tree
  | alphabet
  | stage (s : Stage)
  | isMatch (text : String)
  | reset (s : Stage)
  | read (s : Stage) (ls : List Label)
  | accepts (s : Stage) (ls : List Label)
  | generate (s : Stage) (longest : Int)

namespace Bench

/-- The bench that a use leaves behind, whether it succeeds or not. -/
def afterUse (b : Bench) : Use → Bench
  | .tree => leftBy (Access.tree b)
  | .alphabet => leftBy (Access.alphabet b)
  | .stage s => leftBy (Access.stage s b)
  | .isMatch text => leftBy (Access.isMatch text b)
  | .reset s => leftBy (Access.onStage s .reset b)
  | .read s ls => leftBy (Access.onStage s (.read ls) b)
  | .accepts s ls => leftBy (Access.onStage s (.accepts ls) b)
  | .generate s longest => leftBy (Access.generate s longest b)

/-- The bench after several uses. -/
def after (b : Bench) (uses : List Use) : Bench := uses.foldl afterUse b

namespace Steady

/-- No use disturbs a steady bench. A use makes automata, which are admitted, or reads with one that
is kept, and both leave the bench steady; this is so also if reading is refused. -/
theorem afterUse (hP : t.Pedigree strict P) (hb : b.Steady strict t P) (use : Use) :
    (b.afterUse use).Steady strict t P := by
  cases use with
  | tree =>
    obtain ⟨b', hrun, hgood, hworkspace, hkept⟩ := Access.tree_spec hb.good
    rw [Bench.afterUse, hrun]
    exact hb.congr hgood hworkspace hkept
  | alphabet =>
    obtain ⟨b', hrun, hgood, hworkspace, hkept⟩ := Access.alphabet_spec hb.good
    rw [Bench.afterUse, hrun]
    exact hb.congr hgood hworkspace hkept
  | stage s =>
    obtain ⟨h, b', hrun, hb', _⟩ := Access.steady_stage hP hb s
    rw [Bench.afterUse, hrun]
    exact hb'
  | isMatch text => exact Access.steady_onStage hP hb .minimalDfa (Edit.onlyReads_accepts _)
  | reset s => exact Access.steady_onStage hP hb s Edit.onlyReads_reset
  | read s ls => exact Access.steady_onStage hP hb s (Edit.onlyReads_read ls)
  | accepts s ls => exact Access.steady_onStage hP hb s (Edit.onlyReads_accepts ls)
  | generate s longest =>
    obtain ⟨h, b', hrun, hb', _⟩ := Access.steady_stage hP hb s
    rw [Bench.afterUse]
    simp only [Access.generate, outcome_bind, hrun, outcome_get, outcome_pure]
    exact hb'

/-- Whatever a pattern is used for, its bench stays steady. By induction on the uses, of which
`afterUse` is the step. -/
theorem after (hP : t.Pedigree strict P) (hb : b.Steady strict t P) (uses : List Use) :
    (b.after uses).Steady strict t P := by
  induction uses generalizing b with
  | nil => exact hb
  | cons use uses ih => exact ih (hb.afterUse hP use)

end Steady

end Bench

/-- The bench of a pattern that was not used yet. -/
def fresh (pattern : String) (d : Dialect) (strict : Bool) (w : Workspace) : Bench :=
  ⟨{ pattern, strict, dialect := d }, w⟩

variable {pattern : String} {d : Dialect}

/-- At first nothing is kept. -/
theorem steady_fresh (hparse : Parser.parse d pattern = .ok t) (w : Workspace) :
    (fresh pattern d strict w).Steady strict t P where
  good := Used.good hparse (.fresh w)
  admits s h hk := by
    cases s <;> cases hk

/-- Stages do not disturb each other. However a pattern was used, and whatever else is in its
workspace, each stage is what it is when it is taken from a fresh pattern at once; taking it
leaves all automata that are there, and how far they have read, as they are; and no two stages
have a state in common. Determinizing and minimizing leave any automaton as it is. -/
theorem stages_undisturbed (hparse : Parser.parse d pattern = .ok t) (strict : Bool)
    (w w₀ : Workspace) (uses : List Use) :
    (∀ s, ∃ h b' h₀ b₀,
      Access.stage s ((fresh pattern d strict w).after uses) = .ok h b' ∧
        Access.stage s (fresh pattern d strict w₀) = .ok h₀ b₀ ∧
          (b'.workspace.automaton h).snapshot b'.workspace.graph =
            (b₀.workspace.automaton h₀).snapshot b₀.workspace.graph ∧
          b'.regex.keptAt s = some h ∧ ((fresh pattern d strict w).after uses).Extends b') ∧
    (∀ s k h j, s ≠ k →
      ((fresh pattern d strict w).after uses).regex.keptAt s = some h →
      ((fresh pattern d strict w).after uses).regex.keptAt k = some j →
        ∀ v ∈ (((fresh pattern d strict w).after uses).workspace.automaton h).states,
          v ∉ (((fresh pattern d strict w).after uses).workspace.automaton j).states) ∧
    ∀ m : Machine, m.Spares (leftBy (Edit.determinize m)) ∧ m.Spares (leftBy (Edit.minimize m)) := by
  have ht : t.Feasible := t.feasible_of_written (Parser.written_of_parse hparse)
  obtain ⟨P, hP⟩ := t.exists_pedigree ht strict
  have hb := (steady_fresh hparse w).after hP uses
  -- from here on it only counts that the bench is steady
  generalize (fresh pattern d strict w).after uses = b at hb
  refine ⟨fun s => ?_, ?_, fun m => ⟨Edit.spares_determinize m, Edit.spares_minimize m⟩⟩
  · obtain ⟨h, b', hrun, hb', hext, hk⟩ := Access.steady_stage hP hb s
    obtain ⟨h₀, b₀, hrun₀, hb₀, _, hk₀⟩ := Access.steady_stage hP (steady_fresh hparse w₀) s
    -- both look like the automaton that is made where there is nothing else
    obtain ⟨ρ, hmirrors⟩ := (hb'.admits s h hk).mirrors
    obtain ⟨σ, hmirrors₀⟩ := (hb₀.admits s h₀ hk₀).mirrors
    exact ⟨h, b', h₀, b₀, hrun, hrun₀, hmirrors.snapshot_eq.trans hmirrors₀.snapshot_eq.symm, hk,
      hext⟩
  · intro s k h j hne hs hk
    exact (hb.admits s h hs).apart k j hne hk

/-- For `a+`, read strictly: its automata were made, and read until a symbol was refused. -/
theorem stages_undisturbed_oneOrMore : ∃ h b' h₀ b₀,
    Access.stage .nfa ((fresh "a+" {} true {}).after
        [.isMatch "aa", .read .nfa [.symbol "a", .symbol "b"], .generate .epsilonFree 3]) =
          .ok h b' ∧
      Access.stage .nfa (fresh "a+" {} true {}) = .ok h₀ b₀ ∧
        (b'.workspace.automaton h).snapshot b'.workspace.graph =
          (b₀.workspace.automaton h₀).snapshot b₀.workspace.graph := by
  obtain ⟨hstages, _⟩ := stages_undisturbed parse_oneOrMore true {} {}
    [.isMatch "aa", .read .nfa [.symbol "a", .symbol "b"], .generate .epsilonFree 3]
  obtain ⟨h, b', h₀, b₀, hrun, hrun₀, hseen, _⟩ := hstages .nfa
  exact ⟨h, b', h₀, b₀, hrun, hrun₀, hseen⟩

end Regex

end PatternAutomata
