/-
The automata that a pattern is given.

Each automaton that is made of a pattern serves it, and is what its stage promises: one
without silent edges has none, a deterministic one is numbered by the earliest words that
reach its states, and the smallest one is canonical (`Stage.Fits`). A bench keeps only such
automata (`Bench.Good`), and an access to a stage, whether it finds an automaton or makes it,
leads to a good bench again. So whatever was asked for before, in whatever order, an access
to a stage succeeds (`Access.yields_stage`).

How the accesses are made of one another is gone through once, for any condition on benches that
making, noting and keeping automata keep up (`Access.Tended`).
-/
import PatternAutomata.Proofs.Patterns.Workspaces
import PatternAutomata.Proofs.Patterns.Written
import PatternAutomata.Regex

set_option autoImplicit false

namespace PatternAutomata

open PatternAutomata.Graph

/-! ## What a stage promises -/

/-- What the automaton of a stage is like, besides serving the pattern. -/
def Stage.Fits (g : Graph) (a : Automaton) : Stage → Prop
  | .nfa => True
  | .epsilonFree => ∀ v ∈ a.states, g.destinations v .epsilon = ∅
  | .dfa => g.Deterministic a.states ∧ (∃ first words, a.Numbered g first words) ∧
      ∀ v ∈ a.states, (g.node v).isTrap = false
  | .minimalDfa => ∃ first words, a.Canonical g first words

/-- What a stage promises of an automaton is kept for as long as the automaton stays. -/
theorem Stage.Fits.stays {g h : Graph} {a b : Automaton} {s : Stage} (hab : a.Stays g h b)
    (ha : a.Sound g) (hs : s.Fits g a) : s.Fits h b := by
  cases s with
  | nfa => trivial
  | epsilonFree =>
    intro v hv
    rw [hab.states_eq] at hv
    rw [hab.destinations_eq hv]
    exact hs v hv
  | dfa =>
    obtain ⟨hd, ⟨first, words, hn⟩, htrap⟩ := hs
    exact ⟨hab.deterministic hd, ⟨first, words, hab.numbered ha hn⟩, hab.isTrap_eq htrap⟩
  | minimalDfa =>
    obtain ⟨first, words, hc⟩ := hs
    exact ⟨first, words, hab.canonical hc⟩

/-- The workspace holds an automaton for a stage of a pattern. -/
structure Workspace.Offers (w : Workspace) (s : Stage) (h : Handle) (strict : Bool)
    (L : Language Label) : Prop where
  held : h < w.automata.size
  serves : (w.automaton h).Serves w.graph strict L
  fits : s.Fits w.graph (w.automaton h)

variable {w w' : Workspace} {s : Stage} {h : Handle} {strict : Bool} {L : Language Label}
  {t : Tree}

/-- An automaton for a stage goes on to be one while others are made and while automata read. -/
theorem Workspace.Offers.later (hoffers : w.Offers s h strict L) (hw : w.Later w') :
    w'.Offers s h strict L := by
  have hstays := hw.stays hoffers.held hoffers.serves.sound
  exact ⟨Nat.lt_of_lt_of_le hoffers.held hw.automata_le, hstays.serves hoffers.serves,
    hoffers.fits.stays hstays hoffers.serves.sound⟩

/-- An automaton for a stage was made on new states, and all that was there was left alone. -/
structure Workspace.Adds (w w' : Workspace) (s : Stage) (h : Handle) (strict : Bool)
    (L : Language Label) : Prop where
  grows : w.Grows w'
  held_ge : w.automata.size ≤ h
  offers : w'.Offers s h strict L
  states_ge : ∀ v ∈ (w'.automaton h).states, w.graph.size ≤ v

/-- An automaton was added also if something is logged afterwards. -/
theorem Workspace.Adds.logged (hadds : w.Adds w' s h strict L) (log : Array Event) :
    w.Adds { w' with log := log } s h strict L where
  grows := hadds.grows.trans (.logged w' log)
  held_ge := hadds.held_ge
  offers := hadds.offers.later (Workspace.Grows.logged w' log).later
  states_ge := hadds.states_ge

/-! ## Making automata -/

namespace Work

/-- The automaton that was added last may be changed. It is the last entry, so that adding what it
is changed to comes to the same. -/
theorem alter_push (g : Graph) (as : Array Automaton) (log : Array Event) (a : Automaton)
    (f : Automaton → Automaton) : Work.alter as.size f ⟨g, as.push a, log⟩ =
      .ok () ⟨g, as.push (f a), log⟩ := by
  have hmodify : (as.push a).modify as.size f = as.push (f a) := by
    apply Array.ext_getElem?
    intro i
    rw [Array.getElem?_modify, Array.getElem?_push, Array.getElem?_push]
    split
    · next heq =>
      subst heq
      rw [if_pos rfl, if_pos rfl]
      rfl
    · next hne => rw [if_neg fun h => hne h.symm, if_neg fun h => hne h.symm]
  simp only [alter, outcome_modify, hmodify]

/-- Adding an automaton that serves, with states of its own. -/
theorem offers_push {g : Graph} {a : Automaton} {log : Array Event}
    (ha : a.Serves g strict L) (hs : s.Fits g a) :
    (⟨g, w.automata.push a, log⟩ : Workspace).Offers s w.automata.size strict L := by
  refine ⟨?_, ?_, ?_⟩
  · show _ < (w.automata.push a).size
    rw [Array.size_push]
    exact Nat.lt_succ_self _
  · rwa [Workspace.automaton_push]
  · rwa [Workspace.automaton_push]

/-- Building a tree adds an automaton for its words. Its states lie behind all that the graph held,
and whether it is strict is set afterwards. -/
theorem build_spec (ht : t.Feasible) (w : Workspace) (strict : Bool) : ∃ next w₁ w₂,
    Work.build t 0 w = .ok (w.automata.size, next) w₁ ∧
      Work.alter w.automata.size (fun a => { a with strict }) w₁ = .ok () w₂ ∧
        w.Adds w₂ .nfa w.automata.size strict t.language ∧
          w₂.graph = (t.automaton ⟨w.graph, 0⟩).2.graph ∧
            w₂.automaton w.automata.size = { (t.automaton ⟨w.graph, 0⟩).1 with strict } := by
  have hbuilt := t.builds (fun _ : True => ht) ⟨w.graph, 0⟩
  refine ⟨_, _, _, rfl, alter_push _ _ _ _ _, ?_, rfl, Workspace.automaton_push ..⟩
  constructor
  · exact .added _ hbuilt.grows.size_le hbuilt.grows.node_eq
  · exact Nat.le_refl _
  · exact offers_push (.ofRecognizes hbuilt.toRecognizes strict) trivial
  · intro v hv
    rw [Workspace.automaton_push] at hv
    exact ((hbuilt.mem_states v).1 hv).1

/-- The silent edges may be removed from an automaton that was added. The same automaton is then one
for the next stage; nothing is added. -/
theorem removeEpsilons_spec (hadds : w.Adds w' s h strict L) : ∃ m,
    Work.on h .removeEpsilons w' = .ok () (w'.putBack h m) ∧
      (w'.machine h).removeEpsilons = .ok () m ∧
        w.Adds (w'.putBack h m) .epsilonFree h strict L := by
  have hserves := hadds.offers.serves
  obtain ⟨m, hrun, hkeeps, hnone⟩ := Machine.removeEpsilons_spec (m := w'.machine h) hserves.sound
  have hedit : Edit.removeEpsilons (w'.machine h) = .ok () m := by
    simp only [Edit.removeEpsilons, outcome_bind_fun, Edit.live_eq_ok (m := w'.machine h)
      hserves.live, hrun]
  have hback := Workspace.automaton_putBack hadds.offers.held m
  refine ⟨m, on_eq_ok hedit, hrun, ?_⟩
  constructor
  · -- the states that were there before are none of the new automaton
    apply hadds.grows.putBack hadds.held_ge (Nat.le_of_eq hkeeps.size_eq.symm)
    exact fun v hv => hkeeps.node_eq v fun hmem => Nat.not_lt.2 (hadds.states_ge v hmem) hv
  · exact hadds.held_ge
  · refine ⟨?_, ?_, ?_⟩
    · rw [Workspace.size_putBack]
      exact hadds.offers.held
    · rw [hback]
      exact hserves.keepsWords (m := w'.machine h) hkeeps
    · rw [hback]
      exact hnone
  · intro v hv
    rw [hback] at hv
    exact hadds.states_ge v (hkeeps.states_sub v hv)

/-- Determinizing adds an automaton with numbered states. It asks of the automaton only that it
serves, and leaves it as it was. -/
theorem determinize_spec (hoffers : w.Offers s h strict L) : ∃ k w',
    Work.determinize h w = .ok k w' ∧ w.Adds w' .dfa k strict L ∧
      (w.machine h).determinized = (w'.graph, w'.automaton k) := by
  obtain ⟨d, m, items, hrun, hmade, hkept, halphabet, hstrict, hlive⟩ :=
    Edit.determinize_spec (m := w.machine h) hoffers.serves.sound.selfContained hoffers.serves.live
  refine ⟨_, _, add_eq_ok hrun hkept, ?_, ?_⟩
  · constructor
    · exact .added d hmade.size_le hmade.node_eq
    · exact Nat.le_refl _
    · apply offers_push
      · exact hoffers.serves.madeOfSets hmade halphabet hstrict hlive
      · exact ⟨hmade.deterministic, ⟨_, _, hmade.numbered hoffers.serves.sound.selfContained⟩,
          hmade.isTrap_eq⟩
    · intro v hv
      rw [Workspace.automaton_push] at hv
      exact ((hmade.mem_states v).1 hv).1
  -- it was made as `determinized` says, since it did not fail
  · rcases Edit.determinize_cases (w.machine h) with ⟨f, hfail⟩ | ⟨m', hmade', hgraph, _⟩
    · rw [hfail] at hrun
      cases hrun
    · rw [hmade'] at hrun
      cases hrun
      rw [Workspace.automaton_push]
      exact Prod.ext hgraph.symm rfl

/-- Minimizing a numbered deterministic automaton adds a canonical one. That the automaton is
deterministic is what the stage before promises, so minimizing does not fail. -/
theorem minimize_spec (hoffers : w.Offers .dfa h strict L) : ∃ k w',
    Work.minimize h w = .ok k w' ∧ w.Adds w' .minimalDfa k strict L ∧
      (w.machine h).quotient (w.machine h).refined = .ok (w'.graph, w'.automaton k) := by
  obtain ⟨hd, ⟨first, words, hn⟩, htrap⟩ := hoffers.fits
  have hs := hoffers.serves
  obtain ⟨d, m, hrun, hmade, hkept, halphabet, hstrict, hlive⟩ :=
    Edit.minimize_spec (m := w.machine h) hs.sound.labelled hd hs.live
  refine ⟨_, _, add_eq_ok hrun hkept, ?_, ?_⟩
  · constructor
    · exact .added d hmade.size_le hmade.node_eq
    · exact Nat.le_refl _
    · apply offers_push
      · exact hs.madeOfBlocks hmade halphabet hstrict hlive
      · exact ⟨_, _, hmade.canonical hs.sound hd hn hs.alive htrap⟩
    · intro v hv
      rw [Workspace.automaton_push] at hv
      exact ((hmade.mem_states v).1 hv).1
  · obtain ⟨m', _, ⟨f, hfail, _⟩ | ⟨d', hmade', hquotient⟩⟩ := Edit.minimize_cases (w.machine h)
    · rw [hfail] at hrun
      cases hrun
    · rw [hmade'] at hrun
      cases hrun
      rw [Workspace.automaton_push]
      exact hquotient

end Work

/-! ## Good benches -/

namespace Regex

/-- The automaton that is kept for a stage. -/
def keptAt (r : Regex) : Stage → Option Handle
  | .nfa => r.nfa
  | .epsilonFree => r.epsilonFree
  | .dfa => r.dfa
  | .minimalDfa => r.minimalDfa

/-- The pattern with an automaton that is kept for a stage. -/
def keepAt (r : Regex) (s : Stage) (h : Handle) : Regex :=
  match s with
  | .nfa => { r with nfa := some h }
  | .epsilonFree => { r with epsilonFree := some h }
  | .dfa => { r with dfa := some h }
  | .minimalDfa => { r with minimalDfa := some h }

/-- What is kept for one stage does not show at the others. -/
theorem keptAt_keepAt (r : Regex) (s k : Stage) (h : Handle) :
    (r.keepAt s h).keptAt k = if k = s then some h else r.keptAt k := by
  cases s <;> cases k <;> rfl

variable {b b' : Bench}

/-- The pattern of the bench is read as a tree, and what is kept for it is what it is kept as: the
tree, its letters, and for each stage an automaton that the workspace offers for it. -/
structure Bench.Good (strict : Bool) (t : Tree) (b : Bench) : Prop where
  reads : Parser.parse b.regex.dialect b.regex.pattern = .ok t
  strict_eq : b.regex.strict = strict
  tree_eq : ∀ u, b.regex.tree = some u → u = t
  alphabet_eq : ∀ ls, b.regex.alphabet = some ls → ls = t.letters
  kept : ∀ s h, b.regex.keptAt s = some h → b.workspace.Offers s h strict t.language

namespace Bench.Good

/-- A good bench stays good while automata are made and while they read. -/
theorem later (hb : b.Good strict t) (hw : b.workspace.Later w) :
    Good strict t { b with workspace := w } where
  reads := hb.reads
  strict_eq := hb.strict_eq
  tree_eq := hb.tree_eq
  alphabet_eq := hb.alphabet_eq
  kept s h hk := (hb.kept s h hk).later hw

/-- What a workspace offers for a stage may be kept for it. -/
theorem keepAt (hb : b.Good strict t) (hoffers : b.workspace.Offers s h strict t.language) :
    Good strict t { b with regex := b.regex.keepAt s h } where
  reads := by
    cases s <;> exact hb.reads
  strict_eq := by
    cases s <;> exact hb.strict_eq
  tree_eq := by
    cases s <;> exact hb.tree_eq
  alphabet_eq := by
    cases s <;> exact hb.alphabet_eq
  kept k h' hk := by
    rw [keptAt_keepAt] at hk
    split at hk
    · next heq =>
      rw [heq, ← Option.some.inj hk]
      exact hoffers
    · exact hb.kept k h' hk

end Bench.Good

/-! ## Accesses -/

namespace Access

/-- Work in the workspace of a bench leaves the pattern as it is. -/
theorem work_eq_ok {α : Type} {x : Work α} {r : α} (hx : x b.workspace = .ok r w) :
    Access.work x b = .ok r { b with workspace := w } := by
  rw [work, hx]

/-- Noting that a stage is finished changes the log and nothing else. -/
theorem finish_eq (s : Stage) (h : Handle) (b : Bench) : ∃ log,
    Access.finish s h b = .ok () { b with workspace := { b.workspace with log := log } } :=
  ⟨_, rfl⟩

section Keeping

variable {α : Type} {kept : Regex → Option α} {keep : Regex → α → Regex} {make : Access α} {a : α}

/-- What is kept is had at once, and nothing is done. -/
theorem keeping_kept (hkept : kept b.regex = some a) : keeping kept keep make b = .ok a b := by
  simp only [keeping, outcome_bind, outcome_get, hkept]
  rfl

/-- What is not kept is made, and then kept. -/
theorem keeping_made (hkept : kept b.regex = none) (hmake : make b = .ok a b') :
    keeping kept keep make b = .ok a { b' with regex := keep b'.regex a } := by
  simp only [keeping, outcome_bind, outcome_get, hkept, hmake]
  rfl

end Keeping

/-- The tree is had, and then kept. It is read from the pattern if it is not kept yet, which gives
the same tree at any time. -/
theorem tree_spec (hb : b.Good strict t) : ∃ b', Access.tree b = .ok t b' ∧ b'.Good strict t ∧
    b'.workspace = b.workspace ∧ ∀ k, b'.regex.keptAt k = b.regex.keptAt k := by
  cases htree : b.regex.tree with
  | some u =>
    obtain rfl := hb.tree_eq u htree
    exact ⟨b, keeping_kept htree, hb, rfl, fun _ => rfl⟩
  | none =>
    refine ⟨{ b with regex := { b.regex with tree := some t } }, ?_, ?_, rfl, ?_⟩
    · apply keeping_made htree
      simp only [outcome_bind, outcome_get, hb.reads]
      rfl
    · exact ⟨hb.reads, hb.strict_eq, fun u hu => (Option.some.inj hu).symm, hb.alphabet_eq,
        hb.kept⟩
    · intro k
      cases k <;> rfl

/-- The letters of the tree are had, and then kept. To find them the tree is asked for, which is
kept as well. -/
theorem alphabet_spec (hb : b.Good strict t) : ∃ b', Access.alphabet b = .ok t.letters b' ∧
    b'.Good strict t ∧ b'.workspace = b.workspace ∧
      ∀ k, b'.regex.keptAt k = b.regex.keptAt k := by
  cases hletters : b.regex.alphabet with
  | some ls =>
    obtain rfl := hb.alphabet_eq ls hletters
    exact ⟨b, keeping_kept hletters, hb, rfl, fun _ => rfl⟩
  | none =>
    obtain ⟨b', htree, hb', hworkspace, hkept⟩ := tree_spec hb
    refine ⟨{ b' with regex := { b'.regex with alphabet := some t.letters } }, ?_, ?_,
      hworkspace, ?_⟩
    · apply keeping_made hletters
      simp only [outcome_bind, htree]
      rfl
    · exact ⟨hb'.reads, hb'.strict_eq, hb'.tree_eq, fun ls hls => (Option.some.inj hls).symm,
        hb'.kept⟩
    · intro k
      rw [← hkept k]
      cases k <;> rfl

/-- Building adds an automaton, on new states, to a bench that keeps the tree. -/
theorem build_spec (hb : b.Good strict t) : ∃ (b₁ : Bench) (h : Handle) (w' : Workspace),
    Access.build b = .ok h { b₁ with workspace := w' } ∧ b₁.Good strict t ∧
      b₁.workspace = b.workspace ∧ (∀ k, b₁.regex.keptAt k = b.regex.keptAt k) ∧
        b₁.workspace.Adds w' .nfa h strict t.language ∧
          w'.graph = (t.automaton ⟨b₁.workspace.graph, 0⟩).2.graph ∧
            w'.automaton h = { (t.automaton ⟨b₁.workspace.graph, 0⟩).1 with strict } := by
  obtain ⟨b₁, htree, hb₁, hworkspace, hkept⟩ := tree_spec hb
  have ht : t.Feasible := t.feasible_of_written (Parser.written_of_parse hb.reads)
  obtain ⟨next, w₁, w₂, hbuild, halter, hadds, hgraph, hautomaton⟩ :=
    Work.build_spec ht b₁.workspace strict
  obtain ⟨log, hfinish⟩ := finish_eq .nfa b₁.workspace.automata.size { b₁ with workspace := w₂ }
  refine ⟨b₁, _, { w₂ with log := log }, ?_, hb₁, hworkspace, hkept, hadds.logged log, hgraph,
    hautomaton⟩
  rw [← hb₁.strict_eq] at halter
  simp only [build, outcome_bind, htree, outcome_get, work_eq_ok hbuild,
    work_eq_ok (b := { b₁ with workspace := w₁ }) halter, hfinish]
  rfl

/-! ## Accesses that keep a condition -/

/-- Where a condition on benches holds, the access leads to an automaton, which another
condition holds of, and to where the first condition holds again. -/
def Leads (I : Bench → Prop) (K : Bench → Handle → Prop) (x : Access Handle) : Prop :=
  ∀ b, I b → ∃ h b', x b = .ok h b' ∧ I b' ∧ K b' h

/-- Work on the automaton that an access leads to. The access may make the automaton, so the work
begins in the workspace that it leaves. -/
theorem leads_work {I : Bench → Prop} {K K' : Bench → Handle → Prop} {x : Access Handle}
    {f : Handle → Work Handle} (hx : Leads I K x)
    (hf : ∀ b h, I b → K b h → ∃ k w', f h b.workspace = .ok k w' ∧
      I { b with workspace := w' } ∧ K' { b with workspace := w' } k) :
    Leads I K' (do work (f (← x))) := by
  intro b hb
  obtain ⟨h, b', hrun, hb', hK⟩ := hx b hb
  obtain ⟨k, w', hwork, hI, hK'⟩ := hf b' h hb' hK
  refine ⟨k, _, ?_, hI, hK'⟩
  simp only [outcome_bind, hrun, work_eq_ok hwork]

/-- A condition on benches that holds on while automata are made, noted and kept, and for each
stage a condition on the automata that are made for it. An automaton is kept for a stage only
if none was when it began to be made. -/
structure Tended (I : Bench → Prop) (K : Stage → Bench → Handle → Prop) : Prop where
  build : Leads I (K .nfa) Access.build
  free : Leads I (K .epsilonFree) (do
    let h ← Access.build
    work (.on h .removeEpsilons)
    return h)
  determinize : ∀ b h, I b → K .epsilonFree b h → ∃ k w',
    Work.determinize h b.workspace = .ok k w' ∧
      I { b with workspace := w' } ∧ K .dfa { b with workspace := w' } k
  minimize : ∀ b h, I b → K .dfa b h → ∃ k w', Work.minimize h b.workspace = .ok k w' ∧
    I { b with workspace := w' } ∧ K .minimalDfa { b with workspace := w' } k
  log : ∀ b s h log, I b → K s b h →
    I { b with workspace := { b.workspace with log := log } } ∧
      K s { b with workspace := { b.workspace with log := log } } h
  keep : ∀ b b' s h, I b → b.regex.keptAt s = none → I b' → K s b' h →
    I { b' with regex := b'.regex.keepAt s h }
  kept : ∀ b s h, I b → b.regex.keptAt s = some h → K s b h

namespace Tended

variable {I : Bench → Prop} {K : Stage → Bench → Handle → Prop} {x : Access Handle}

/-- An access may note at its end that its stage is finished. -/
theorem finish (hI : Tended I K) (hx : Leads I (K s) x) :
    Leads I (K s) (do let h ← x; Access.finish s h; return h) := by
  intro b hb
  obtain ⟨h, b', hrun, hb', hK⟩ := hx b hb
  obtain ⟨log, hfinish⟩ := finish_eq s h b'
  obtain ⟨hI', hK'⟩ := hI.log b' s h log hb' hK
  refine ⟨h, _, ?_, hI', hK'⟩
  simp only [outcome_bind, hrun, hfinish]
  rfl

/-- An access that keeps what it leads to for a stage leads to it ever after. If something is kept
already, that is what it leads to. -/
theorem keeping (hI : Tended I K) (hx : Leads I (K s) x) :
    Leads I (fun b h => b.regex.keptAt s = some h)
      (Access.keeping (·.keptAt s) (fun r h => r.keepAt s h) x) := by
  intro b hb
  cases hkept : b.regex.keptAt s with
  | some h => exact ⟨h, b, keeping_kept hkept, hb, hkept⟩
  | none =>
    obtain ⟨h, b', hrun, hb', hK⟩ := hx b hb
    have hkeeps : (b'.regex.keepAt s h).keptAt s = some h := by rw [keptAt_keepAt, if_pos rfl]
    exact ⟨h, _, keeping_made hkept hrun, hI.keep b b' s h hb hkept hb' hK, hkeeps⟩

/-- What is kept is as it was made. -/
theorem leads_of_kept (hI : Tended I K)
    (hx : Leads I (fun b h => b.regex.keptAt s = some h) x) : Leads I (K s) x := by
  intro b hb
  obtain ⟨h, b', hrun, hb', hkept⟩ := hx b hb
  exact ⟨h, b', hrun, hb', hI.kept b' s h hb' hkept⟩

/-- The stage without silent edges leads to an automaton that is kept for it. -/
theorem epsilonFree (hI : Tended I K) :
    Leads I (fun b h => b.regex.keptAt .epsilonFree = some h) Access.epsilonFree := by
  have hfinished := hI.keeping (hI.finish hI.free)
  simp only [bind_assoc, pure_bind] at hfinished
  exact hfinished

/-- So does the deterministic stage. It asks for the one without silent edges first, and works on
what is kept for it. -/
theorem dfa (hI : Tended I K) : Leads I (fun b h => b.regex.keptAt .dfa = some h) Access.dfa := by
  have hmade : Leads I (K .dfa) (do work (.determinize (← Access.epsilonFree))) :=
    leads_work (hI.leads_of_kept hI.epsilonFree) hI.determinize
  have hfinished := hI.keeping (hI.finish hmade)
  simp only [bind_assoc] at hfinished
  exact hfinished

/-- So does the smallest one, which asks for the deterministic one. -/
theorem minimalDfa (hI : Tended I K) :
    Leads I (fun b h => b.regex.keptAt .minimalDfa = some h) Access.minimalDfa := by
  -- the access as it is without the note at its end
  have hmade : Leads I (K .minimalDfa) (do work (.minimize (← Access.dfa))) :=
    leads_work (hI.leads_of_kept hI.dfa) hI.minimize
  have hfinished := hI.keeping (hI.finish hmade)
  simp only [bind_assoc] at hfinished
  exact hfinished

/-- Each stage leads to an automaton that is kept for it. -/
theorem stage (hI : Tended I K) (s : Stage) :
    Leads I (fun b h => b.regex.keptAt s = some h) (Access.stage s) := by
  cases s with
  | nfa => exact hI.keeping hI.build
  | epsilonFree => exact hI.epsilonFree
  | dfa => exact hI.dfa
  | minimalDfa => exact hI.minimalDfa

end Tended

/-! ## Accesses from good benches -/

/-- From a good bench the access leads to an automaton for a stage, and to a good bench. -/
def Yields (strict : Bool) (t : Tree) (x : Access Handle) (s : Stage) : Prop :=
  Leads (Bench.Good strict t) (fun b h => b.workspace.Offers s h strict t.language) x

/-- Good benches are tended: what each step makes is offered for its stage, and keeping it keeps the
bench good. -/
theorem tended_good :
    Tended (Bench.Good strict t) (fun s b h => b.workspace.Offers s h strict t.language) where
  build b hb := by
    obtain ⟨b₁, h, w', hbuild, hb₁, _, _, hadds, _⟩ := build_spec hb
    exact ⟨h, _, hbuild, hb₁.later hadds.grows.later, hadds.offers⟩
  free b hb := by
    obtain ⟨b₁, h, w', hbuild, hb₁, _, _, hadds, _⟩ := build_spec hb
    obtain ⟨m, hrun, _, hfree⟩ := Work.removeEpsilons_spec hadds
    refine ⟨h, _, ?_, hb₁.later hfree.grows.later, hfree.offers⟩
    simp only [outcome_bind, hbuild, work_eq_ok (b := { b₁ with workspace := w' }) hrun]
    rfl
  determinize b h hb hoffers := by
    obtain ⟨k, w', hrun, hadds, _⟩ := Work.determinize_spec hoffers
    exact ⟨k, w', hrun, hb.later hadds.grows.later, hadds.offers⟩
  minimize b h hb hoffers := by
    obtain ⟨k, w', hrun, hadds, _⟩ := Work.minimize_spec hoffers
    exact ⟨k, w', hrun, hb.later hadds.grows.later, hadds.offers⟩
  log b s h log hb hoffers :=
    have hlater := (Workspace.Grows.logged b.workspace log).later
    ⟨hb.later hlater, hoffers.later hlater⟩
  keep _ _ _ _ _ _ hb hoffers := hb.keepAt hoffers
  kept b s h hb hkept := hb.kept s h hkept

/-- Each stage yields its automaton. -/
theorem yields_stage (s : Stage) : Yields strict t (Access.stage s) s :=
  tended_good.leads_of_kept (tended_good.stage s)

end Access

end Regex

end PatternAutomata
