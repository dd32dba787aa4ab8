/-
Removing the edges that read nothing from any automaton that passes the check.

What the check says nothing about (the alphabet, how far the automaton has read, how many places
of the graph are filled) does not matter for removing edges. So what is known of removing them
from a sound automaton carries over from the settled automaton, which is sound and has the same
states (`Edit.removeEpsilons_of_check`).
-/
import PatternAutomata.Proofs.Renaming.Settling
import PatternAutomata.Proofs.Structure.Outcomes
import PatternAutomata.Proofs.Words.SilentEdges

set_option autoImplicit false

namespace PatternAutomata

namespace Graph

variable {g h : Graph}

/-- Graphs with the same states accept the same words, however many places are filled. -/
theorem languageFrom_eq_of_node_eq (node_eq : ∀ v, h.node v = g.node v) (v : Vertex) :
    h.languageFrom v = g.languageFrom v := by
  apply languageFrom_congr (P := fun _ => True)
  · exact fun _ _ _ _ _ => trivial
  · intro v _ l
    rw [destinations, node_eq, destinations]
  · intro v _
    rw [node_eq]
  · trivial

end Graph

/-! ## The edit -/

/-- An automaton without silent edges and without empty entries has no entry for them. The test
looks at entries, so it could find one that is empty if the check had not excluded that. -/
theorem Automaton.hasEpsilons_eq_false {g : Graph} {a : Automaton} (ha : a.WellFormed g)
    (hnone : ∀ v ∈ a.states, g.destinations v .epsilon = ∅) : a.hasEpsilons g = false := by
  rw [hasEpsilons, List.any_eq_false]
  intro v hv
  have hdest := hnone v (OrdSet.mem_toList.1 hv)
  have hentry := ha.next_ne_empty v (OrdSet.mem_toList.1 hv) .epsilon
  rw [Graph.destinations, Table.under] at hdest
  rw [OrdMap.contains, Option.isSome_iff_ne_none, not_not]
  cases hget : (g.node v).next.get? .epsilon with
  | none => rfl
  | some vs =>
    rw [hget, Option.getD_some] at hdest
    exact absurd (hget.trans (congrArg some hdest)) hentry

/-- An edit that takes states and silent edges out, and nothing else that matters for words. -/
structure Machine.Eliminates (m m' : Machine) : Prop where
  states_sub : ∀ v ∈ m'.automaton.states, v ∈ m.automaton.states
  hasEpsilons_eq : m'.automaton.hasEpsilons m'.graph = false
  violation?_eq : m'.automaton.violation? m'.graph = none
  closed : m'.automaton.Closed m'.graph
  languageFrom_eq : ∀ v ∈ m'.automaton.states, m'.graph.languageFrom v = m.graph.languageFrom v
  language_eq : m'.automaton.language m'.graph = m.automaton.language m.graph

/-- Whatever automaton passes the check and has what is noted at its states among them, removing
its silent edges comes to an end and leaves none; every state that is left accepts what it
accepted before, and so does the automaton. -/
theorem Edit.removeEpsilons_of_check {m : Machine}
    (check : m.automaton.violation? m.graph = none) (closed : m.automaton.Closed m.graph)
    (hlive : m.automaton.discarded = false) :
    ∃ m', Edit.removeEpsilons m = .ok () m' ∧ m.Eliminates m' := by
  have hm := And.intro (Automaton.violation?_eq_none_iff.1 check) closed
  obtain ⟨n, hrun, hkeeps, hnone⟩ := Machine.removeEpsilons_spec (Machine.sound_settled hm)
  obtain ⟨m', hrun', hmirrors⟩ := m.mirrors_settled.removeEpsilons hrun
  have hnode : ∀ v, m'.graph.node v = n.graph.node v := fun v =>
    (hmirrors.graph.node_eq v).trans (Graph.rename_id _)
  have hstates : m'.automaton.states = n.automaton.states :=
    hmirrors.states_eq.trans (OrdSet.image_id _)
  have hstart : m'.automaton.start = n.automaton.start := hmirrors.start_eq
  obtain ⟨hwell, hclosed⟩ := Automaton.wellFormed_closed_congr
    (And.intro hkeeps.sound.wellFormed hkeeps.sound.closed) hstart hstates hnode
  -- all states are the same, and with them what they accept
  have hlanguage := Graph.languageFrom_eq_of_node_eq hnode
  have hbefore : ∀ v, m.settled.graph.languageFrom v = m.graph.languageFrom v :=
    Graph.languageFrom_eq_of_node_eq (Graph.node_fill _)
  refine ⟨m', ?_, ?_⟩
  · simp only [Edit.removeEpsilons, outcome_bind_fun, live_eq_ok hlive, hrun']
  · constructor
    · rw [hstates]
      exact hkeeps.states_sub
    · apply Automaton.hasEpsilons_eq_false hwell
      intro v hv
      rw [hstates] at hv
      rw [Graph.destinations, hnode]
      exact hnone v hv
    · exact Automaton.violation?_eq_none_iff.2 hwell
    · exact hclosed
    · intro v hv
      rw [hstates] at hv
      rw [hlanguage, hkeeps.languageFrom_eq v hv, hbefore]
    · have hkept := hkeeps.language_eq
      rw [Automaton.language, Automaton.language, hbefore] at hkept
      rw [Automaton.language, hlanguage, hstart, hkept]
      rfl

/-- Two states that lead to each other without reading, one of them to itself as well, beside one
that is out of reach. -/
theorem Edit.removeEpsilons_silentRound :
    silentRound.automaton.violation? silentRound.graph = none ∧
      silentRound.automaton.Closed silentRound.graph ∧ silentRound.automaton.discarded = false ∧
        ∃ m', Edit.removeEpsilons silentRound = .ok () m' ∧ silentRound.Eliminates m' := by
  have hcheck := Automaton.violation?_eq_none_iff.2 sound_silentRound.wellFormed
  have hclosed := sound_silentRound.closed
  exact ⟨hcheck, hclosed, rfl, Edit.removeEpsilons_of_check hcheck hclosed rfl⟩

end PatternAutomata
