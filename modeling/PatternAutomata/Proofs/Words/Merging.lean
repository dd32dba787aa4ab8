/-
Merging states that accept the same words.

A state that is given the edges of another one can do what that one can, and nothing more if it
could do all of that before. The new edges may lead back to either of the two, and where they are
turned from the one to the other they lead to a state that accepts the same. So the words that the
states accepted before are a family that is closed against the new edges as well
(`Folding.languageFrom_copy`), and this needs no look at the runs that go through the two states
again and again.

Nothing is asked of the automaton but that its check finds no violation.
-/
import PatternAutomata.Proofs.Structure.Outcomes
import PatternAutomata.Proofs.Words.Folding

set_option autoImplicit false

namespace PatternAutomata

namespace Machine

variable {m : Machine} {other target : Vertex}

/-- The automaton of a machine has the same states in another one, each of them accepts the same
words there, and so does the automaton. -/
structure SameWords (m m' : Machine) : Prop where
  states_eq : m'.automaton.states = m.automaton.states
  languageFrom_eq : ∀ v ∈ m.automaton.states, m'.graph.languageFrom v = m.graph.languageFrom v
  language_eq : m'.automaton.language m'.graph = m.automaton.language m.graph

theorem SameWords.refl (m : Machine) : m.SameWords m := ⟨rfl, fun _ _ => rfl, rfl⟩

/-- If a state and its replacement accept the same words, merging moves the start between states
that accept the same, if it moves it, and turns edges from the one to the other. So the copied edges
lead where no more is accepted than before. -/
theorem sameWords_merged (hwell : m.automaton.WellFormed m.graph)
    (ho : other ∈ m.automaton.states) (ht : target ∈ m.automaton.states)
    (heq : m.graph.languageFrom other = m.graph.languageFrom target) :
    m.SameWords (m.merged other target) := by
  have hlang := Folding.languageFrom_copy (g := m.graph) (fun _ _ _ => mem_destinations_merged)
    isAccepting_merged heq.le fun x => by
      split
      · next hx => rw [hx, heq]
      · exact le_rfl
  refine ⟨states_merged (hwell.target_mem other ho) ht, fun v _ => hlang v, ?_⟩
  rw [Automaton.language, Automaton.language, hlang, start_merged]
  split
  · next hmoved => rw [← hmoved, heq]
  · rfl

/-- For absorbing it is enough that the other state accepts no more, as no edge is turned and the
start stays. -/
theorem sameWords_absorb (hwell : m.automaton.WellFormed m.graph)
    (ho : other ∈ m.automaton.states) (ht : target ∈ m.automaton.states)
    (hle : m.graph.languageFrom other ≤ m.graph.languageFrom target) :
    m.SameWords (m.absorb other target) := by
  have hstates := states_absorb (hwell.target_mem other ho) ht
  by_cases hne : other = target
  · rw [absorb, if_pos hne]
    exact .refl m
  · rw [absorb_eq hne] at hstates ⊢
    have hlang := Folding.languageFrom_copy (f := id) (g := m.graph)
      (fun _ _ _ => mem_destinations_copyOnto) isAccepting_copyOnto hle fun _ => le_rfl
    refine ⟨hstates, fun v _ => hlang v, ?_⟩
    rw [Automaton.language, Automaton.language, hlang, start_copyOnto]

end Machine

namespace Edit

variable {m : Machine} {other target : Vertex}

/-- Merging two states of an automaton that passes its check succeeds and keeps all that is
accepted if the two accept the same words, and so does absorbing the one into the other if that
one accepts no less. -/
theorem merge_absorb_sameWords (hlive : m.automaton.discarded = false)
    (hcheck : m.automaton.violation? m.graph = none) (ho : other ∈ m.automaton.states)
    (ht : target ∈ m.automaton.states) :
    (m.graph.languageFrom other = m.graph.languageFrom target →
      ∃ m', Edit.merge other target m = .ok () m' ∧ m.SameWords m') ∧
    (m.graph.languageFrom other ≤ m.graph.languageFrom target →
      ∃ m', Edit.absorb other target m = .ok () m' ∧ m.SameWords m') := by
  have hwell := Automaton.violation?_eq_none_iff.1 hcheck
  constructor
  · intro heq
    have hmerge : Edit.merge other target m = m.merge other target := by
      simp only [Edit.merge, outcome_bind_fun, live_eq_ok hlive]
    rw [hmerge]
    by_cases hne : other = target
    · rw [Machine.merge, if_pos hne]
      exact ⟨m, rfl, .refl m⟩
    · exact ⟨_, Machine.merge_eq_ok (hwell.isStart_iff other ho) hne,
        Machine.sameWords_merged hwell ho ht heq⟩
  · intro hle
    refine ⟨m.absorb other target, ?_, Machine.sameWords_absorb hwell ho ht hle⟩
    simp only [Edit.absorb, outcome_bind, live_eq_ok hlive, outcome_modify]

/-- Two states that lead to each other without reading accept the same words. -/
theorem merge_absorb_sameWords_silentRound : silentRound.automaton.discarded = false ∧
    silentRound.automaton.violation? silentRound.graph = none ∧
    silentRound.graph.languageFrom 0 = silentRound.graph.languageFrom 1 ∧
    (∃ m', Edit.merge 0 1 silentRound = .ok () m' ∧ silentRound.SameWords m') ∧
      ∃ m', Edit.absorb 0 1 silentRound = .ok () m' ∧ silentRound.SameWords m' := by
  have hcheck := Automaton.violation?_eq_none_iff.2 sound_silentRound.wellFormed
  have hforth : 1 ∈ silentRound.graph.destinations 0 .epsilon := by
    rw [silentRound, Machine.graph_connectAll, Graph.mem_destinations_linkAll]
    exact Or.inr (by decide)
  have hback : 0 ∈ silentRound.graph.destinations 1 .epsilon := by
    rw [silentRound, Machine.graph_connectAll, Graph.mem_destinations_linkAll]
    exact Or.inr (by decide)
  have heq : silentRound.graph.languageFrom 0 = silentRound.graph.languageFrom 1 :=
    le_antisymm (Graph.languageFrom_le_of_mem_destinations hback)
      (Graph.languageFrom_le_of_mem_destinations hforth)
  have hkept := merge_absorb_sameWords rfl hcheck
    (by decide : 0 ∈ silentRound.automaton.states) (by decide : 1 ∈ silentRound.automaton.states)
  exact ⟨rfl, hcheck, heq, hkept.1 heq, hkept.2 heq.le⟩

end Edit

end PatternAutomata
