/-
The automaton of a tree.

A tree need not have been read from a pattern: its parts may have been put together in any
way, its repetitions may have any range, and it may be a choice between no options at all.
Its automaton accepts what the tree describes, whatever the graph holds already, whichever
identifiers are still to be used, and whatever symbols it is given to read
(`Work.build_accepts`).

The induction over the tree is done where fragments are put together (`Tree.builds`); what a
fragment starts with, and why a repetition may need a start state of its own, is said there.
-/
import PatternAutomata.Proofs.Patterns.Workspaces

set_option autoImplicit false

namespace PatternAutomata

/-- The automaton of a tree is sound, not strict, and accepts what the tree describes. -/
theorem Tree.recognizes_automaton (t : Tree) (s : Supply) :
    (t.automaton s).1.Sound (t.automaton s).2.graph ∧
      (t.automaton s).1.discarded = false ∧ (t.automaton s).1.strict = false ∧
        (t.automaton s).1.language (t.automaton s).2.graph = t.language := by
  -- nothing is asked of the parts: none of them need describe a word
  have hbuilt := t.builds (fun h : False => h.elim) s
  have hlive : (t.build s).1.discarded = false := by rw [hbuilt.plain]
  have hstrict : (t.build s).1.strict = false := by rw [hbuilt.plain]
  exact ⟨hbuilt.sound.begun, hlive, hstrict, hbuilt.language_eq⟩

/-- Every tree has an automaton, and it accepts exactly the words that the tree describes. -/
theorem Work.build_accepts (t : Tree) (nextId : Int) (w : Workspace) :
    ∃ h next w', Work.build t nextId w = .ok (h, next) w' ∧
      ∀ word, ∃ answer w'', Work.on h (.accepts word) w' = .ok answer w'' ∧
        (answer = true ↔ word ∈ t.language) := by
  obtain ⟨hsound, hlive, hstrict, hlanguage⟩ := t.recognizes_automaton ⟨w.graph, nextId⟩
  generalize hmade : t.automaton ⟨w.graph, nextId⟩ = made at hsound hlive hstrict hlanguage
  obtain ⟨a, s⟩ := made
  let w' : Workspace := ⟨s.graph, w.automata.push a, w.log⟩
  have hbuild : Work.build t nextId w = .ok (w.automata.size, s.nextId) w' := by
    simp only [build, outcome_bind, outcome_get, hmade, outcome_set, addAutomaton, outcome_pure]
    rfl
  have hmachine : w'.machine w.automata.size = ⟨s.graph, a, w.log⟩ := by
    rw [Workspace.machine, Workspace.automaton_push]
  refine ⟨_, _, w', hbuild, ?_⟩
  intro word
  have hread : ∀ l ∈ word, Edit.Readable a l := fun _ _ => Or.inr hstrict
  obtain ⟨answer, m, haccepts, _, hanswer⟩ :=
    Edit.accepts_spec (m := ⟨s.graph, a, w.log⟩) hsound hlive hread
  rw [← hmachine] at haccepts
  rw [← hlanguage]
  exact ⟨answer, _, on_eq_ok haccepts, hanswer⟩

end PatternAutomata
