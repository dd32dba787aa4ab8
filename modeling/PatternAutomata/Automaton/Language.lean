/-
The words that an automaton accepts.

A word is accepted from a state if some path that spells it ends in an accepting state.
Whether a word is accepted can be found out by reading it (`mem_languageFrom_iff`).
-/
import Mathlib.Computability.Language
import Mathlib.Order.CompletePartialOrder
import PatternAutomata.Automaton.Basic
import PatternAutomata.Graph.Path

set_option autoImplicit false

namespace PatternAutomata

namespace Graph

/-- The words that lead from a state to acceptance. -/
def languageFrom (g : Graph) (v : Vertex) : Language Label :=
  { word | ∃ w, Path g v word w ∧ (g.node w).isAccepting = true }

/-- What it is to be accepted from a state, spelled out. -/
theorem mem_languageFrom {g : Graph} {v : Vertex} {word : List Label} :
    word ∈ g.languageFrom v ↔ ∃ w, Path g v word w ∧ (g.node w).isAccepting = true := Iff.rfl

/-- What is accepted from a state after an edge that reads nothing is accepted before it. The
converse is what has to be earned when silent edges are removed. -/
theorem languageFrom_le_of_mem_destinations {g : Graph} {v w : Vertex}
    (h : w ∈ g.destinations v .epsilon) : g.languageFrom w ≤ g.languageFrom v := by
  intro word ⟨u, hu, hacc⟩
  exact ⟨u, .silent h hu, hacc⟩

/-- Reading a word finds out whether it is accepted. The word is one of symbols only, as all words
are that are made from a text. -/
theorem mem_languageFrom_iff {g : Graph} {v : Vertex} {word : List Label}
    (hword : .epsilon ∉ word) :
    word ∈ g.languageFrom v ↔ g.anyAccepting (g.ends {v} word) = true := by
  simp only [mem_languageFrom, anyAccepting_iff, mem_ends_singleton_iff hword]

end Graph

/-- The words that an automaton accepts from its start state. -/
def Automaton.language (g : Graph) (a : Automaton) : Language Label := g.languageFrom a.start

end PatternAutomata
