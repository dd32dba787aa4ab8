/-
States that lead to no acceptance.

A trap completes an automaton: wherever a state has no entry for a symbol, an edge leads
to the trap, which accepts nothing and never lets go. Independently of that, every state
from which no accepting state can be reached may be flagged as a trap.
-/
import PatternAutomata.Automaton.Merging

set_option autoImplicit false

namespace PatternAutomata

namespace Machine

/-- The states that have no entry for some symbol, with the symbol. -/
def missingSteps (m : Machine) : List (Vertex × Label) :=
  (m.graph.inOrder m.automaton.states).flatMap fun v =>
    (m.automaton.alphabet.toList.filter fun l => !(m.graph.node v).next.contains l).map
      fun l => (v, l)

/-- The greatest identifier of a state of the automaton. -/
def greatestId (m : Machine) : Int := (m.graph.ids m.automaton.states).getLastD 0

/-- Completes the automaton with a new trap, if it is not complete. -/
def addTrap (m : Machine) : Option Vertex × Machine :=
  match m.missingSteps with
  | [] => (none, m)
  | missing =>
    let (trap, g) := m.graph.add { id := m.greatestId + 1, name := "trap state", isTrap := true }
    (some trap, connectAll { m with graph := g }
      (missing.map (fun (v, l) => ⟨v, l, trap⟩) ++
        m.automaton.alphabet.toList.map fun l => ⟨trap, l, trap⟩))

/-- The states from which no accepting state can be reached, by the edges noted at their
targets. -/
def traps (m : Machine) : VertexSet :=
  let alive := m.graph.ancestors (m.automaton.accepting m.graph)
  m.automaton.states.filter fun v => v ∉ alive

/-- Flags exactly those states as traps that lead to no acceptance. -/
def markTraps (m : Machine) : Machine :=
  let traps := m.traps
  m.onGraph fun g => m.automaton.states.toList.foldl
    (fun g v => g.update v fun n => { n with isTrap := decide (v ∈ traps) }) g

end Machine

namespace Edit

/-- Completes the automaton and answers with the trap, if one was needed. -/
def addTrap : Edit (Option Vertex) := do
  live .addTrap
  let (trap, m) := (← get).addTrap
  set m
  return trap

/-- Flags the traps and answers with them. -/
def markTraps : Edit VertexSet := do
  live .markTraps
  let m ← get
  set m.markTraps
  return m.traps

end Edit

end PatternAutomata
