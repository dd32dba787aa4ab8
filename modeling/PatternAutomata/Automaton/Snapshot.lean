/-
What can be seen of an automaton.

A snapshot shows an automaton by identifiers and not by places, so that automata can be
compared wherever their states lie in a graph. Two automata with the same snapshot have
the same states, edges and flags as far as identifiers tell.
-/
import PatternAutomata.Automaton.Basic

set_option autoImplicit false

namespace PatternAutomata

/-- A state as it is seen: the states at the other ends of its edges are given by their
identifiers, one for each state, in ascending order. -/
structure StateView where
  id : Int
  name : String
  isStart : Bool
  isAccepting : Bool
  isTrap : Bool
  indegree : Int
  next : List (Label × List Int)
  previous : List (Label × List Int)
  standsFor : List Int
  deriving DecidableEq

/-- An automaton as it is seen, its states by identifier. -/
structure Snapshot where
  start : Int
  alphabet : List Label
  strict : Bool
  discarded : Bool
  states : List StateView
  deriving DecidableEq

/-- How far an automaton has read, as it is seen. -/
structure RunView where
  current : List Int
  position : Nat
  visits : List (Int × Nat)
  pumping : Option (Nat × Nat)
  isAccepting : Bool
  deriving DecidableEq

namespace Graph

/-- The entries of a table by identifiers. -/
def tableView (g : Graph) (t : Table) : List (Label × List Int) :=
  t.entries.map fun (l, vs) => (l, g.ids vs)

/-- A state as it is seen. -/
def stateView (g : Graph) (v : Vertex) : StateView :=
  let n := g.node v
  { id := n.id, name := n.name, isStart := n.isStart, isAccepting := n.isAccepting,
    isTrap := n.isTrap, indegree := n.indegree, next := g.tableView n.next,
    previous := g.tableView n.previous, standsFor := g.ids n.standsFor }

end Graph

namespace Automaton

/-- An automaton as it is seen. -/
def snapshot (g : Graph) (a : Automaton) : Snapshot where
  start := (g.node a.start).id
  alphabet := a.alphabet.toList
  strict := a.strict
  discarded := a.discarded
  states := (g.inOrder a.states).map g.stateView

/-- How far an automaton has read, as it is seen. -/
def runView (g : Graph) (a : Automaton) : RunView where
  current := g.ids a.run.current
  position := a.run.position
  visits := (a.run.visits.entries.map fun (v, i) => ((g.node v).id, i)).mergeSort fun x y =>
    x.1 < y.1 || (x.1 == y.1 && x.2 ≤ y.2)
  pumping := a.run.pumping
  isAccepting := g.anyAccepting a.run.current

end Automaton

end PatternAutomata
