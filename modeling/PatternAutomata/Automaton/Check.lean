/-
The structure of an automaton.

An automaton is well formed if its start state is its only state flagged as start, its
identifiers differ, no label has an entry without states, every edge stays inside and is
noted at its target, everything that is noted at a target is an edge, and every state
counts its incoming edges rightly.

The check looks for the first violation: the start first, then the identifiers, then all
edges, then what is noted at each state. States are taken in the order of their
identifiers, labels in their own order.
-/
import PatternAutomata.Automaton.Basic

set_option autoImplicit false

namespace PatternAutomata.Automaton

/-- The states of an automaton by identifier; states with the same one by what is shown
of them. -/
def statesToCheck (g : Graph) (a : Automaton) : List Vertex :=
  g.sortById (a.states.toList.mergeSort fun v w =>
    (compare (g.caption v).text (g.caption w).text).isLE)

/-- A start state that is not flagged, or another state that is. -/
def startViolation? (g : Graph) (a : Automaton) (vs : List Vertex) : Option Violation :=
  let flagged := vs.filter fun v => (g.node v).isStart
  if flagged = [a.start] then none
  else some (.strayStarts (g.caption a.start) (flagged.map g.caption))

/-- Two states with the same identifier. -/
def idViolation? (g : Graph) (vs : List Vertex) : Option Violation :=
  if (vs.map fun v => (g.node v).id).Nodup then none else some .repeatedIds

/-- The number of edges into a state from states of the automaton. -/
def incoming (g : Graph) (a : Automaton) (v : Vertex) : Nat :=
  a.states.toList.foldl
    (fun n u => n + (g.node u).next.entries.countP fun e => decide (v ∈ e.2)) 0

/-- The first violation that a table shows: an entry without states, or a state that is
noted wrongly. -/
def tableViolation? (g : Graph) (t : Table) (emptyEntry : Label → Violation)
    (noted? : Label → Vertex → Option Violation) : Option Violation :=
  t.entries.findSome? fun (l, vs) =>
    if vs.isEmpty then some (emptyEntry l) else (g.inOrder vs).findSome? (noted? l)

/-- What is wrong with an edge. -/
def edgeViolation? (g : Graph) (a : Automaton) (v : Vertex) (l : Label) (w : Vertex) :
    Option Violation :=
  if w ∉ a.states then some (.leavesAutomaton (g.caption v) l (g.caption w))
  else if v ∉ g.origins w l then some (.noInverseEntry (g.caption v) l (g.caption w))
  else none

/-- What is wrong with the edges out of a state. -/
def nextViolation? (g : Graph) (a : Automaton) (v : Vertex) : Option Violation :=
  tableViolation? g (g.node v).next (.emptyEntry (g.caption v)) (edgeViolation? g a v)

/-- What is wrong with a state that is noted as the source of an edge. -/
def originViolation? (g : Graph) (v : Vertex) (l : Label) (u : Vertex) : Option Violation :=
  if v ∉ g.destinations u l then some (.noForwardEdge (g.caption u) l (g.caption v)) else none

/-- What is wrong with what is noted at a state. -/
def previousViolation? (g : Graph) (a : Automaton) (v : Vertex) : Option Violation :=
  if (g.node v).indegree ≠ incoming g a v then
    some (.wrongIndegree (g.caption v) (g.node v).indegree (incoming g a v))
  else
    tableViolation? g (g.node v).previous (.emptyInverseEntry (g.caption v)) (originViolation? g v)

/-- The first violation of the structure of an automaton. -/
def violation? (g : Graph) (a : Automaton) : Option Violation :=
  let vs := statesToCheck g a
  (startViolation? g a vs).or
    ((idViolation? g vs).or
      ((vs.findSome? (nextViolation? g a)).or
        (vs.findSome? (previousViolation? g a))))

end PatternAutomata.Automaton
