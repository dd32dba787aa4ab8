/-
Working on several automata.

A workspace holds one graph, the automata over it and the log. Work on one automaton is
an `Edit` of the machine made of that automaton, the graph and the log. Joining two of
them leaves the second one without states; an automaton cannot be joined to itself.
-/
import PatternAutomata.Automaton.Check
import PatternAutomata.Automaton.Epsilon
import PatternAutomata.Automaton.Quotient
import PatternAutomata.Automaton.Snapshot
import PatternAutomata.Automaton.Trap
import PatternAutomata.Automaton.View
import PatternAutomata.Fragment

set_option autoImplicit false

namespace PatternAutomata

/-- The number of an automaton in a workspace. -/
abbrev Handle := Nat

/-- Several automata over one graph, and the log. -/
structure Workspace where
  graph : Graph := ∅
  automata : Array Automaton := #[]
  log : Array Event := #[]

/-- A change to a workspace that may fail. -/
abbrev Work := EStateM Fault Workspace

namespace Workspace

/-- An automaton of the workspace. -/
def automaton (w : Workspace) (h : Handle) : Automaton := w.automata.getD h default

/-- The machine of an automaton. -/
def machine (w : Workspace) (h : Handle) : Machine := ⟨w.graph, w.automaton h, w.log⟩

/-- The workspace after its machine for an automaton has changed. -/
def putBack (w : Workspace) (h : Handle) (m : Machine) : Workspace :=
  ⟨m.graph, w.automata.setIfInBounds h m.automaton, m.log⟩

/-- Adds an automaton. -/
def add (w : Workspace) (a : Automaton) : Handle × Workspace :=
  (w.automata.size, { w with automata := w.automata.push a })

end Workspace

namespace Work

/-- Works on one automaton. -/
def on {α : Type} (h : Handle) (x : Edit α) : Work α := fun w =>
  match x (w.machine h) with
  | .ok r m => .ok r (w.putBack h m)
  | .error f m => .error f (w.putBack h m)

/-- Puts a state into the graph. -/
def addState (n : Node) : Work Vertex := do
  let w ← get
  let (v, g) := w.graph.add n
  set { w with graph := g }
  return v

/-- Changes a state, whatever automata it lives in. -/
def changeState (v : Vertex) (f : Node → Node) : Work Unit :=
  modify fun w => { w with graph := w.graph.update v f }

/-- Changes an automaton directly. -/
def alter (h : Handle) (f : Automaton → Automaton) : Work Unit :=
  modify fun w => { w with automata := w.automata.modify h f }

/-- Adds an automaton. -/
def addAutomaton (a : Automaton) : Work Handle := do
  let (h, w) := (← get).add a
  set w
  return h

/-- Makes an automaton of states of the graph. -/
def assemble (start : Vertex) (states : VertexSet) (alphabet : Alphabet) (strict : Bool) :
    Work Handle := do
  match Automaton.fresh? (← get).graph start states alphabet strict with
  | .ok a => addAutomaton a
  | .error f => throw f

/-- Builds the automaton of a tree with identifiers from a given one on, and answers with
the first identifier that was not used. -/
def build (t : Tree) (nextId : Int) : Work (Handle × Int) := do
  let w ← get
  let (a, s) := t.automaton ⟨w.graph, nextId⟩
  set { w with graph := s.graph }
  return (← addAutomaton a, s.nextId)

/-- Works on one automaton with another one that is to be joined to it. The latter is
left without states if that succeeds. -/
def joining {α : Type} (operation : Operation) (h other : Handle)
    (x : Automaton → Edit α) : Work α := do
  let w ← get
  on h (Edit.live operation)
  if h = other then throw .spliceIntoItself
  let r ← on h (x (w.automaton other))
  alter other (·.handedOver)
  return r

/-- Takes the states of another automaton over into one. -/
def splice (h other : Handle) : Work Vertex := joining .splice h other Edit.splice

/-- Makes an automaton read on in another one. -/
def append (h other : Handle) : Work Unit := joining .append h other Edit.append

/-- Hands the states of an automaton over to nobody. -/
def discard (h : Handle) : Work Unit := alter h (·.handedOver)

/-- Adds the automaton that the subset construction makes of another one. -/
def determinize (h : Handle) : Work Handle := do addAutomaton (← on h Edit.determinize)

/-- Adds the smallest deterministic automaton for another one. -/
def minimize (h : Handle) : Work Handle := do addAutomaton (← on h Edit.minimize)

/-- Adds an event to the log. -/
def note (e : Event) : Work Unit := modify fun w => { w with log := w.log.push e }

end Work

end PatternAutomata
