/-
Moving the start, merging states and joining automata.

Merging gives one state all the edges of another; it is meant for states that accept
the same words, so an edge from the other state to itself becomes one from the target
to itself, and the start moves along. Absorbing only lets the target do what the other
state can do, so such an edge keeps leading to the other state and the start stays.

Joining moves the states of one automaton into another. The automaton that gives its
states away must not be used afterwards.
-/
import PatternAutomata.Automaton.Edges

set_option autoImplicit false

namespace PatternAutomata

namespace Machine

/-- Flags a state as start, or not. -/
def flagStart (m : Machine) (v : Vertex) (flag : Bool) : Machine :=
  m.onGraph (·.update v fun n => { n with isStart := flag })

/-- Flags a state as accepting, or not. -/
def flagAccepting (m : Machine) (v : Vertex) (flag : Bool) : Machine :=
  m.onGraph (·.update v fun n => { n with isAccepting := flag })

/-- The machine that starts in a new state and no longer in a former one. -/
def shiftStart (m : Machine) (former new : Vertex) : Machine :=
  ((m.flagStart former false).flagStart new true).onAutomaton fun a =>
    { a with start := new, states := a.states.insert new }

/-- Moves the start from one state to another. -/
def moveStart (m : Machine) (former new : Vertex) : EStateM.Result Fault Machine Unit :=
  if (m.graph.node former).isStart ∧ former = m.automaton.start then
    .ok () (m.shiftStart former new)
  else .error (.notCurrentStart (m.graph.caption former)) m

/-- The machine in which a state accepts if another one does. -/
def acceptLike (m : Machine) (other target : Vertex) : Machine :=
  if (m.graph.node other).isAccepting then m.flagAccepting target true else m

/-- Gives a state the acceptance and the edges of another, as they are. -/
def absorb (m : Machine) (other target : Vertex) : Machine :=
  if other = target then m
  else (m.acceptLike other target).connectAll
    ((m.graph.outEdges other).map fun (l, w) => ⟨target, l, w⟩)

/-- Gives a state the acceptance and the edges of another one that is to be replaced by
it. -/
def merge (m : Machine) (other target : Vertex) : EStateM.Result Fault Machine Unit :=
  if other = target then .ok () m
  else
    let m' := (m.acceptLike other target).connectAll
      ((m.graph.outEdges other).map fun (l, w) => ⟨target, l, if w = other then target else w⟩)
    if (m'.graph.node other).isStart then m'.moveStart other target else .ok () m'

/-- The machine that has taken over the states and the alphabet of another automaton. -/
def takeOver (m : Machine) (other : Automaton) : Machine :=
  m.onAutomaton fun a =>
    { a with states := a.states ∪ other.states, alphabet := a.alphabet ∪ other.alphabet }

/-- The machine that reads on in another automaton wherever it accepted. -/
def append (m : Machine) (other : Automaton) : Machine :=
  let finals := m.graph.inOrder (m.automaton.accepting m.graph)
  let joined := ((m.takeOver other).flagStart other.start false).connectAll
    (finals.map fun v => ⟨v, .epsilon, other.start⟩)
  finals.foldl (fun m v => m.flagAccepting v false) joined

end Machine

namespace Edit

/-- Moves the start from one state to another. -/
def moveStart (former new : Vertex) : Edit Unit := do
  live .moveStart
  fun m => m.moveStart former new

/-- Gives a state the edges of another one that is to be replaced by it. -/
def merge (other target : Vertex) : Edit Unit := do
  live .merge
  fun m => m.merge other target

/-- Lets a state do what another one can do. -/
def absorb (other target : Vertex) : Edit Unit := do
  live .absorb
  modify (·.absorb other target)

/-- Takes over the states of another automaton and answers with its start state. -/
def splice (other : Automaton) : Edit Vertex := do
  live .splice
  modify (·.takeOver other)
  return other.start

/-- Takes over the states of another automaton and reads on in it. -/
def append (other : Automaton) : Edit Unit := do
  live .append
  modify (·.append other)

end Edit

end PatternAutomata
