/-
Automata and the machines that run them.

An automaton picks out states of a graph: a start state and the set of states that live
in it. It also keeps its alphabet and how far it has read (`Run`). A `Machine` is an
automaton together with the graph that holds its states and the log of what was done.

An `Edit` changes a machine and may fail. What it has changed before it fails stays
changed, so a failed edit answers with a machine too.
-/
import PatternAutomata.Automaton.Event
import PatternAutomata.Automaton.Fault
import PatternAutomata.Graph.Reach

set_option autoImplicit false

namespace PatternAutomata

/-! ## Runs -/

/-- How far an automaton has read: the states it may be in, the number of symbols read,
for each state met the position at which it was first met, and the first two positions
between which some state was met again. -/
structure Run where
  current : VertexSet := ∅
  position : Nat := 0
  visits : OrdMap Vertex Nat := ∅
  pumping : Option (Nat × Nat) := none
  deriving Inhabited

namespace Run

/-- Notes the position of each of some states in turn, up to the first that was met
before. -/
def recordAll (r : Run) : List Vertex → Run
  | [] => r
  | v :: vs =>
    match r.visits.get? v with
    | some i => { r with pumping := some (i, r.position) }
    | none => recordAll { r with visits := r.visits.insert v r.position } vs

/-- Notes the position of the current states, unless some state was met twice before. -/
def record (r : Run) (g : Graph) : Run :=
  if r.pumping.isSome then r else r.recordAll (g.inOrder r.current)

/-- The run that has read nothing and may be in any of some states. -/
def begin (g : Graph) (current : VertexSet) : Run := record { current } g

end Run

/-! ## Automata -/

/-- An automaton over the states of a graph. -/
structure Automaton where
  start : Vertex
  states : VertexSet
  alphabet : Alphabet
  /-- Whether reading a symbol outside the alphabet is a fault. -/
  strict : Bool := false
  /-- Whether the states were handed over to another automaton. -/
  discarded : Bool := false
  run : Run := {}
  deriving Inhabited

namespace Automaton

/-- A fresh automaton that has read nothing. The start state is always one of its
states, and what reads nothing is no symbol of its alphabet. -/
def fresh (g : Graph) (start : Vertex) (states : VertexSet) (alphabet : Alphabet)
    (strict : Bool) : Automaton where
  start := start
  states := states.insert start
  alphabet := alphabet.erase .epsilon
  strict := strict
  run := .begin g (g.closure {start})

/-- A fresh automaton, if its start state is flagged as one. -/
def fresh? (g : Graph) (start : Vertex) (states : VertexSet) (alphabet : Alphabet)
    (strict : Bool) : Except Fault Automaton :=
  if (g.node start).isStart then .ok (fresh g start states alphabet strict)
  else .error (.unmarkedStart (g.caption start))

/-- The automaton after its states were handed over. -/
def handedOver (a : Automaton) : Automaton :=
  { a with discarded := true, states := ∅, run := { a.run with current := ∅ } }

/-- The accepting states. -/
def accepting (g : Graph) (a : Automaton) : VertexSet :=
  a.states.filter fun v => (g.node v).isAccepting

/-- Whether some edge reads nothing, or its place is noted. -/
def hasEpsilons (g : Graph) (a : Automaton) : Bool :=
  a.states.toList.any fun v => (g.node v).next.contains .epsilon

/-- Whether each state has at most one way on for each symbol and none without reading. -/
def isDeterministic (g : Graph) (a : Automaton) : Bool :=
  a.states.toList.all fun v => (g.node v).next.entries.all fun (l, vs) =>
    l ≠ .epsilon && vs.size ≤ 1

/-- The automaton in a text. -/
def text (g : Graph) (a : Automaton) : String :=
  let kind := if a.isDeterministic g then "DFA" else "NFA"
  "<" ++ kind ++ " states=" ++ toString a.states.size ++ " start=" ++ (g.caption a.start).text ++
    " alphabet=" ++ Text.quoted (String.join (a.alphabet.toList.map Label.text)) ++ ">"

/-- The edges of an automaton, by source, label and target. -/
def edges (g : Graph) (a : Automaton) : List Edge := g.edgesFrom (g.inOrder a.states)

end Automaton

/-! ## Machines -/

/-- An automaton with the graph of its states and the log. -/
structure Machine where
  graph : Graph
  automaton : Automaton
  log : Array Event := #[]
  deriving Inhabited

/-- A change to a machine that may fail. -/
abbrev Edit := EStateM Fault Machine

namespace Machine

/-- The machine with another graph. -/
def onGraph (m : Machine) (f : Graph → Graph) : Machine := { m with graph := f m.graph }

/-- The machine with another automaton. -/
def onAutomaton (m : Machine) (f : Automaton → Automaton) : Machine :=
  { m with automaton := f m.automaton }

/-- Adds an event to the log. -/
def note (m : Machine) (e : Event) : Machine := { m with log := m.log.push e }

end Machine

/-- What a change leaves behind, whether it failed or not. -/
def leftBy {ε σ α : Type} : EStateM.Result ε σ α → σ
  | .ok _ s => s
  | .error _ s => s

/-- Refuses to work on an automaton whose states were handed over. -/
def Edit.live (operation : Operation) : Edit Unit := fun m =>
  if m.automaton.discarded then .error (.spent operation) m else .ok () m

end PatternAutomata
