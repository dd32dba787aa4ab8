/-
Changing the edges of an automaton.

Connecting two states adds an edge; disconnecting them takes it away and then collects
what can no longer be reached. A state that may have become unreachable is collected
together with all that leads to it, for if the start state is not among these, none of
them can be reached; what they led to is looked at next.

Collecting only ever takes edges away. That the walk through the candidates ends does
not depend on it: each round either takes a state out of the automaton or uses up a
candidate.
-/
import PatternAutomata.Automaton.Basic

set_option autoImplicit false

namespace PatternAutomata

/-! ## Connecting -/

namespace Machine

/-- The machine with an edge. Its ends join the automaton, and the symbol it reads joins
the alphabet. -/
def connect (m : Machine) (e : Edge) : Machine :=
  { m with
    graph := m.graph.link e
    automaton := { m.automaton with
      states := (m.automaton.states.insert e.source).insert e.target
      alphabet :=
        if e.label = .epsilon then m.automaton.alphabet
        else m.automaton.alphabet.insert e.label } }

/-- The machine with several edges. -/
def connectAll (m : Machine) (es : List Edge) : Machine := es.foldl connect m

end Machine

/-- Adds an edge. -/
def Edit.connect (e : Edge) : Edit Unit := do
  live .connect
  modify (·.connect e)

/-! ## Taking edges away -/

/-- Takes an edge away, if it is there. The edge must be noted at its target. -/
def Graph.cut (g : Graph) (e : Edge) : EStateM.Result Fault Graph Unit :=
  if g.hasEdge e then
    if (g.node e.target).previous.contains e.label then .ok () (g.unlink e)
    else .error .edgeNotNoted (g.unlink e)
  else .ok () g

/-- Takes several edges away, one after the other. -/
def Graph.cutAll (g : Graph) : List Edge → EStateM.Result Fault Graph Unit
  | [] => .ok () g
  | e :: es =>
    match g.cut e with
    | .ok _ g' => g'.cutAll es
    | .error f g' => .error f g'

/-! ## Collecting -/

namespace Graph

/-- The states that go if a state goes: none if the start state leads to it, and
otherwise the state with all that leads to it. A state that nothing leads to goes
alone. -/
def doomedBy (g : Graph) (v : Vertex) : VertexSet :=
  if (g.node v).indegree = 0 then {v}
  else
    let sources := g.ancestors {v}
    if sources.any fun w => (g.node w).isStart then ∅ else .ofList sources

end Graph

/-- Whether a state may be collected at all. -/
def Machine.isCandidate (m : Machine) (v : Vertex) : Bool :=
  v ∈ m.automaton.states && !(m.graph.node v).isStart

/-- The automaton without some of its states. -/
def Automaton.without (a : Automaton) (gone : VertexSet) : Automaton :=
  { a with
    states := a.states \ gone
    run := { a.run with current := a.run.current \ gone } }

namespace Machine

/-- Looks at the candidates, the latest first, and collects those that can no longer be
reached. `removed` holds the states that are gone already. -/
def collectFrom (m : Machine) (candidates removed : List Vertex) :
    EStateM.Result Fault Machine (List Vertex) :=
  match candidates with
  | [] => .ok removed m
  | v :: rest =>
    let gone := m.graph.doomedBy v
    if m.isCandidate v ∧ v ∈ gone then
      let order := m.graph.inOrder gone
      let edges := m.graph.edgesFrom order
      match m.graph.cutAll edges with
      | .error f g => .error f { m with graph := g }
      | .ok _ g =>
        let next := (edges.map (·.target)).filter fun w => w ∉ gone
        collectFrom { m with graph := g, automaton := m.automaton.without gone }
          (next.reverse ++ rest) (removed ++ order)
    else collectFrom m rest removed
termination_by (m.automaton.states.size, candidates.length)
decreasing_by
  · left
    next h =>
      simp only [isCandidate, Bool.and_eq_true, decide_eq_true_eq] at h
      exact OrdSet.size_sdiff_lt h.1.1 h.2
  · right
    simp

/-- Collects a state, if it can no longer be reached, and answers with the states that
are gone, in the order in which they went. -/
def collect (m : Machine) (v : Vertex) : EStateM.Result Fault Machine (List Vertex) :=
  match m.collectFrom [v] [] with
  | .ok removed m' =>
    .ok removed
      (if removed.isEmpty then m' else m'.note (.collected (removed.map m'.graph.caption)))
  | .error f m' => .error f m'

/-- Takes an edge away and collects its target. -/
def disconnect (m : Machine) (e : Edge) : EStateM.Result Fault Machine (List Vertex) :=
  match m.graph.cut e with
  | .ok _ g => collect { m with graph := g } e.target
  | .error f g => .error f { m with graph := g }

end Machine

namespace Edit

/-- Collects a state, if it can no longer be reached. -/
def collect (v : Vertex) : Edit (List Vertex) := do
  live .collect
  fun m => m.collect v

/-- Takes an edge away, if it is there, and collects its target. -/
def disconnect (e : Edge) : Edit (List Vertex) := do
  live .disconnect
  fun m => m.disconnect e

end Edit

end PatternAutomata
