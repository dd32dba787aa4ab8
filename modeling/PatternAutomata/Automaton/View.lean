/-
Views of an automaton for reading and drawing.

A layout gives each state a layer, its distance from the start state; states that the
start state does not lead to share one more layer at the end. A listing writes each
state on a line of its own, followed by its edges.
-/
import PatternAutomata.Automaton.Basic

set_option autoImplicit false

namespace PatternAutomata

/-- A state as it is drawn. -/
structure NodeView where
  id : Int
  name : String
  isStart : Bool
  isAccepting : Bool
  /-- Whether the automaton may be in the state. -/
  isActive : Bool
  isTrap : Bool
  layer : Nat
  deriving DecidableEq

/-- An edge as it is drawn, between identifiers. -/
structure EdgeView where
  source : Int
  label : Label
  target : Int
  deriving DecidableEq

/-- The states and edges of an automaton as they are drawn. -/
structure Layout where
  nodes : List NodeView
  edges : List EdgeView

namespace Automaton

/-- The states that edges lead to, in the order of the edges. -/
def orderedSuccessors (g : Graph) (v : Vertex) : List Vertex := (g.outEdges v).map (·.2)

/-- The layers of an automaton. -/
def drawnLayers (g : Graph) (a : Automaton) : List (List Vertex) :=
  let layers := g.layers (orderedSuccessors g) [a.start]
  let met := layers.flatten
  let leftover := g.inOrder (a.states.filter fun v => v ∉ met)
  if leftover.isEmpty then layers else layers ++ [leftover]

/-- A state as it is drawn in a layer. -/
def nodeView (g : Graph) (a : Automaton) (layer : Nat) (v : Vertex) : NodeView :=
  let n := g.node v
  { id := n.id, name := n.name, isStart := n.isStart, isAccepting := n.isAccepting,
    isActive := v ∈ a.run.current, isTrap := n.isTrap, layer := layer }

/-- The edges out of a state as they are drawn. -/
def edgeViews (g : Graph) (v : Vertex) : List EdgeView :=
  (g.outEdges v).map fun (l, w) => ⟨(g.node v).id, l, (g.node w).id⟩

/-- The layout of an automaton. -/
def layout (g : Graph) (a : Automaton) : Layout :=
  let layers := drawnLayers g a
  { nodes := layers.zipIdx.flatMap fun (vs, i) => vs.map (nodeView g a i)
    edges := layers.flatten.flatMap (edgeViews g) }

/-- The lines of the listing of one state. -/
def listingLines (g : Graph) (a : Automaton) (v : Vertex) : List String :=
  let mark := fun w => if (g.node w).isAccepting then "||" else ""
  let head := if v = a.start then "@" else " "
  (head ++ " " ++ toString (g.node v).id ++ mark v) ::
    (g.outEdges v).map fun (l, w) =>
      "   " ++ l.shown ++ " -> " ++ toString (g.node w).id ++ mark w

/-- The listing of an automaton. -/
def listing (g : Graph) (a : Automaton) : String :=
  String.join (((g.inOrder a.states).flatMap (listingLines g a)).map (· ++ "\n"))

end Automaton

end PatternAutomata
