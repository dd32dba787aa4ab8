/-
Removing the edges that read nothing.

States are treated from the highest identifier down. As long as a state has an edge that
reads nothing, the target of one such edge is folded into the state and the edge is
disconnected: the target is merged if that edge is the only way on and the state accepts
nothing that the target does not, and otherwise it is absorbed. Folding may bring edges
that read nothing to further states, all of which the state could reach without reading
from the beginning; each of them is folded once (`pending` holds those that are left).
-/
import PatternAutomata.Automaton.Merging
import PatternAutomata.Automaton.Reading
import PatternAutomata.Automaton.Shrinking

set_option autoImplicit false

namespace PatternAutomata

/-- How often a target was merged and how often one was absorbed. -/
structure FoldCount where
  merged : Nat := 0
  absorbed : Nat := 0

namespace Machine

/-- Whether the edge to a target that reads nothing is the only way on from a state, and
the state accepts nothing that the target does not. -/
def isAlias (g : Graph) (v target : Vertex) : Bool :=
  let only := (g.node v).next.entries = [(.epsilon, {target})]
  only && ((g.node target).isAccepting || !(g.node v).isAccepting)

/-- Folds a target into a state. -/
def foldIn (m : Machine) (v target : Vertex) (n : FoldCount) :
    EStateM.Result Fault Machine FoldCount :=
  if isAlias m.graph v target then
    match m.merge target v with
    | .ok _ m' => .ok { n with merged := n.merged + 1 } m'
    | .error f m' => .error f m'
  else .ok { n with absorbed := n.absorbed + 1 } (m.absorb target v)

/-- The target with the least identifier to which an edge leads that reads nothing. -/
def silentTarget? (g : Graph) (v : Vertex) : Option { w // w ∈ g.destinations v .epsilon } :=
  ((g.inOrder (g.destinations v .epsilon)).attachWith _ fun _ h => g.mem_inOrder.1 h).head?

/-- Removes the edges that read nothing from one state. -/
def removeEpsilonsAt (m : Machine) (v : Vertex) (pending : VertexSet) (n : FoldCount) :
    EStateM.Result Fault Machine FoldCount :=
  if v ∈ m.automaton.states then
    match silentTarget? m.graph v with
    | none => .ok n m
    | some ⟨target, htarget⟩ =>
      if target ∈ pending then
        match m.foldIn v target n with
        | .error f m' => .error f m'
        | .ok n m' =>
          match m'.disconnect ⟨v, .epsilon, target⟩ with
          | .error f m'' => .error f m''
          | .ok _ m'' => removeEpsilonsAt m'' v (pending.erase target) n
      else
        have := size_destinations_disconnect_lt (e := ⟨v, .epsilon, target⟩) htarget
        let cut := m.disconnect ⟨v, .epsilon, target⟩
        match cut with
        | .error f m' => .error f m'
        | .ok .. => removeEpsilonsAt (leftBy cut) v pending n
  else .ok n m
termination_by (pending.size, (m.graph.destinations v .epsilon).size)
decreasing_by
  · left
    exact OrdSet.size_erase_lt (by assumption)
  · right
    exact this

/-- Removes the edges that read nothing from some states in turn. -/
def removeEpsilonsFrom (m : Machine) (vs : List Vertex) (n : FoldCount) :
    EStateM.Result Fault Machine FoldCount :=
  match vs with
  | [] => .ok n m
  | v :: vs =>
    match m.removeEpsilonsAt v ((m.graph.closure {v}).erase v) n with
    | .error f m' => .error f m'
    | .ok n m' => removeEpsilonsFrom m' vs n

/-- Removes all edges that read nothing and goes back to the beginning. -/
def removeEpsilons (m : Machine) : EStateM.Result Fault Machine Unit :=
  match m.removeEpsilonsFrom (m.graph.inOrder m.automaton.states).reverse {} with
  | .error f m' => .error f m'
  | .ok n m' =>
    .ok () (m'.note (.removedEpsilons n.merged n.absorbed m'.automaton.states.size)).reset

end Machine

/-- Removes all edges that read nothing. -/
def Edit.removeEpsilons : Edit Unit := do
  live .removeEpsilons
  fun m => m.removeEpsilons

end PatternAutomata
