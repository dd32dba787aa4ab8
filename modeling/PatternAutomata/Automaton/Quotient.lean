/-
The smallest deterministic automaton.

The states of a deterministic automaton are partitioned into those that accept and
those that do not, and the partition is refined until nothing splits. Each block then
becomes a state of a new automaton, numbered in the order of the least identifier in
the block, and every edge becomes one between the blocks of its ends.
-/
import PatternAutomata.Automaton.Subsets
import PatternAutomata.Partition

set_option autoImplicit false

namespace PatternAutomata

namespace Machine

/-- The states by whether they accept. -/
def acceptancePartition (m : Machine) : Partition :=
  .ofLabels ((m.graph.inOrder m.automaton.states).map fun v => ((m.graph.node v).isAccepting, v))

/-- The least identifier in a block. -/
def leastId (g : Graph) (b : VertexSet) : Int := (g.ids b).headD 0

/-- Blocks in the order of their least identifiers. -/
def blocksInOrder (g : Graph) (p : Partition) : List VertexSet :=
  p.blocks.mergeSort fun b c => leastId g b ≤ leastId g c

/-- The state made of a block, given the number of the block. A flag is set if it is set
for any member. -/
def nodeOfBlock (g : Graph) (number : Nat) (b : VertexSet) : Node where
  id := number
  isStart := b.toList.any fun v => (g.node v).isStart
  isAccepting := b.toList.any fun v => (g.node v).isAccepting
  isTrap := b.toList.any fun v => (g.node v).isTrap
  standsFor := b

/-- The place of the state made of the block of a state, if the first block is made into
the state at a given place. -/
def placeOf (p : Partition) (blocks : List VertexSet) (first : Vertex) (v : Vertex) :
    Except Fault Vertex :=
  match (p.blockOf? v).bind blocks.idxOf? with
  | some i => .ok (first + i)
  | none => .error .outsidePartition

/-- The automaton whose states are the blocks of a partition, in a graph that holds
them. -/
def quotient (m : Machine) (p : Partition) : Except Fault (Graph × Automaton) := do
  let g := m.graph
  let blocks := blocksInOrder g p
  let grown := g.addAll (blocks.zipIdx.map fun (b, i) => nodeOfBlock g i b)
  let place := placeOf p blocks g.size
  let start ← place m.automaton.start
  let states := OrdSet.ofList ((List.range blocks.length).map (g.size + ·))
  let fresh ← Automaton.fresh? grown start states m.automaton.alphabet m.automaton.strict
  let edges ← (m.automaton.edges g).mapM fun e => do
    return Edge.mk (← place e.source) e.label (← place e.target)
  let made := Machine.connectAll { graph := grown, automaton := fresh } edges
  return (made.graph, made.automaton)

/-- Notes the number of blocks after each pass. -/
def notePasses (m : Machine) (counts : List Nat) : Machine :=
  counts.zipIdx.foldl (fun m (n, i) => m.note (.refined (i + 1) n)) m

end Machine

/-- Makes the smallest deterministic automaton that accepts the same words. -/
def Edit.minimize : Edit Automaton := do
  live .minimize
  let m ← get
  if !m.automaton.isDeterministic m.graph then throw .notDeterministic
  let (p, counts) := m.acceptancePartition.refine m.graph m.automaton.alphabet.toList
  modify (·.notePasses counts)
  match m.quotient p with
  | .error f => throw f
  | .ok (g, a) =>
    modify fun m' => { m' with graph := g }.note
      (.minimized m.automaton.states.size a.states.size counts.length)
    return a

end PatternAutomata
