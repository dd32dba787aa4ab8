/-
The subset construction.

A word leads an automaton to a set of states. These sets are met one after the other by
a breadth-first search from the set that the empty word leads to; each becomes a state
of a new automaton, and each symbol an edge from the set it leaves to the set it leads
to. Two sets count as the same if their states have the same identifiers. A symbol that
leads nowhere makes no edge, so the empty set is never met.

The search ends because there are only finitely many sets of states that an edge can
lead to.
-/
import PatternAutomata.Automaton.Merging

set_option autoImplicit false

namespace PatternAutomata

namespace Graph

/-! ## Sets that words lead to -/

/-- The set of states that a symbol leads to, if it leads anywhere. -/
def subsetAfter? (g : Graph) (vs : VertexSet) (l : Label) : Option VertexSet :=
  let targets := g.targets vs l
  if targets.isEmpty then none else some (g.closure targets)

/-- The sets of states that the symbols of an alphabet lead to. -/
def subsetsAfter (g : Graph) (alphabet : List Label) (vs : VertexSet) : List VertexSet :=
  alphabet.filterMap (g.subsetAfter? vs)

/-- All states that any edge leads to. -/
def allTargets (g : Graph) : List Vertex := (List.range g.size).flatMap g.successors

/-- Wherever an edge leads is among the finitely many places that edges lead to. -/
theorem mem_allTargets {g : Graph} {v w : Vertex} {l : Label} (h : w ∈ g.destinations v l) :
    w ∈ g.allTargets := by
  refine List.mem_flatMap.2 ⟨v, List.mem_range.2 ?_, mem_successors.2 ⟨l, h⟩⟩
  refine Nat.lt_of_not_le fun hv => ?_
  rw [destinations, node_eq_blank hv] at h
  exact OrdSet.not_mem_empty w h

/-- So a set that a symbol leads to is a subset of these. -/
theorem mem_allTargets_of_mem_subsetAfter? {g : Graph} {vs ws : VertexSet} {l : Label}
    (h : g.subsetAfter? vs l = some ws) : ∀ w ∈ ws, w ∈ g.allTargets := by
  rw [subsetAfter?] at h
  split at h
  · nomatch h
  · cases h
    refine forall_mem_closure (fun w hw => ?_) (fun _ _ _ hw => mem_allTargets hw)
    obtain ⟨_, _, hw⟩ := mem_targets.1 hw
    exact mem_allTargets hw

/-- The sets that symbols lead to have finitely many names. This is the bound that the search for
them asks for; it does not have to count how many sets are met. -/
theorem finite_subsetsAfter (g : Graph) (alphabet : List Label) :
    ∃ keys : List (OrdSet Int), ∀ vs, ∀ ws ∈ g.subsetsAfter alphabet vs, g.idSet ws ∈ keys := by
  obtain ⟨all, hall⟩ := OrdSet.exists_all_subsets g.allTargets
  refine ⟨all.map g.idSet, fun vs ws hws => List.mem_map_of_mem (hall ws ?_)⟩
  obtain ⟨l, _, hl⟩ := List.mem_filterMap.1 hws
  exact mem_allTargets_of_mem_subsetAfter? hl

/-- The sets of states that the words over an alphabet lead to, the shortest words
first and those of one length in the order of the alphabet. -/
def subsets (g : Graph) (alphabet : List Label) (start : VertexSet) : List VertexSet :=
  (Search.layers g.idSet (g.subsetsAfter alphabet) (g.finite_subsetsAfter alphabet)
    [start]).flatten

end Graph

/-! ## The new automaton -/

/-- The state made of a set, given the number of the set. -/
def Node.ofSubset (g : Graph) (number : Nat) (vs : VertexSet) : Node where
  id := number
  name := if number = 0 then "DFA start" else ""
  isStart := number = 0
  isAccepting := g.anyAccepting vs
  standsFor := vs

/-- The edges between the states made of sets, the first of which is put at the first
free place. -/
def Graph.subsetEdges (g : Graph) (alphabet : List Label) (sets : List VertexSet) :
    List Edge :=
  let keys := sets.map g.idSet
  sets.zipIdx.flatMap fun (vs, i) =>
    alphabet.filterMap fun l =>
      (g.subsetAfter? vs l).map fun ws => ⟨g.size + i, l, g.size + keys.idxOf (g.idSet ws)⟩

/-- Puts several states at the first free places. -/
def Graph.addAll (g : Graph) (ns : List Node) : Graph := ns.foldl (fun g n => (g.add n).2) g

/-- The automaton whose states are the sets of states that words lead to, in a graph
that holds them. -/
def Machine.determinized (m : Machine) : Graph × Automaton :=
  let g := m.graph
  let alphabet := m.automaton.alphabet.toList
  let sets := g.subsets alphabet (g.closure {m.automaton.start})
  let grown := g.addAll (sets.zipIdx.map fun (vs, i) => .ofSubset g i vs)
  let fresh := Automaton.fresh grown g.size ∅ m.automaton.alphabet m.automaton.strict
  let made := Machine.connectAll { graph := grown, automaton := fresh }
    (g.subsetEdges alphabet sets)
  (made.graph, made.automaton)

/-- Makes a deterministic automaton that accepts the same words. -/
def Edit.determinize : Edit Automaton := do
  live .determinize
  let m ← get
  let (g, a) := m.determinized
  set ({ m with graph := g }.note (.determinized m.automaton.states.size a.states.size))
  return a

end PatternAutomata
