/-
The subset construction goes alike in machines that mirror each other.

Sets of states are told apart by identifiers, which renaming keeps, so the search meets the
renamed sets in the same order (`Graph.Mirrors.subsets_eq`). The states made of them are put at
the first free places of both graphs, which correspond, and stand for corresponding states
(`Machine.Mirrors.determinized`).
-/
import PatternAutomata.Proofs.Canonical.Searching
import PatternAutomata.Proofs.Renaming.Edits

set_option autoImplicit false

namespace PatternAutomata

variable {whole : Prop} {ρ : Vertex → Vertex}

namespace Graph

variable {g h : Graph}

/-! ## Sets of filled places

A set that is searched from becomes a state which stands for its members, so these have to be
filled places. -/

/-- What can be reached without reading from filled places is filled. -/
theorem Filled.closure_lt (hg : g.Filled) {vs : VertexSet} (hvs : ∀ v ∈ vs, v < g.size) :
    ∀ v ∈ g.closure vs, v < g.size :=
  forall_mem_closure hvs fun v _ => hg.destination_lt v .epsilon

/-- What a symbol leads to is mentioned by an edge, so it is filled, wherever it is read from. -/
theorem Filled.subsetAfter?_lt (hg : g.Filled) {vs ws : VertexSet} {l : Label}
    (hafter : g.subsetAfter? vs l = some ws) : ∀ w ∈ ws, w < g.size := by
  rw [subsetAfter?] at hafter
  split at hafter
  · cases hafter
  · cases hafter
    apply hg.closure_lt
    intro w hw
    obtain ⟨v, _, hvw⟩ := mem_targets.1 hw
    exact hg.destination_lt v l w hvw

/-- The sets that words lead to from filled places are sets of filled places. By induction on the
search for them. -/
theorem Filled.subsets_lt (hg : g.Filled) (alphabet : List Label) {start : VertexSet}
    (hstart : ∀ v ∈ start, v < g.size) :
    ∀ vs ∈ g.subsets alphabet start, ∀ v ∈ vs, v < g.size := by
  apply Search.forall_mem_layers (p := fun vs : VertexSet => ∀ v ∈ vs, v < g.size)
  · intro vs hvs
    rw [List.mem_singleton.1 hvs]
    exact hstart
  · intro vs _ ws hws
    obtain ⟨l, _, hafter⟩ := List.mem_filterMap.1 hws
    exact hg.subsetAfter?_lt hafter

namespace Mirrors

/-! ## Sets that words lead to -/

/-- A symbol leads from the renamed set to the renamed set, or from neither set to any. -/
theorem subsetAfter?_eq (hm : g.Mirrors whole ρ h) (vs : VertexSet) (l : Label) :
    h.subsetAfter? (vs.image ρ) l = (g.subsetAfter? vs l).map (OrdSet.image ρ) := by
  simp only [subsetAfter?, hm.targets_eq, OrdSet.isEmpty_image, hm.closure_eq]
  split <;> rfl

/-- The sets that the symbols of the alphabet lead to are listed in the same order. -/
theorem subsetsAfter_eq (hm : g.Mirrors whole ρ h) (alphabet : List Label) (vs : VertexSet) :
    (g.subsetsAfter alphabet vs).map (OrdSet.image ρ) = h.subsetsAfter alphabet (vs.image ρ) := by
  rw [subsetsAfter, subsetsAfter, List.map_filterMap]
  apply List.filterMap_congr
  intro l _
  exact (hm.subsetAfter?_eq vs l).symm

/-- The same sets are met in the same order, since different sets have different images. -/
theorem subsets_eq (hm : g.Mirrors whole ρ h) (alphabet : List Label) (start : VertexSet) :
    h.subsets alphabet (start.image ρ) = (g.subsets alphabet start).map (OrdSet.image ρ) := by
  have hkey : g.idSet = h.idSet ∘ OrdSet.image ρ := funext fun vs => (hm.idSet_eq vs).symm
  -- the search is about the keys, whatever they are, and here they are the same
  have hsearch : ∀ key : VertexSet → OrdSet Int, key = h.idSet ∘ OrdSet.image ρ →
      ∀ finite, (Search.layers key (g.subsetsAfter alphabet) finite [start]).flatten.map
        (OrdSet.image ρ) = h.subsets alphabet (start.image ρ) := by
    rintro _ rfl finite
    exact Search.map_layers (hm.subsetsAfter_eq alphabet) [start]
  exact (hsearch g.idSet hkey _).symm

/-! ## States and edges made of sets -/

/-- The state that is made of a set accepts alike and stands for the renamed set. -/
theorem ofSubset_eq (hm : g.Mirrors whole ρ h) (number : Nat) (vs : VertexSet) :
    Node.ofSubset h number (vs.image ρ) = (Node.ofSubset g number vs).rename ρ := by
  rw [Node.ofSubset, hm.anyAccepting_eq]
  rfl

/-- So the new states are the same, apart from the names in what they stand for. -/
theorem subsetNodes_eq (hm : g.Mirrors whole ρ h) (sets : List VertexSet) :
    ((sets.map (OrdSet.image ρ)).zipIdx.map fun (vs, i) => Node.ofSubset h i vs) =
      (sets.zipIdx.map fun (vs, i) => Node.ofSubset g i vs).map (Node.rename ρ) := by
  rw [List.zipIdx_map, List.map_map, List.map_map]
  apply List.map_congr_left
  rintro ⟨vs, i⟩ _
  exact hm.ofSubset_eq i vs

/-- The edges between sets go from number to number, counted from the first free place, and the
first free places correspond. -/
theorem subsetEdges_eq (hm : g.Mirrors True ρ h) (alphabet : List Label) (sets : List VertexSet) :
    h.subsetEdges alphabet (sets.map (OrdSet.image ρ)) =
      (g.subsetEdges alphabet sets).map (Edge.rename ρ) := by
  have hkeys : (sets.map (OrdSet.image ρ)).map h.idSet = sets.map g.idSet := by
    rw [List.map_map]
    exact List.map_congr_left fun vs _ => hm.idSet_eq vs
  rw [subsetEdges, subsetEdges, hkeys, List.zipIdx_map, List.flatMap_map, List.map_flatMap]
  congr 1
  funext ⟨vs, i⟩
  rw [List.map_filterMap]
  apply List.filterMap_congr
  intro l _
  simp only [hm.subsetAfter?_eq, Option.map_map]
  congr 1
  funext ws
  simp only [Function.comp_apply, Edge.rename, hm.idSet_eq, hm.free trivial]
  rfl

end Mirrors

end Graph

/-! ## The new automaton -/

/-- States without edges are put at the first free places, an automaton that has read nothing is
given them, and edges are added: what comes of it corresponds if what it is made of does. -/
theorem Graph.Mirrors.assembled {g h : Graph} (hm : g.Mirrors True ρ h) {ns : List Node}
    (hbare : ∀ n ∈ ns, n.next = ∅ ∧ n.previous = ∅ ∧ ∀ w ∈ n.standsFor, w < g.size)
    (start : Vertex) (states : VertexSet) (alphabet : Alphabet) (strict : Bool)
    (es : List Edge) :
    Machine.Mirrors True ρ
      (Machine.connectAll { graph := g.addAll ns
                            automaton := .fresh (g.addAll ns) start states alphabet strict } es)
      (Machine.connectAll { graph := h.addAll (ns.map (Node.rename ρ))
                            automaton := .fresh (h.addAll (ns.map (Node.rename ρ))) (ρ start)
                              (states.image ρ) alphabet strict } (es.map (Edge.rename ρ))) := by
  refine Machine.Mirrors.connectAll ⟨hm.addAll hbare, ?_⟩ es
  exact ⟨rfl, (OrdSet.image_insert states start).symm, fun _ => rfl, rfl, rfl⟩

/-- The subset construction goes alike. The same sets are met from the start, so the states that are
made of them and the edges between these correspond. -/
theorem Machine.Mirrors.determinized {m m' : Machine} (hm : m.Mirrors True ρ m')
    (hstart : m.automaton.start < m.graph.size) :
    Machine.Mirrors True ρ
      { graph := m.determinized.1, automaton := m.determinized.2 }
      { graph := m'.determinized.1, automaton := m'.determinized.2 } := by
  have hclosure : m'.graph.closure {m'.automaton.start} =
      (m.graph.closure {m.automaton.start}).image ρ := by
    rw [hm.start_eq, ← hm.graph.closure_eq, OrdSet.image_singleton]
  have hfilled := hm.graph.filled trivial
  have hlt := hfilled.subsets_lt m.automaton.alphabet.toList
    (hfilled.closure_lt fun v hv => OrdSet.mem_singleton.1 hv ▸ hstart)
  have hsets := hm.graph.subsets_eq m.automaton.alphabet.toList
    (m.graph.closure {m.automaton.start})
  rw [← hclosure] at hsets
  rw [Machine.determinized, Machine.determinized, hm.automaton.alphabet_eq trivial,
    hm.automaton.strict_eq]
  simp only [hsets, hm.graph.subsetNodes_eq, hm.graph.subsetEdges_eq, ← hm.graph.size_eq]
  generalize m.graph.subsets m.automaton.alphabet.toList
    (m.graph.closure {m.automaton.start}) = sets at hlt
  have hbare : ∀ n ∈ sets.zipIdx.map (fun (vs, i) => Node.ofSubset m.graph i vs),
      n.next = ∅ ∧ n.previous = ∅ ∧ ∀ w ∈ n.standsFor, w < m.graph.size := by
    intro n hn
    obtain ⟨⟨vs, i⟩, hmem, rfl⟩ := List.mem_map.1 hn
    exact ⟨rfl, rfl, hlt vs (List.fst_mem_of_mem_zipIdx hmem)⟩
  have hmade := hm.graph.assembled hbare m.graph.size ∅ m.automaton.alphabet m.automaton.strict
    (m.graph.subsetEdges m.automaton.alphabet.toList sets)
  exact ⟨hmade.graph, hmade.automaton⟩

end PatternAutomata
