/-
Graphs of states.

A graph gives each of its places a state and never takes one back: a state that has
left every automaton can still be looked at and can join one again. All automata that
are worked on together share one graph, so an edge may lead from one to another.

A place that was never filled shows a blank state, and changing the state at a place
fills the graph up to there. With that, what an update does to each look-up can be said
without conditions (`Graph.node_update`).
-/
import PatternAutomata.Graph.Node

set_option autoImplicit false

namespace PatternAutomata

/-- States at places that count from zero. -/
structure Graph where
  nodes : Array Node
  deriving Inhabited

namespace Graph

/-- The graph with no places filled. -/
def empty : Graph := ⟨#[]⟩

instance : EmptyCollection Graph := ⟨empty⟩

/-- The number of places. -/
def size (g : Graph) : Nat := g.nodes.size

/-- The state at a place. -/
def node (g : Graph) (v : Vertex) : Node := g.nodes.getD v .blank

/-- Puts a state at the first free place. -/
def add (g : Graph) (n : Node) : Vertex × Graph := (g.size, ⟨g.nodes.push n⟩)

/-- Changes the state at a place. -/
def update (g : Graph) (v : Vertex) (f : Node → Node) : Graph :=
  if v < g.size then ⟨g.nodes.modify v f⟩
  else ⟨(g.nodes ++ Array.replicate (v - g.size) Node.blank).push (f .blank)⟩

theorem node_eq_blank {g : Graph} {v : Vertex} (h : g.size ≤ v) : g.node v = .blank := by
  rw [node, Array.getD_eq_getD_getElem?, Array.getElem?_eq_none h, Option.getD_none]

/-- A state that is put into a graph gets the first free place, and all others stay as they are. -/
theorem node_add {g : Graph} {n : Node} {w : Vertex} :
    (g.add n).2.node w = if w = g.size then n else g.node w := by
  simp only [add, node, size, Array.getD_eq_getD_getElem?, Array.getElem?_push]
  split <;> rfl

/-- An update changes the state at its own place and no other. This needs no condition on the place:
one beyond the filled part is filled with blank states first, and they look as before. -/
theorem node_update {g : Graph} {v w : Vertex} {f : Node → Node} :
    (g.update v f).node w = if w = v then f (g.node v) else g.node w := by
  by_cases h : v < g.size
  · rw [update, if_pos h]
    simp only [node, Array.getD_eq_getD_getElem?, Array.getElem?_modify]
    by_cases hw : v = w
    · subst hw
      have : v < g.nodes.size := h
      simp [this]
    · simp [hw, Ne.symm hw]
  · rw [update, if_neg h]
    -- an unfilled place: blank states are added up to it before it is changed
    have hle : g.nodes.size ≤ v := Nat.not_lt.1 h
    simp only [node, size, Array.getD_eq_getD_getElem?, Array.getElem?_push, Array.size_append,
      Array.size_replicate, Nat.add_sub_cancel' hle, Array.getElem?_append,
      Array.getElem?_replicate]
    by_cases hw : w = v
    · subst hw; simp [hle]
    · simp only [hw, if_false]
      by_cases hlt : w < g.nodes.size
      · simp [hlt]
      · simp only [hlt, if_false]
        rw [Array.getElem?_eq_none (Nat.not_lt.1 hlt)]
        split <;> rfl

/-- An update that leaves some part of a state alone leaves that part alone at every place. With
the part taken to be a single field, or all fields but those for edges, this says what an edit of
the graph does not touch, without a look at the places that it touches. -/
theorem part_update {α : Type} (part : Node → α) {f : Node → Node}
    (h : ∀ n, part (f n) = part n) (g : Graph) (v w : Vertex) :
    part ((g.update v f).node w) = part (g.node w) := by
  rw [node_update]
  split
  · next hw => rw [h, hw]
  · rfl

/-! ## Looking around -/

/-- The states that one edge leads to. -/
def destinations (g : Graph) (v : Vertex) (l : Label) : VertexSet := (g.node v).next.under l

/-- The states that one edge comes from. -/
def origins (g : Graph) (v : Vertex) (l : Label) : VertexSet := (g.node v).previous.under l

/-- What is shown of the state at a place. -/
def caption (g : Graph) (v : Vertex) : Caption := (g.node v).caption

/-- Places in the order of the identifiers of their states. -/
def sortById (g : Graph) (vs : List Vertex) : List Vertex :=
  vs.mergeSort fun v w => (g.node v).id ≤ (g.node w).id

/-- The members of a set in the order of their identifiers. -/
def inOrder (g : Graph) (vs : VertexSet) : List Vertex := g.sortById vs.toList

/-- Sorting neither loses nor adds places. -/
theorem mem_sortById {g : Graph} {vs : List Vertex} {v : Vertex} :
    v ∈ g.sortById vs ↔ v ∈ vs :=
  List.mem_mergeSort

/-- A set listed by identifier has the same members as the set. -/
theorem mem_inOrder (g : Graph) {vs : VertexSet} {v : Vertex} : v ∈ g.inOrder vs ↔ v ∈ vs :=
  mem_sortById

/-- A set listed by identifier lists no member twice, also if identifiers coincide. -/
theorem nodup_inOrder (g : Graph) (vs : VertexSet) : (g.inOrder vs).Nodup :=
  (List.mergeSort_perm ..).nodup_iff.2 vs.nodup_toList

/-- The identifiers of the members of a set in ascending order, one for each member. -/
def ids (g : Graph) (vs : VertexSet) : List Int := (g.inOrder vs).map fun v => (g.node v).id

/-- The distinct identifiers of the members of a set. -/
def idSet (g : Graph) (vs : VertexSet) : OrdSet Int :=
  OrdSet.ofList (vs.toList.map fun v => (g.node v).id)

/-- The name of a set of states: its distinct identifiers, joined by spaces. -/
def keyText (g : Graph) (vs : VertexSet) : String :=
  " ".intercalate ((g.idSet vs).toList.map toString)

/-- The edges out of a state: by label, and for each label by identifier. -/
def outEdges (g : Graph) (v : Vertex) : List (Label × Vertex) :=
  (g.node v).next.entries.flatMap fun (l, vs) => (g.inOrder vs).map fun w => (l, w)

/-- The edges into a state, with the state they come from. -/
def inEdges (g : Graph) (v : Vertex) : List (Vertex × Label) :=
  (g.node v).previous.pairs.map fun (l, w) => (w, l)

end Graph

end PatternAutomata
