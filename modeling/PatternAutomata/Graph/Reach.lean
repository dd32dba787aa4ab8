/-
What can be reached in a graph.

Each way of walking through a graph is given by the steps it takes from a state; the
walk itself is one breadth-first search. There are three such ways: along all edges,
along the edges that read nothing, and against all edges. For each of them two lemmas
say that what is met holds the first states and is closed under the steps, and that it
holds nothing else.
-/
import PatternAutomata.Graph.Edges
import PatternAutomata.Search

set_option autoImplicit false

namespace PatternAutomata.Graph

/-! ## Walks -/

/-- The steps from the filled places of a graph; none lead out of an unfilled place. -/
def stepsWithin (g : Graph) (steps : Vertex → List Vertex) (v : Vertex) : List Vertex :=
  if v < g.size then steps v else []

/-- Steps from finitely many places lead to finitely many. This is the bound a search asks for, and
all that the guard against unfilled places is there for. -/
theorem finite_stepsWithin (g : Graph) (steps : Vertex → List Vertex) :
    ∃ all : List Vertex, ∀ v, ∀ w ∈ g.stepsWithin steps v, id w ∈ all := by
  refine ⟨(List.range g.size).flatMap steps, ?_⟩
  intro v w hw
  rw [stepsWithin] at hw
  split at hw
  · next hv => exact List.mem_flatMap.2 ⟨v, List.mem_range.2 hv, hw⟩
  · nomatch hw

/-- The states met in walking from some states, by their distance. -/
def layers (g : Graph) (steps : Vertex → List Vertex) (roots : List Vertex) :
    List (List Vertex) :=
  Search.layers id (g.stepsWithin steps) (g.finite_stepsWithin steps) roots

/-- What holds of the first states and is handed on by each step holds of all that is met. To show
that a walk stays inside some set, this is all that has to be checked. -/
theorem forall_mem_layers {g : Graph} {steps : Vertex → List Vertex} {roots : List Vertex}
    {p : Vertex → Prop} (hroots : ∀ v ∈ roots, p v)
    (hsteps : ∀ v, p v → ∀ w ∈ steps v, p w) :
    ∀ v ∈ (g.layers steps roots).flatten, p v := by
  apply Search.forall_mem_layers hroots
  intro v hv w hw
  rw [stepsWithin] at hw
  split at hw
  · exact hsteps v hv w hw
  · nomatch hw

/-- The states a walk starts from are met. -/
theorem mem_layers_of_mem {g : Graph} {steps : Vertex → List Vertex} {roots : List Vertex}
    {v : Vertex} (hv : v ∈ roots) : v ∈ (g.layers steps roots).flatten :=
  Search.mem_flatten_layersFrom hv

/-- What a step leads to from a state that is met is met too, as long as no step leads
out of an unfilled place. -/
theorem mem_layers_of_step {g : Graph} {steps : Vertex → List Vertex} {roots : List Vertex}
    {v w : Vertex} (hblank : ∀ u, g.size ≤ u → steps u = [])
    (hv : v ∈ (g.layers steps roots).flatten) (hw : w ∈ steps v) :
    w ∈ (g.layers steps roots).flatten := by
  have hfilled : v < g.size := by
    apply Nat.lt_of_not_le
    intro h
    rw [hblank v h] at hw
    nomatch hw
  have hstep : w ∈ g.stepsWithin steps v := by rwa [stepsWithin, if_pos hfilled]
  obtain ⟨u, hu, huw⟩ := Search.exists_mem_layers hv hstep
  rwa [show u = w from huw] at hu

/-! ## The three ways of walking -/

/-- The states that one edge leads to. -/
def successors (g : Graph) (v : Vertex) : List Vertex := (g.node v).next.pairs.map (·.2)

/-- The states that one edge which reads nothing leads to. -/
def silentSuccessors (g : Graph) (v : Vertex) : List Vertex := (g.destinations v .epsilon).toList

/-- The states that one edge comes from. -/
def predecessors (g : Graph) (v : Vertex) : List Vertex := (g.node v).previous.pairs.map (·.2)

/-- The steps along edges lead where some label leads. -/
theorem mem_successors {g : Graph} {v w : Vertex} :
    w ∈ g.successors v ↔ ∃ l, w ∈ g.destinations v l := by
  rw [successors, List.mem_map]
  constructor
  · rintro ⟨⟨l, _⟩, h, rfl⟩
    exact ⟨l, Table.mem_pairs.1 h⟩
  · rintro ⟨l, h⟩
    exact ⟨(l, w), Table.mem_pairs.2 h, rfl⟩

/-- The steps that read nothing lead where the silent label leads. -/
theorem mem_silentSuccessors {g : Graph} {v w : Vertex} :
    w ∈ g.silentSuccessors v ↔ w ∈ g.destinations v .epsilon :=
  OrdSet.mem_toList

/-- The steps against edges lead where some entry says that an edge comes from. This goes by what is
noted at the target; that an edge is really there has to be known from elsewhere. -/
theorem mem_predecessors {g : Graph} {v w : Vertex} :
    w ∈ g.predecessors v ↔ ∃ l, w ∈ g.origins v l := by
  rw [predecessors, List.mem_map]
  constructor
  · rintro ⟨⟨l, _⟩, h, rfl⟩
    exact ⟨l, Table.mem_pairs.1 h⟩
  · rintro ⟨l, h⟩
    exact ⟨(l, w), Table.mem_pairs.2 h, rfl⟩

/-- No edge leads out of an unfilled place. -/
theorem destinations_eq_empty {g : Graph} {v : Vertex} (h : g.size ≤ v) (l : Label) :
    g.destinations v l = ∅ := by
  rw [destinations, node_eq_blank h]
  rfl

/-- So a walk along edges takes no step from an unfilled place; this and the next two lemmas are
what `mem_layers_of_step` asks for. -/
theorem successors_eq_nil {g : Graph} {v : Vertex} (h : g.size ≤ v) : g.successors v = [] := by
  rw [successors, node_eq_blank h]
  rfl

theorem silentSuccessors_eq_nil {g : Graph} {v : Vertex} (h : g.size ≤ v) :
    g.silentSuccessors v = [] := by
  rw [silentSuccessors, destinations_eq_empty h]
  rfl

theorem predecessors_eq_nil {g : Graph} {v : Vertex} (h : g.size ≤ v) :
    g.predecessors v = [] := by
  rw [predecessors, node_eq_blank h]
  rfl

/-! ## What they meet -/

/-- A state and all that it leads to. -/
def reachable (g : Graph) (v : Vertex) : VertexSet :=
  .ofList (g.layers g.successors [v]).flatten

/-- Some states and all that they lead to without reading. -/
def closure (g : Graph) (vs : VertexSet) : VertexSet :=
  .ofList (g.layers g.silentSuccessors vs.toList).flatten

/-- Some states and all that lead to them. -/
def ancestors (g : Graph) (vs : VertexSet) : List Vertex :=
  (g.layers g.predecessors vs.toList).flatten

/-- What holds of a state and is handed on by each edge holds of all that it leads to. -/
theorem forall_mem_reachable {g : Graph} {p : Vertex → Prop} {v : Vertex} (hv : p v)
    (hnext : ∀ v, p v → ∀ l, ∀ w ∈ g.destinations v l, p w) : ∀ w ∈ g.reachable v, p w := by
  intro w hw
  refine forall_mem_layers (p := p) ?_ ?_ w (OrdSet.mem_ofList.1 hw)
  · intro u hu
    rw [List.mem_singleton.1 hu]
    exact hv
  · intro u hu w hw
    obtain ⟨l, hl⟩ := mem_successors.1 hw
    exact hnext u hu l w hl

/-- A state leads to itself, along no edge at all. -/
theorem self_mem_reachable (g : Graph) (v : Vertex) : v ∈ g.reachable v :=
  OrdSet.mem_ofList.2 (mem_layers_of_mem List.mem_cons_self)

/-- What can be reached is closed under the edges. -/
theorem mem_reachable_of_mem_destinations {g : Graph} {v u w : Vertex} {l : Label}
    (hu : u ∈ g.reachable v) (hw : w ∈ g.destinations u l) : w ∈ g.reachable v := by
  rw [reachable, OrdSet.mem_ofList] at hu ⊢
  exact mem_layers_of_step (fun _ h => successors_eq_nil h) hu (mem_successors.2 ⟨l, hw⟩)

/-- What holds of some states and is handed on by each silent edge holds of their closure. -/
theorem forall_mem_closure {g : Graph} {p : Vertex → Prop} {vs : VertexSet}
    (hvs : ∀ v ∈ vs, p v) (hnext : ∀ v, p v → ∀ w ∈ g.destinations v .epsilon, p w) :
    ∀ w ∈ g.closure vs, p w := by
  intro w hw
  refine forall_mem_layers (p := p) hvs ?_ w (OrdSet.mem_ofList.1 hw)
  intro v hv u hu
  exact hnext v hv u (mem_silentSuccessors.1 hu)

/-- The closure holds the states it is the closure of. -/
theorem mem_closure_of_mem {g : Graph} {vs : VertexSet} {v : Vertex} (hv : v ∈ vs) :
    v ∈ g.closure vs :=
  OrdSet.mem_ofList.2 (mem_layers_of_mem hv)

/-- The closure is closed under silent edges. -/
theorem mem_closure_of_mem_destinations {g : Graph} {vs : VertexSet} {v w : Vertex}
    (hv : v ∈ g.closure vs) (hw : w ∈ g.destinations v .epsilon) : w ∈ g.closure vs := by
  rw [closure, OrdSet.mem_ofList] at hv ⊢
  exact mem_layers_of_step (fun _ h => silentSuccessors_eq_nil h) hv (mem_silentSuccessors.2 hw)

/-- What holds of some states and is handed back by each entry holds of all that lead to them. -/
theorem forall_mem_ancestors {g : Graph} {p : Vertex → Prop} {vs : VertexSet}
    (hvs : ∀ v ∈ vs, p v) (hprevious : ∀ v, p v → ∀ l, ∀ w ∈ g.origins v l, p w) :
    ∀ w ∈ g.ancestors vs, p w := by
  refine forall_mem_layers hvs ?_
  intro v hv w hw
  obtain ⟨l, hl⟩ := mem_predecessors.1 hw
  exact hprevious v hv l w hl

theorem mem_ancestors_of_mem {g : Graph} {vs : VertexSet} {v : Vertex} (hv : v ∈ vs) :
    v ∈ g.ancestors vs :=
  mem_layers_of_mem hv

/-- What leads to an ancestor, by the entries noted there, is an ancestor. -/
theorem mem_ancestors_of_mem_origins {g : Graph} {vs : VertexSet} {v w : Vertex} {l : Label}
    (hv : v ∈ g.ancestors vs) (hw : w ∈ g.origins v l) : w ∈ g.ancestors vs :=
  mem_layers_of_step (fun _ h => predecessors_eq_nil h) hv (mem_predecessors.2 ⟨l, hw⟩)

/-! ## One symbol -/

/-- The states that one symbol leads to from any of some states. -/
def targets (g : Graph) (vs : VertexSet) (l : Label) : VertexSet :=
  .unions (vs.toList.map fun v => g.destinations v l)

/-- A symbol leads from a set of states to what it leads to from any member. -/
theorem mem_targets {g : Graph} {vs : VertexSet} {l : Label} {w : Vertex} :
    w ∈ g.targets vs l ↔ ∃ v ∈ vs, w ∈ g.destinations v l := by
  rw [targets, OrdSet.mem_unions]
  constructor
  · intro ⟨_, h, hw⟩
    obtain ⟨v, hv, rfl⟩ := List.mem_map.1 h
    exact ⟨v, hv, hw⟩
  · intro ⟨v, hv, hw⟩
    exact ⟨_, List.mem_map_of_mem hv, hw⟩

/-- Whether any of some states is accepting. -/
def anyAccepting (g : Graph) (vs : VertexSet) : Bool :=
  vs.toList.any fun v => (g.node v).isAccepting

/-- Some state of a set accepts, as a statement about its members. -/
theorem anyAccepting_iff {g : Graph} {vs : VertexSet} :
    g.anyAccepting vs = true ↔ ∃ v ∈ vs, (g.node v).isAccepting = true :=
  List.any_eq_true

end PatternAutomata.Graph
