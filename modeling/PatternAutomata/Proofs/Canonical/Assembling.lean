/-
New automata on new places.

A construction that makes a new automaton puts bare states at the first free places of the
graph and then adds edges among them. `Plan` says what such a construction must provide;
then the automaton is sound, has just the planned edges, and leaves all other states as they
were.
-/
import PatternAutomata.Automaton.Subsets
import PatternAutomata.Proofs.Canonical.Numbering
import PatternAutomata.Proofs.Structure.Joining

set_option autoImplicit false

namespace PatternAutomata

open PatternAutomata.Graph

/-! ## Several states at once

States that are added one after the other lie in a row behind those that were there. -/

namespace Graph

variable {g : Graph}

/-- The first state is added first. -/
theorem addAll_cons (n : Node) (ns : List Node) : g.addAll (n :: ns) = (g.add n).2.addAll ns :=
  List.foldl_cons ..

/-- The graph grows by as many places as there are states. -/
theorem size_addAll (ns : List Node) : (g.addAll ns).size = g.size + ns.length := by
  induction ns generalizing g with
  | nil => rfl
  | cons n ns ih =>
    rw [addAll_cons, ih, size_add, List.length_cons]
    omega

/-- The states that were there stay as they were. -/
theorem node_addAll_of_lt {ns : List Node} {v : Nat} (hv : v < g.size) :
    (g.addAll ns).node v = g.node v := by
  induction ns generalizing g with
  | nil => rfl
  | cons n ns ih =>
    have hlt : v < (g.add n).2.size := by
      rw [size_add]
      omega
    rw [addAll_cons, ih hlt, node_add, if_neg (Nat.ne_of_lt hv)]

/-- The new states lie behind them, in their order. -/
theorem node_addAll {ns : List Node} {i : Nat} (hi : i < ns.length) :
    (g.addAll ns).node (g.size + i) = ns[i] := by
  induction ns generalizing g i with
  | nil => nomatch hi
  | cons n ns ih =>
    rw [addAll_cons]
    cases i with
    | zero =>
      have hlt : g.size < (g.add n).2.size := by
        rw [size_add]
        omega
      rw [Nat.add_zero, node_addAll_of_lt hlt, node_add, if_pos rfl, List.getElem_cons_zero]
    | succ i =>
      have hplace : g.size + (i + 1) = (g.add n).2.size + i := by
        rw [size_add]
        omega
      rw [hplace, ih (Nat.lt_of_succ_lt_succ hi), List.getElem_cons_succ]

/-- Bare states are unconnected where they are put: their tables and counts are those that they were
made with. -/
theorem unconnected_addAll {ns : List Node}
    (hbare : ∀ n ∈ ns, n.next = ∅ ∧ n.previous = ∅ ∧ n.indegree = 0) {i : Nat}
    (hi : i < ns.length) : (g.addAll ns).Unconnected (g.size + i) := by
  obtain ⟨hnext, hprevious, hindegree⟩ := hbare _ (List.getElem_mem hi)
  constructor
  · rw [node_addAll hi, hnext]
  · rw [node_addAll hi, hprevious]
  · rw [node_addAll hi, hindegree]

/-- An unconnected state reaches only itself silently. -/
theorem Unconnected.eq_of_mem_closure {v w : Vertex} (hv : g.Unconnected v)
    (hw : w ∈ g.closure {v}) : w = v := by
  refine forall_mem_closure (p := fun w => w = v) ?_ ?_ w hw
  · exact fun w hw => OrdSet.mem_singleton.1 hw
  · rintro w rfl u hu
    rw [hv.destinations_eq] at hu
    exact absurd hu (OrdSet.not_mem_empty u)

/-- A run that begins at a bare state is at that state only, for it has no edges yet. -/
theorem eq_of_mem_begin {ns : List Node}
    (hbare : ∀ n ∈ ns, n.next = ∅ ∧ n.previous = ∅ ∧ n.indegree = 0) {i : Nat}
    (hi : i < ns.length) {v : Vertex}
    (hv : v ∈ (Run.begin (g.addAll ns) ((g.addAll ns).closure {g.size + i})).current) :
    v = g.size + i := by
  rw [Run.current_begin] at hv
  exact (unconnected_addAll hbare hi).eq_of_mem_closure hv

end Graph

namespace Machine

/-- Adding edges notes nothing. -/
theorem log_connectAll {m : Machine} (es : List Edge) : (m.connectAll es).log = m.log := by
  induction es generalizing m with
  | nil => rfl
  | cons e es ih => rw [connectAll_cons, ih, connect]

/-- The states of an automaton may be listed before or after its edges are added, as long as all
ends of edges are taken in. The subset construction lists none but the first and lets the edges take
in the others. -/
theorem connectAll_onStates {m : Machine} {es : List Edge} {S : VertexSet}
    (hS : ∀ v, (v ∈ S ∨ ∃ e ∈ es, v = e.source ∨ v = e.target) ↔
      v ∈ m.automaton.states ∨ ∃ e ∈ es, v = e.source ∨ v = e.target) :
    (m.onAutomaton fun a => { a with states := S }).connectAll es = m.connectAll es := by
  refine ext_states (m := m.connectAll es) ?_ ?_ ?_ ?_
  · rw [graph_connectAll, graph_connectAll, onAutomaton]
  · rw [log_connectAll, log_connectAll, onAutomaton]
  · have halphabet :
        ((m.onAutomaton fun a => { a with states := S }).connectAll es).automaton.alphabet =
          (m.connectAll es).automaton.alphabet := by
      ext l
      rw [mem_alphabet_connectAll, mem_alphabet_connectAll, onAutomaton]
    rw [automaton_connectAll, halphabet, automaton_connectAll (m := m)]
    rfl
  · intro v
    rw [mem_states_connectAll, mem_states_connectAll]
    exact hS v

/-! ## What is left alone -/

/-- The second machine has the automaton of the first one, with how far it has read, and all
states that were there, as they were. -/
structure Spares (m m' : Machine) : Prop where
  automaton_eq : m'.automaton = m.automaton
  size_le : m.graph.size ≤ m'.graph.size
  node_eq : ∀ v < m.graph.size, m'.graph.node v = m.graph.node v

namespace Spares

variable {m m' : Machine}

/-- Nothing is done to the graph. -/
theorem of_graph_eq (automaton_eq : m'.automaton = m.automaton) (graph_eq : m'.graph = m.graph) :
    m.Spares m' where
  automaton_eq := automaton_eq
  size_le := Nat.le_of_eq (congrArg Graph.size graph_eq.symm)
  node_eq _ _ := by rw [graph_eq]

/-- New states may be added, with edges among them. The edges meet none of the older places. -/
theorem of_assembled {ns : List Node} {a : Automaton} {es : List Edge}
    (automaton_eq : m'.automaton = m.automaton)
    (graph_eq : m'.graph = (connectAll { graph := m.graph.addAll ns, automaton := a } es).graph)
    (hes : ∀ e ∈ es, m.graph.size ≤ e.source ∧ m.graph.size ≤ e.target) : m.Spares m' where
  automaton_eq := automaton_eq
  size_le := by
    rw [graph_eq, graph_connectAll]
    refine Nat.le_trans ?_ (size_le_linkAll es)
    rw [size_addAll]
    exact Nat.le_add_right ..
  node_eq v hv := by
    rw [graph_eq, graph_connectAll, node_linkAll_of_not_mem, node_addAll_of_lt hv]
    intro e he
    obtain ⟨hsource, htarget⟩ := hes e he
    exact ⟨Nat.ne_of_lt (Nat.lt_of_lt_of_le hv hsource),
      Nat.ne_of_lt (Nat.lt_of_lt_of_le hv htarget)⟩

end Spares

/-! ## Plans -/

/-- What a new automaton is to be made of: states for the first free places of a graph, an
automaton that has these states, and edges among them. -/
structure Plan (g : Graph) (ns : List Node) (a : Automaton) (es : List Edge) : Prop where
  bare : ∀ n ∈ ns, n.next = ∅ ∧ n.previous = ∅ ∧ n.indegree = 0
  id_eq : ∀ i (h : i < ns.length), ns[i].id = i
  isStart_iff : ∀ i (h : i < ns.length), ns[i].isStart = true ↔ g.size + i = a.start
  mem_states : ∀ v : Nat, v ∈ a.states ↔ g.size ≤ v ∧ v < g.size + ns.length
  start_mem : a.start ∈ a.states
  current_mem : ∀ v ∈ a.run.current, v ∈ a.states
  ends : ∀ e ∈ es, e.source ∈ a.states ∧ e.target ∈ a.states
  label : ∀ e ∈ es, e.label ≠ .epsilon ∧ e.label ∈ a.alphabet
  epsilon_not_mem : .epsilon ∉ a.alphabet

/-- The machine in which a planned automaton is made. -/
def carryOut (g : Graph) (ns : List Node) (a : Automaton) (es : List Edge) : Machine :=
  connectAll { graph := g.addAll ns, automaton := a } es

namespace Plan

variable {g : Graph} {ns : List Node} {a : Automaton} {es : List Edge}

/-- Only edges are added once the states are there. -/
theorem graph_eq : (carryOut g ns a es).graph = (g.addAll ns).linkAll es :=
  graph_connectAll es

/-- Each state of the automaton has a number, which is counted from the first place that was
free. -/
theorem exists_number (h : Plan g ns a es) {v : Nat} (hv : v ∈ a.states) :
    ∃ i, i < ns.length ∧ v = g.size + i :=
  Automaton.exists_place_row h.mem_states hv

/-- Each number belongs to a state of the automaton. -/
theorem mem_number (h : Plan g ns a es) {i : Nat} (hi : i < ns.length) :
    g.size + i ∈ a.states :=
  (h.mem_states _).2 ⟨by omega, by omega⟩

/-- Adding the planned edges changes nothing about the automaton: their ends are states of it, and
their labels are in its alphabet. -/
theorem automaton_eq (h : Plan g ns a es) : (carryOut g ns a es).automaton = a := by
  have hstates : (carryOut g ns a es).automaton.states = a.states := states_connectAll h.ends
  have halphabet : (carryOut g ns a es).automaton.alphabet = a.alphabet := by
    ext l
    rw [carryOut, mem_alphabet_connectAll]
    constructor
    · rintro (hl | ⟨_, e, he, rfl⟩)
      · exact hl
      · exact (h.label e he).2
    · exact Or.inl
  have hrest := automaton_connectAll (m := { graph := g.addAll ns, automaton := a }) es
  rw [← carryOut, hstates, halphabet] at hrest
  exact hrest

/-- Before the edges are added no state of the automaton has any. -/
theorem unconnected (h : Plan g ns a es) {v : Vertex} (hv : v ∈ a.states) :
    (g.addAll ns).Unconnected v := by
  obtain ⟨i, hi, rfl⟩ := h.exists_number hv
  exact unconnected_addAll h.bare hi

/-- Before the edges are added the automaton is sound. The flags, the identifiers and the start
state are as the plan says, and without edges there is nothing to count. -/
theorem sound_bare (h : Plan g ns a es) : a.Sound (g.addAll ns) := by
  apply Automaton.Sound.of_consistent h.start_mem
  · intro v hv
    obtain ⟨i, hi, rfl⟩ := h.exists_number hv
    rw [node_addAll hi]
    exact h.isStart_iff i hi
  · intro v hv w hw heq
    obtain ⟨i, hi, rfl⟩ := h.exists_number hv
    -- places and numbers go together, so equal numbers are equal places
    obtain ⟨j, hj, rfl⟩ := h.exists_number hw
    rw [node_addAll hi, node_addAll hj, h.id_eq i hi, h.id_eq j hj] at heq
    rw [Int.ofNat.inj heq]
  · exact consistent_of_unconnected fun v hv => h.unconnected hv
  · intro v hv
    rw [size_addAll]
    exact ((h.mem_states v).1 hv).2
  · intro v hv l w hw
    rw [(h.unconnected hv).destinations_eq] at hw
    exact absurd hw (OrdSet.not_mem_empty w)
  · exact h.epsilon_not_mem
  · exact h.current_mem

/-- A planned automaton is sound. Each edge that is added to a sound automaton between two of its
states leaves it sound. -/
theorem sound (h : Plan g ns a es) : a.Sound (carryOut g ns a es).graph := by
  have hsound := h.sound_bare.connectAll (m := { graph := g.addAll ns, automaton := a }) h.ends
  rwa [← carryOut, h.automaton_eq] at hsound

/-- No place is filled by the edges. -/
theorem size_eq (h : Plan g ns a es) : (carryOut g ns a es).graph.size = g.size + ns.length := by
  have hplaced : ∀ v ∈ a.states, v < (g.addAll ns).size := h.sound_bare.placed
  rw [graph_eq, size_linkAll fun e he => ⟨hplaced _ (h.ends e he).1, hplaced _ (h.ends e he).2⟩,
    size_addAll]

/-- The old states are as they were. -/
theorem node_eq (h : Plan g ns a es) {v : Nat} (hv : v < g.size) :
    (carryOut g ns a es).graph.node v = g.node v := by
  have hspares : Spares { graph := g, automaton := a } (carryOut g ns a es) := by
    refine .of_assembled h.automaton_eq rfl ?_
    intro e he
    obtain ⟨hsource, htarget⟩ := h.ends e he
    exact ⟨((h.mem_states _).1 hsource).1, ((h.mem_states _).1 htarget).1⟩
  exact hspares.node_eq v hv

/-- The new states are as planned, apart from their edges. -/
theorem shell_eq {i : Nat} (hi : i < ns.length) :
    ((carryOut g ns a es).graph.node (g.size + i)).shell = ns[i].shell := by
  rw [graph_eq, shell_linkAll, node_addAll hi]

/-- The edges are the planned ones. -/
theorem mem_destinations (h : Plan g ns a es) {v w : Vertex} {l : Label} (hv : v ∈ a.states) :
    w ∈ (carryOut g ns a es).graph.destinations v l ↔ ⟨v, l, w⟩ ∈ es := by
  rw [graph_eq, mem_destinations_linkAll, (h.unconnected hv).destinations_eq]
  exact or_iff_right (OrdSet.not_mem_empty w)

/-- A planned automaton is deterministic if no two planned edges disagree. That none of them is
silent is a part of the plan. -/
theorem deterministic (h : Plan g ns a es)
    (hes : ∀ e ∈ es, ∀ d ∈ es, e.source = d.source → e.label = d.label → e.target = d.target) :
    (carryOut g ns a es).graph.Deterministic a.states where
  silent v hv := by
    rw [OrdSet.eq_empty_iff]
    intro w hw
    exact (h.label _ ((h.mem_destinations hv).1 hw)).1 rfl
  unique v hv l w hw u hu :=
    hes _ ((h.mem_destinations hv).1 hw) _ ((h.mem_destinations hv).1 hu) rfl rfl

end Plan

end Machine

end PatternAutomata
