/-
Sound automata, and the edits that keep them sound.

An automaton is sound if it is well formed and closed, its states are filled places of the
graph, the symbols of its edges are in its alphabet, which holds no silent label, and it can
only be in states of its own. This is what every edit may rely on and has to leave behind.
What can be reached in an automaton and what is collected of it depends on a part of this only
(`Framed`), so what is said about that is said of automata that are framed, and what can be read
depends on another part (`Labelled`). The two make up soundness (`Labelled.sound`).

Here this is shown of the edits that only add edges or set flags: connecting, moving the
start, merging, absorbing and joining. All of them come down to adding edges between states
of the automaton (`Sound.connectAll`) and to changing what is not looked at (`Sound.congr`).
-/
import PatternAutomata.Automaton.Merging
import PatternAutomata.Proofs.Structure.Consistent

set_option autoImplicit false

namespace PatternAutomata

namespace Automaton

/-- What decides which states can be reached and which are collected: the start state is the
only state flagged as start, the tables of the states agree, and states are places that the
graph has. -/
structure Framed (g : Graph) (a : Automaton) : Prop where
  start_mem : a.start ∈ a.states
  isStart_iff : ∀ v ∈ a.states, (g.node v).isStart = true ↔ v = a.start
  consistent : g.Consistent a.states
  placed : ∀ v ∈ a.states, v < g.size

namespace Framed

variable {g h : Graph} {a b : Automaton}

/-- Edges do not lead out of a framed automaton. -/
theorem target_mem (hf : a.Framed g) {v w : Vertex} {l : Label} (hv : v ∈ a.states)
    (hw : w ∈ g.destinations v l) : w ∈ a.states :=
  hf.consistent.target_mem v hv l w hw

/-- Of the states of an automaton only the tables and the start flags are looked at. Each lemma that
some edit keeps automata framed is this with what the edit leaves alone. -/
theorem congr (hf : a.Framed g) (states_eq : b.states = a.states) (start_eq : b.start = a.start)
    (same : ∀ v ∈ a.states, g.SameTables h v)
    (isStart_eq : ∀ v ∈ a.states, (h.node v).isStart = (g.node v).isStart)
    (size_le : g.size ≤ h.size) : b.Framed h where
  start_mem := by
    rw [states_eq, start_eq]
    exact hf.start_mem
  isStart_iff v hv := by
    rw [states_eq] at hv
    rw [isStart_eq v hv, start_eq]
    exact hf.isStart_iff v hv
  consistent := by
    rw [states_eq]
    exact hf.consistent.congr same
  placed v hv := by
    rw [states_eq] at hv
    exact Nat.lt_of_lt_of_le (hf.placed v hv) size_le

/-- The structure is the same in a graph that looks the same at the states. Work in another part of
the graph is harmless for that reason. -/
theorem congr_nodes (hf : a.Framed g) (node_eq : ∀ v ∈ a.states, h.node v = g.node v)
    (size_le : g.size ≤ h.size) : a.Framed h :=
  hf.congr rfl rfl (fun v hv => .of_node_eq (node_eq v hv))
    (fun v hv => by rw [node_eq v hv]) size_le

end Framed

/-- The structure that every edit relies on and keeps. -/
structure Sound (g : Graph) (a : Automaton) : Prop where
  wellFormed : a.WellFormed g
  closed : a.Closed g
  placed : ∀ v ∈ a.states, v < g.size
  label_mem : ∀ v ∈ a.states, ∀ l, ∀ w ∈ g.destinations v l, l ≠ .epsilon → l ∈ a.alphabet
  epsilon_not_mem : .epsilon ∉ a.alphabet
  current_mem : ∀ v ∈ a.run.current, v ∈ a.states

namespace Sound

variable {g h : Graph} {a b : Automaton}

theorem start_mem (hs : a.Sound g) : a.start ∈ a.states := hs.wellFormed.start_mem

/-- In a sound automaton the start state, and no other of its states, is flagged as start. -/
theorem isStart_iff (hs : a.Sound g) {v : Vertex} (hv : v ∈ a.states) :
    (g.node v).isStart = true ↔ v = a.start :=
  hs.wellFormed.isStart_iff v hv

/-- States of a sound automaton are told apart by their identifiers. -/
theorem id_injective (hs : a.Sound g) {v w : Vertex} (hv : v ∈ a.states) (hw : w ∈ a.states)
    (e : (g.node v).id = (g.node w).id) : v = w :=
  hs.wellFormed.id_injective v hv w hw e

/-- The two tables of its states agree, and the counts with them. -/
theorem consistent (hs : a.Sound g) : g.Consistent a.states :=
  hs.wellFormed.consistent hs.closed

/-- Edges do not lead out of a sound automaton. -/
theorem target_mem (hs : a.Sound g) {v w : Vertex} {l : Label} (hv : v ∈ a.states)
    (hw : w ∈ g.destinations v l) : w ∈ a.states :=
  hs.wellFormed.target_mem v hv l w hw

/-- The parts that make an automaton sound. Well-formedness and closedness are put together from the
agreement of the tables, which is how edits establish them. -/
theorem of_consistent (start_mem : a.start ∈ a.states)
    (isStart_iff : ∀ v ∈ a.states, (g.node v).isStart = true ↔ v = a.start)
    (id_injective : ∀ v ∈ a.states, ∀ w ∈ a.states, (g.node v).id = (g.node w).id → v = w)
    (consistent : g.Consistent a.states) (placed : ∀ v ∈ a.states, v < g.size)
    (label_mem : ∀ v ∈ a.states, ∀ l, ∀ w ∈ g.destinations v l, l ≠ .epsilon → l ∈ a.alphabet)
    (epsilon_not_mem : .epsilon ∉ a.alphabet)
    (current_mem : ∀ v ∈ a.run.current, v ∈ a.states) : a.Sound g := by
  obtain ⟨hwell, hclosed⟩ :=
    wellFormed_closed_iff.2 ⟨start_mem, isStart_iff, id_injective, consistent⟩
  exact ⟨hwell, hclosed, placed, label_mem, epsilon_not_mem, current_mem⟩

/-- What decides about reaching and collecting, and the rest of the structure. An edit is shown to
keep the first part by itself, since much that is said needs no more. -/
theorem of_framed (framed : a.Framed g)
    (id_injective : ∀ v ∈ a.states, ∀ w ∈ a.states, (g.node v).id = (g.node w).id → v = w)
    (label_mem : ∀ v ∈ a.states, ∀ l, ∀ w ∈ g.destinations v l, l ≠ .epsilon → l ∈ a.alphabet)
    (epsilon_not_mem : .epsilon ∉ a.alphabet)
    (current_mem : ∀ v ∈ a.run.current, v ∈ a.states) : a.Sound g :=
  of_consistent framed.start_mem framed.isStart_iff id_injective framed.consistent framed.placed
    label_mem epsilon_not_mem current_mem

/-- The part of soundness that decides about reaching and collecting. -/
theorem framed (hs : a.Sound g) : a.Framed g :=
  ⟨hs.start_mem, fun _ hv => hs.isStart_iff hv, hs.consistent, hs.placed⟩

/-- Soundness looks at the states of an automaton only, and there only at the tables, the
identifiers and the start flags. So a change to acceptance, to captions, or anywhere else in the
graph keeps every automaton sound. -/
theorem congr (hs : a.Sound g) (states_eq : b.states = a.states) (start_eq : b.start = a.start)
    (alphabet_eq : b.alphabet = a.alphabet) (current_mem : ∀ v ∈ b.run.current, v ∈ a.states)
    (same : ∀ v ∈ a.states, g.SameTables h v)
    (id_eq : ∀ v ∈ a.states, (h.node v).id = (g.node v).id)
    (isStart_eq : ∀ v ∈ a.states, (h.node v).isStart = (g.node v).isStart)
    (size_le : g.size ≤ h.size) : b.Sound h := by
  apply of_framed (hs.framed.congr states_eq start_eq same isStart_eq size_le)
  · intro v hv w hw e
    rw [states_eq] at hv hw
    rw [id_eq v hv, id_eq w hw] at e
    exact hs.id_injective hv hw e
  · intro v hv l w hw hl
    rw [states_eq] at hv
    rw [(same v hv).destinations_eq] at hw
    rw [alphabet_eq]
    exact hs.label_mem v hv l w hw hl
  · rw [alphabet_eq]
    exact hs.epsilon_not_mem
  · rw [states_eq]
    exact current_mem

/-- An automaton stays sound in a graph that looks the same at its states. Work on one automaton is
harmless for another one for that reason, as long as the two have no states in common. -/
theorem congr_nodes (hs : a.Sound g) (node_eq : ∀ v ∈ a.states, h.node v = g.node v)
    (size_le : g.size ≤ h.size) : a.Sound h :=
  hs.congr rfl rfl rfl hs.current_mem (fun v hv => .of_node_eq (node_eq v hv))
    (fun v hv => by rw [node_eq v hv]) (fun v hv => by rw [node_eq v hv]) size_le

end Sound

/-- What reading and merging ask of an automaton: it passes the check, and its alphabet has the
symbols of its edges and nothing that reads nothing. -/
structure Labelled (g : Graph) (a : Automaton) : Prop where
  wellFormed : a.WellFormed g
  label_mem : ∀ v ∈ a.states, ∀ l, ∀ w ∈ g.destinations v l, l ≠ .epsilon → l ∈ a.alphabet
  epsilon_not_mem : .epsilon ∉ a.alphabet

variable {g h : Graph} {a b : Automaton}

/-- The part of soundness that decides about reading. -/
theorem Sound.labelled (ha : a.Sound g) : a.Labelled g :=
  ⟨ha.wellFormed, ha.label_mem, ha.epsilon_not_mem⟩

namespace Labelled

/-- What reading asks, and what reaching and collecting ask, make up the structure. Only the current
states are said of neither. -/
theorem sound (ha : a.Labelled g) (framed : a.Framed g)
    (current_mem : ∀ v ∈ a.run.current, v ∈ a.states) : a.Sound g :=
  ⟨ha.wellFormed, framed.consistent.source_mem, framed.placed, ha.label_mem, ha.epsilon_not_mem,
    current_mem⟩

theorem start_mem (ha : a.Labelled g) : a.start ∈ a.states := ha.wellFormed.start_mem

/-- The start flag is where the automaton starts, by the check alone. -/
theorem isStart_iff (ha : a.Labelled g) {v : Vertex} (hv : v ∈ a.states) :
    (g.node v).isStart = true ↔ v = a.start :=
  ha.wellFormed.isStart_iff v hv

theorem id_injective (ha : a.Labelled g) {v w : Vertex} (hv : v ∈ a.states) (hw : w ∈ a.states)
    (e : (g.node v).id = (g.node w).id) : v = w :=
  ha.wellFormed.id_injective v hv w hw e

/-- Edges do not lead out of the automaton, by the check alone. -/
theorem target_mem (ha : a.Labelled g) {v w : Vertex} {l : Label} (hv : v ∈ a.states)
    (hw : w ∈ g.destinations v l) : w ∈ a.states :=
  ha.wellFormed.target_mem v hv l w hw

/-- An automaton reads the same in a graph with the same tables, identifiers and start flags. Here
all places count, as edges into the automaton from outside are not excluded. -/
theorem congr (ha : a.Labelled g) (same : ∀ v, g.SameTables h v)
    (id_eq : ∀ v, (h.node v).id = (g.node v).id)
    (isStart_eq : ∀ v, (h.node v).isStart = (g.node v).isStart) : a.Labelled h where
  wellFormed := by
    simp only [wellFormed_iff, id_eq, isStart_eq]
    exact ⟨ha.start_mem, ha.wellFormed.isStart_iff, ha.wellFormed.id_injective,
      ha.wellFormed.coherent.congr same⟩
  label_mem v hv l w hw := by
    rw [(same v).destinations_eq] at hw
    exact ha.label_mem v hv l w hw
  epsilon_not_mem := ha.epsilon_not_mem

end Labelled

end Automaton

/-! ## The size of a graph -/

namespace Graph

variable {g : Graph}

/-- An update at an unfilled place makes the graph grow up to there. -/
theorem size_update (v : Nat) (f : Node → Node) :
    (g.update v f).size = max g.size (v + 1) := by
  rw [update]
  by_cases hv : v < g.size
  · have hsize : (g.nodes.modify v f).size = g.nodes.size := Array.size_modify
    rw [if_pos hv, size, hsize]
    unfold size at hv ⊢
    omega
  · rw [if_neg hv]
    unfold size at hv ⊢
    simp only [Array.size_push, Array.size_append, Array.size_replicate]
    omega

/-- No update makes a graph shrink. -/
theorem size_le_update (v : Vertex) (f : Node → Node) : g.size ≤ (g.update v f).size := by
  rw [size_update]
  exact Nat.le_max_left ..

/-- An edge fills both its ends, if they are not filled already. -/
theorem size_link (e : Edge) :
    (g.link e).size = max (max g.size (e.source + 1)) (e.target + 1) := by
  rw [link]
  cases g.hasEdge e
  case true => simp only [if_true, size_update]
  case false =>
    simp only [Bool.false_eq_true, if_false, size_update]
    -- the target is filled twice
    rw [Nat.max_right_comm (max _ _), Nat.max_assoc g.size, Nat.max_self, Nat.max_right_comm]

theorem size_unlink (e : Edge) :
    (g.unlink e).size = max (max g.size (e.source + 1)) (e.target + 1) := by
  rw [unlink, size_update, size_update]

/-- A new state takes the first free place. -/
theorem size_add (n : Node) : (g.add n).2.size = g.size + 1 := by
  rw [add]
  exact Array.size_push n

end Graph

/-! ## What an edge leaves alone -/

namespace Graph

variable {g h : Graph}

/-- The graph with several edges. -/
def linkAll (g : Graph) (es : List Edge) : Graph := es.foldl link g

theorem linkAll_cons (e : Edge) (es : List Edge) :
    g.linkAll (e :: es) = (g.link e).linkAll es := by
  rw [linkAll, List.foldl_cons, ← linkAll]

/-- However many edges are added, they show in tables and counts only. -/
theorem shell_linkAll (es : List Edge) (v : Vertex) :
    ((g.linkAll es).node v).shell = (g.node v).shell := by
  induction es generalizing g with
  | nil => rfl
  | cons e es ih => rw [linkAll_cons, ih, shell_link]

/-- The edges after several were added are those there were and those added. By induction on the
list, with the graph changing underneath. -/
theorem mem_destinations_linkAll {es : List Edge} {v w : Vertex} {l : Label} :
    w ∈ (g.linkAll es).destinations v l ↔ w ∈ g.destinations v l ∨ ⟨v, l, w⟩ ∈ es := by
  induction es generalizing g with
  | nil =>
    constructor
    · exact Or.inl
    · rintro (hw | hw)
      · exact hw
      · exact absurd hw List.not_mem_nil
  | cons e es ih =>
    rw [linkAll_cons, ih, mem_destinations_link, List.mem_cons]
    constructor
    · rintro ((hw | hw) | hw)
      · exact Or.inl hw
      · exact Or.inr (Or.inl hw)
      · exact Or.inr (Or.inr hw)
    · rintro (hw | hw | hw)
      · exact Or.inl (Or.inl hw)
      · exact Or.inl (Or.inr hw)
      · exact Or.inr hw

/-- A state that is an end of none of the edges is not changed at all. -/
theorem node_linkAll_of_not_mem {es : List Edge} {v : Vertex}
    (hv : ∀ e ∈ es, v ≠ e.source ∧ v ≠ e.target) : (g.linkAll es).node v = g.node v := by
  induction es generalizing g with
  | nil => rfl
  | cons e es ih =>
    obtain ⟨hs, ht⟩ := hv e List.mem_cons_self
    have hes : ∀ e ∈ es, v ≠ e.source ∧ v ≠ e.target :=
      fun e' he' => hv e' (List.mem_cons_of_mem _ he')
    rw [linkAll_cons, ih hes, node_link_of_ne hs ht]

/-- Edges between filled places fill no others. -/
theorem size_linkAll {es : List Edge} (hes : ∀ e ∈ es, e.source < g.size ∧ e.target < g.size) :
    (g.linkAll es).size = g.size := by
  induction es generalizing g with
  | nil => rfl
  | cons e es ih =>
    obtain ⟨hs, ht⟩ := hes e List.mem_cons_self
    have hsize : (g.link e).size = g.size := by
      rw [size_link, Nat.max_eq_left hs, Nat.max_eq_left ht]
    rw [linkAll_cons, ih, hsize]
    intro e' he'
    rw [hsize]
    exact hes e' (List.mem_cons_of_mem _ he')

/-- Edges never make a graph shrink. -/
theorem size_le_linkAll (es : List Edge) : g.size ≤ (g.linkAll es).size := by
  induction es generalizing g with
  | nil => exact Nat.le_refl _
  | cons e es ih =>
    have hlink : g.size ≤ (g.link e).size := by
      rw [size_link]
      exact Nat.le_trans (Nat.le_max_left ..) (Nat.le_max_left ..)
    rw [linkAll_cons]
    exact Nat.le_trans hlink ih

end Graph

/-! ## Adding edges to an automaton -/

namespace Machine

variable {m : Machine}

/-- To connect is to add an edge to the graph; the rest is done to the automaton. -/
theorem graph_connect (e : Edge) : (m.connect e).graph = m.graph.link e := by rw [connect]

theorem id_connect (e : Edge) (v : Vertex) :
    ((m.connect e).graph.node v).id = (m.graph.node v).id := by
  rw [graph_connect, Graph.id_link]

theorem isAccepting_connect (e : Edge) (v : Vertex) :
    ((m.connect e).graph.node v).isAccepting = (m.graph.node v).isAccepting := by
  rw [graph_connect, Graph.isAccepting_link]

/-- A state that is neither end of the edge is not changed at all. -/
theorem node_connect_of_ne {e : Edge} {v : Vertex} (hs : v ≠ e.source) (ht : v ≠ e.target) :
    (m.connect e).graph.node v = m.graph.node v := by
  rw [graph_connect, Graph.node_link_of_ne hs ht]

/-- Between filled places an edge needs no new one. -/
theorem size_connect {e : Edge} (hs : e.source < m.graph.size) (ht : e.target < m.graph.size) :
    (m.connect e).graph.size = m.graph.size := by
  rw [graph_connect, Graph.size_link, Nat.max_eq_left hs, Nat.max_eq_left ht]

theorem connectAll_cons (e : Edge) (es : List Edge) :
    m.connectAll (e :: es) = (m.connect e).connectAll es :=
  List.foldl_cons ..

/-- The graph of an automaton that got several edges is the graph with these edges. -/
theorem graph_connectAll (es : List Edge) : (m.connectAll es).graph = m.graph.linkAll es := by
  induction es generalizing m with
  | nil => rfl
  | cons e es ih =>
    rw [connectAll_cons, ih, graph_connect, Graph.linkAll_cons]

/-- What edges leave alone in an automaton: its start, its run, and whether it is strict or was
handed over. Only states and symbols can be new. -/
theorem automaton_connectAll (es : List Edge) :
    (m.connectAll es).automaton = { m.automaton with
      states := (m.connectAll es).automaton.states
      alphabet := (m.connectAll es).automaton.alphabet } := by
  induction es generalizing m with
  | nil => rfl
  | cons e es ih =>
    rw [connectAll_cons, ih]
    rfl

theorem start_connectAll (es : List Edge) :
    (m.connectAll es).automaton.start = m.automaton.start := by
  rw [automaton_connectAll]

theorem strict_connectAll (es : List Edge) :
    (m.connectAll es).automaton.strict = m.automaton.strict := by
  rw [automaton_connectAll]

theorem discarded_connectAll (es : List Edge) :
    (m.connectAll es).automaton.discarded = m.automaton.discarded := by
  rw [automaton_connectAll]

/-- The ends of an edge become states of the automaton. -/
theorem mem_states_connect {e : Edge} {v : Vertex} :
    v ∈ (m.connect e).automaton.states ↔
      v ∈ m.automaton.states ∨ v = e.source ∨ v = e.target := by
  simp only [connect, OrdSet.mem_insert]
  grind

/-- An edge between states of the automaton brings in no others. -/
theorem states_connect {e : Edge} (hs : e.source ∈ m.automaton.states)
    (ht : e.target ∈ m.automaton.states) :
    (m.connect e).automaton.states = m.automaton.states := by
  ext v
  rw [mem_states_connect]
  constructor
  · rintro (hv | rfl | rfl)
    · exact hv
    · exact hs
    · exact ht
  · exact Or.inl

/-- The symbol of an edge joins the alphabet, unless the edge is silent. -/
theorem mem_alphabet_connect {e : Edge} {l : Label} :
    l ∈ (m.connect e).automaton.alphabet ↔
      l ∈ m.automaton.alphabet ∨ l ≠ .epsilon ∧ e.label = l := by
  -- a silent edge brings no symbol
  by_cases he : e.label = .epsilon
  · simp only [connect, if_pos he]
    constructor
    · exact Or.inl
    · rintro (hl | ⟨hne, hl⟩)
      · exact hl
      · exact absurd (hl.symm.trans he) hne
  · simp only [connect, if_neg he, OrdSet.mem_insert]
    constructor
    · rintro (rfl | hl)
      · exact Or.inr ⟨he, rfl⟩
      · exact Or.inl hl
    · rintro (hl | ⟨_, rfl⟩)
      · exact Or.inr hl
      · exact Or.inl rfl

/-- After several edges the states are those there were and the ends of the edges. -/
theorem mem_states_connectAll {es : List Edge} {v : Vertex} :
    v ∈ (m.connectAll es).automaton.states ↔
      v ∈ m.automaton.states ∨ ∃ e ∈ es, v = e.source ∨ v = e.target := by
  induction es generalizing m with
  | nil => simp [connectAll]
  | cons e es ih =>
    rw [connectAll_cons, ih, mem_states_connect, List.exists_mem_cons_iff, or_assoc]

/-- Edges between states of the automaton bring in no others. -/
theorem states_connectAll {es : List Edge}
    (hes : ∀ e ∈ es, e.source ∈ m.automaton.states ∧ e.target ∈ m.automaton.states) :
    (m.connectAll es).automaton.states = m.automaton.states := by
  ext v
  rw [mem_states_connectAll]
  constructor
  · rintro (hv | ⟨e, he, rfl | rfl⟩)
    · exact hv
    · exact (hes e he).1
    · exact (hes e he).2
  · exact Or.inl

/-- What an edge between states keeps, several such edges keep. The condition is on the states
before any edge is added, and since these edges bring in no states it is there at every step. -/
theorem connectAll_induction {P : Machine → Prop} {es : List Edge}
    (step : ∀ {m : Machine} {e : Edge}, P m → e.source ∈ m.automaton.states →
      e.target ∈ m.automaton.states → P (m.connect e))
    (hes : ∀ e ∈ es, e.source ∈ m.automaton.states ∧ e.target ∈ m.automaton.states) (hm : P m) :
    P (m.connectAll es) := by
  induction es generalizing m with
  | nil => exact hm
  | cons e es ih =>
    obtain ⟨hs, ht⟩ := hes e List.mem_cons_self
    rw [connectAll_cons]
    refine ih (fun e' he' => ?_) (step hm hs ht)
    rw [states_connect hs ht]
    exact hes e' (List.mem_cons_of_mem _ he')

/-- After several edges the symbols are those there were and those of the edges. -/
theorem mem_alphabet_connectAll {es : List Edge} {l : Label} :
    l ∈ (m.connectAll es).automaton.alphabet ↔
      l ∈ m.automaton.alphabet ∨ l ≠ .epsilon ∧ ∃ e ∈ es, e.label = l := by
  induction es generalizing m with
  | nil => simp [connectAll]
  | cons e es ih =>
    rw [connectAll_cons, ih, mem_alphabet_connect, List.exists_mem_cons_iff]
    tauto

end Machine

namespace Automaton.Framed

variable {m : Machine}

/-- An edge between states leaves the rest of the structure alone: the tables at its two ends still
agree, and no flag has changed. -/
theorem connect (hf : m.automaton.Framed m.graph) {e : Edge}
    (hs : e.source ∈ m.automaton.states) (ht : e.target ∈ m.automaton.states) :
    (m.connect e).automaton.Framed (m.connect e).graph where
  start_mem := by
    rw [Machine.states_connect hs ht]
    exact hf.start_mem
  isStart_iff v hv := by
    rw [Machine.states_connect hs ht] at hv
    rw [Machine.graph_connect, Graph.isStart_link]
    exact hf.isStart_iff v hv
  consistent := by
    -- the tables of both ends change together
    rw [Machine.states_connect hs ht, Machine.graph_connect]
    exact hf.consistent.link hs ht
  placed v hv := by
    rw [Machine.states_connect hs ht] at hv
    rw [Machine.graph_connect, Graph.size_link]
    exact Nat.lt_of_lt_of_le (hf.placed v hv)
      (Nat.le_trans (Nat.le_max_left ..) (Nat.le_max_left ..))

/-- So do several edges between states. -/
theorem connectAll (hf : m.automaton.Framed m.graph) {es : List Edge}
    (hes : ∀ e ∈ es, e.source ∈ m.automaton.states ∧ e.target ∈ m.automaton.states) :
    (m.connectAll es).automaton.Framed (m.connectAll es).graph :=
  Machine.connectAll_induction (P := fun m => m.automaton.Framed m.graph)
    (fun hm hs ht => hm.connect hs ht) hes hf

end Automaton.Framed

namespace Automaton.Labelled

variable {m : Machine}

/-- An edge between states brings its symbol along, so that the alphabet has the symbols of all
edges again. -/
theorem connect (hm : m.automaton.Labelled m.graph) {e : Edge}
    (hs : e.source ∈ m.automaton.states) (ht : e.target ∈ m.automaton.states) :
    (m.connect e).automaton.Labelled (m.connect e).graph where
  wellFormed := by
    simp only [wellFormed_iff, Machine.states_connect hs ht, Machine.graph_connect,
      Graph.isStart_link, Graph.id_link]
    exact ⟨hm.start_mem, hm.wellFormed.isStart_iff, hm.wellFormed.id_injective,
      hm.wellFormed.coherent.link hs ht⟩
  label_mem v hv l w hw hl := by
    rw [Machine.states_connect hs ht] at hv
    rw [Machine.graph_connect] at hw
    apply Machine.mem_alphabet_connect.2
    rcases Graph.mem_destinations_link.1 hw with hw | rfl
    · exact Or.inl (hm.label_mem v hv l w hw hl)
    · exact Or.inr ⟨hl, rfl⟩
  epsilon_not_mem hmem := by
    rcases Machine.mem_alphabet_connect.1 hmem with hmem | ⟨hne, _⟩
    · exact hm.epsilon_not_mem hmem
    · exact hne rfl

/-- So do several edges between states. -/
theorem connectAll (hm : m.automaton.Labelled m.graph) {es : List Edge}
    (hes : ∀ e ∈ es, e.source ∈ m.automaton.states ∧ e.target ∈ m.automaton.states) :
    (m.connectAll es).automaton.Labelled (m.connectAll es).graph :=
  Machine.connectAll_induction (P := fun m => m.automaton.Labelled m.graph)
    (fun hm hs ht => hm.connect hs ht) hes hm

end Automaton.Labelled

namespace Automaton.Sound

variable {m : Machine}

/-- Adding an edge between states keeps an automaton sound. The current states do not follow the new
edge by themselves, and they remain states of the automaton. -/
theorem connect (hm : m.automaton.Sound m.graph) {e : Edge}
    (hs : e.source ∈ m.automaton.states) (ht : e.target ∈ m.automaton.states) :
    (m.connect e).automaton.Sound (m.connect e).graph := by
  apply (hm.labelled.connect hs ht).sound (hm.framed.connect hs ht)
  rw [Machine.states_connect hs ht]
  exact hm.current_mem

/-- Adding several edges between states keeps an automaton sound. -/
theorem connectAll (hm : m.automaton.Sound m.graph) {es : List Edge}
    (hes : ∀ e ∈ es, e.source ∈ m.automaton.states ∧ e.target ∈ m.automaton.states) :
    (m.connectAll es).automaton.Sound (m.connectAll es).graph := by
  apply (hm.labelled.connectAll hes).sound (hm.framed.connectAll hes)
  rw [Machine.states_connectAll hes, Machine.automaton_connectAll]
  exact hm.current_mem

end Automaton.Sound

/-! ## Silent edges in a round -/

/-- Three states without edges. -/
def threeBare : Machine where
  graph := ⟨#[{ id := 7, isStart := true }, { id := 5, isAccepting := true }, { id := 9 }]⟩
  automaton := { start := 0, states := .ofList [0, 1, 2], alphabet := ∅ }

/-- Three states without edges make a sound automaton: all that has to be checked is finite. -/
theorem sound_threeBare : threeBare.automaton.Sound threeBare.graph := by
  have hmem : ∀ v ∈ threeBare.automaton.states, v = 0 ∨ v = 1 ∨ v = 2 := by
    intro v hv
    simpa using OrdSet.mem_ofList.1 hv
  have hunconnected : ∀ v ∈ threeBare.automaton.states, threeBare.graph.Unconnected v := by
    intro v hv
    rcases hmem v hv with rfl | rfl | rfl <;> exact ⟨rfl, rfl, rfl⟩
  apply Automaton.Sound.of_consistent
  · decide
  · intro v hv
    rcases hmem v hv with rfl | rfl | rfl <;> decide
  · intro v hv w hw
    rcases hmem v hv with rfl | rfl | rfl <;> rcases hmem w hw with rfl | rfl | rfl <;> decide
  · exact Graph.consistent_of_unconnected hunconnected
  · intro v hv
    rcases hmem v hv with rfl | rfl | rfl <;> decide
  · intro v hv l w hw
    rw [(hunconnected v hv).destinations_eq] at hw
    exact absurd hw (OrdSet.not_mem_empty w)
  · decide
  · intro v hv
    exact absurd hv (OrdSet.not_mem_empty v)

/-- The first two states lead to each other without reading, the second one also to itself, and
nothing leads to the third one. -/
def silentRound : Machine :=
  threeBare.connectAll [⟨0, .epsilon, 1⟩, ⟨1, .epsilon, 0⟩, ⟨1, .epsilon, 1⟩, ⟨1, .symbol "a", 0⟩,
    ⟨2, .symbol "b", 1⟩]

/-- Adding the silent edges keeps it sound, by what was said of connecting. -/
theorem sound_silentRound : silentRound.automaton.Sound silentRound.graph :=
  sound_threeBare.connectAll (by decide)

end PatternAutomata
