/-
Settling an automaton that passes the check.

The check looks at the tables, the flags and the identifiers of the states only. It says
nothing about the alphabet, about how far the automaton has read, or about how many places of
the graph are filled. So an automaton that passes the check is compared with one that has the
same states and differs from it in these things alone (`Machine.settled`): that one is sound, and
both mirror each other at the same places, so what is known of edits in sound automata carries
over.
-/
import PatternAutomata.Proofs.Renaming.Edits

set_option autoImplicit false

namespace PatternAutomata

/-! ## Filling places

Filling a place that is free changes nothing that can be looked up there. -/

namespace Graph

variable {g h : Graph}

/-- The graph with some places filled, if they were not. -/
def fill (g : Graph) (vs : List Vertex) : Graph := vs.foldl (fun g v => g.update v id) g

/-- Filling puts states there that look like what was found before. -/
theorem node_fill (vs : List Vertex) (v : Vertex) : (g.fill vs).node v = g.node v := by
  induction vs generalizing g with
  | nil => rfl
  | cons w vs ih =>
    have hstep : (g.fill (w :: vs)).node v = (g.update w id).node v := ih
    rw [hstep, node_update]
    split
    · next heq => rw [heq, id_eq]
    · rfl

/-- Filling takes no place away. -/
theorem size_le_fill (vs : List Vertex) : g.size ≤ (g.fill vs).size := by
  induction vs generalizing g with
  | nil => exact Nat.le_refl _
  | cons w vs ih => exact Nat.le_trans (size_le_update w id) ih

/-- The places that were to be filled are filled. -/
theorem lt_size_fill {vs : List Vertex} {v : Vertex} (hv : v ∈ vs) : v < (g.fill vs).size := by
  induction vs generalizing g with
  | nil => nomatch hv
  | cons w vs ih =>
    rcases List.mem_cons.1 hv with rfl | hv
    · have hfilled : v < (g.update v id).size := by
        rw [size_update]
        exact Nat.lt_of_lt_of_le (Nat.lt_succ_self v) (Nat.le_max_right ..)
      exact Nat.lt_of_lt_of_le hfilled (size_le_fill vs)
    · exact ih hv

/-- The symbols that some states can read. -/
def symbolsOf (g : Graph) (vs : VertexSet) : Alphabet :=
  .erase (.ofList (vs.toList.flatMap fun v => (g.node v).next.pairs.map (·.1))) .epsilon

/-- A symbol can be read if it is not silent and some edge has it. -/
theorem mem_symbolsOf {vs : VertexSet} {l : Label} :
    l ∈ g.symbolsOf vs ↔ l ≠ .epsilon ∧ ∃ v ∈ vs, ∃ w, w ∈ g.destinations v l := by
  rw [symbolsOf, OrdSet.mem_erase, OrdSet.mem_ofList, List.mem_flatMap, and_comm]
  apply and_congr_right'
  apply exists_congr
  intro v
  apply and_congr_right'
  rw [List.mem_map]
  constructor
  · rintro ⟨⟨_, w⟩, hpair, rfl⟩
    exact ⟨w, Table.mem_pairs.1 hpair⟩
  · rintro ⟨w, hw⟩
    exact ⟨(l, w), Table.mem_pairs.2 hw, rfl⟩

end Graph

/-! ## Settling an automaton -/

/-- Being well formed and closed is about the start state and what the states hold. Alphabet, run
and flags of the automaton play no part in it. -/
theorem Automaton.wellFormed_closed_congr {g h : Graph} {a b : Automaton}
    (ha : a.WellFormed g ∧ a.Closed g) (start_eq : b.start = a.start)
    (states_eq : b.states = a.states) (node_eq : ∀ v, h.node v = g.node v) :
    b.WellFormed h ∧ b.Closed h := by
  obtain ⟨hstart, hflag, hid, hconsistent⟩ := wellFormed_closed_iff.1 ha
  rw [wellFormed_closed_iff, states_eq, start_eq]
  refine ⟨hstart, ?_, ?_, hconsistent.congr fun v _ => .of_node_eq (node_eq v)⟩
  · intro v hv
    rw [node_eq]
    exact hflag v hv
  · intro v hv w hw
    rw [node_eq, node_eq]
    exact hid v hv w hw

namespace Machine

/-- The machine with the places of its states filled, the symbols that these can read as its
alphabet, and nothing read. -/
def settled (m : Machine) : Machine where
  graph := m.graph.fill m.automaton.states.toList
  automaton := { m.automaton with alphabet := m.graph.symbolsOf m.automaton.states, run := {} }

variable {m : Machine}

/-- Settling changes only what is not compared. -/
theorem mirrors_settled (m : Machine) : m.settled.Mirrors False id m where
  graph := {
    strictMono := strictMono_id
    node_eq := fun v => by rw [Graph.rename_id, settled, Graph.node_fill, id_eq]
    free := False.elim
    filled := False.elim }
  automaton := {
    start_eq := rfl
    states_eq := (OrdSet.image_id _).symm
    alphabet_eq := False.elim
    strict_eq := rfl
    discarded_eq := rfl }

/-- A settled automaton is sound: its places are filled, its alphabet has all symbols that its edges
read, and its run is at the beginning. -/
theorem sound_settled (hm : m.automaton.WellFormed m.graph ∧ m.automaton.Closed m.graph) :
    m.settled.automaton.Sound m.settled.graph := by
  have hnode : ∀ v, m.settled.graph.node v = m.graph.node v := Graph.node_fill _
  obtain ⟨hwell, hclosed⟩ := Automaton.wellFormed_closed_congr (a := m.automaton)
    (b := m.settled.automaton) hm rfl rfl hnode
  refine ⟨hwell, hclosed, ?_, ?_, ?_, ?_⟩
  · intro v hv
    exact Graph.lt_size_fill (OrdSet.mem_toList.2 hv)
  · intro v hv l w hw hl
    rw [Graph.destinations, hnode] at hw
    exact Graph.mem_symbolsOf.2 ⟨hl, v, hv, w, hw⟩
  · exact fun hmem => (Graph.mem_symbolsOf.1 hmem).1 rfl
  · exact fun v hv => absurd hv (OrdSet.not_mem_empty v)

end Machine

end PatternAutomata
