/-
What the edits of an automaton do, and that they keep it sound.

For each edit that adds edges or changes flags there is one statement on what it leaves
behind and one on soundness. The first ones say which edges there are afterwards and which
states accept, so that nothing later has to look inside an edit. Framed automata stay framed as
well.

A state from outside may join an automaton if it is fresh: it has no edges, is not flagged
as start, and no state of the automaton has its identifier.
-/
import PatternAutomata.Automaton.Reading
import PatternAutomata.Automaton.Trap
import PatternAutomata.Proofs.Structure.Sound

set_option autoImplicit false

namespace PatternAutomata

namespace Graph

variable {g : Graph}

/-- The edges out of a state are those of its table, whatever order they are listed in. -/
theorem mem_outEdges {v w : Vertex} {l : Label} :
    (l, w) ∈ g.outEdges v ↔ w ∈ g.destinations v l := by
  rw [outEdges, List.mem_flatMap, destinations, Table.under]
  constructor
  · rintro ⟨⟨k, vs⟩, hentry, hmem⟩
    obtain ⟨u, hu, heq⟩ := List.mem_map.1 hmem
    obtain ⟨rfl, rfl⟩ := Prod.mk.inj heq
    rw [OrdMap.mem_entries_iff.1 hentry]
    exact (g.mem_inOrder).1 hu
  · intro hw
    cases hget : (g.node v).next.get? l with
    | none =>
      rw [hget] at hw
      exact absurd hw (OrdSet.not_mem_empty w)
    | some vs =>
      rw [hget] at hw
      exact ⟨(l, vs), OrdMap.mem_entries_iff.2 hget,
        List.mem_map_of_mem ((g.mem_inOrder).2 hw)⟩

/-- The edges that a state gets if it is given those of another one, with their targets
replaced. -/
def copies (g : Graph) (source target : Vertex) (f : Vertex → Vertex) : List Edge :=
  (g.outEdges source).map fun e => ⟨target, e.1, f e.2⟩

/-- An edge is among the copies if it starts at the target and its end replaces the end of an edge
of the other state. -/
theorem mem_copies {source target v w : Vertex} {l : Label} {f : Vertex → Vertex} :
    ⟨v, l, w⟩ ∈ g.copies source target f ↔
      v = target ∧ ∃ u ∈ g.destinations source l, f u = w := by
  rw [copies, List.mem_map]
  constructor
  · rintro ⟨⟨k, u⟩, hmem, heq⟩
    obtain ⟨rfl, rfl, rfl⟩ := Edge.mk.inj heq
    exact ⟨rfl, u, mem_outEdges.1 hmem, rfl⟩
  · rintro ⟨rfl, u, hu, rfl⟩
    exact ⟨(l, u), mem_outEdges.2 hu, rfl⟩

end Graph

namespace Machine

variable {m : Machine}

/-! ## Flags -/

/-- A start flag is set at the one state it is set for. -/
theorem node_flagStart (v w : Vertex) (flag : Bool) :
    (m.flagStart v flag).graph.node w =
      if w = v then { m.graph.node v with isStart := flag } else m.graph.node w :=
  Graph.node_update

/-- So is the flag of an accepting state. -/
theorem node_flagAccepting (v w : Vertex) (flag : Bool) :
    (m.flagAccepting v flag).graph.node w =
      if w = v then { m.graph.node v with isAccepting := flag } else m.graph.node w :=
  Graph.node_update

/-- Flags are no tables: a start flag leaves all edges and counts as they are. -/
theorem sameTables_flagStart (v w : Vertex) (flag : Bool) :
    m.graph.SameTables (m.flagStart v flag).graph w := by
  constructor <;> rw [node_flagStart] <;> split <;> simp_all

theorem sameTables_flagAccepting (v w : Vertex) (flag : Bool) :
    m.graph.SameTables (m.flagAccepting v flag).graph w := by
  constructor <;> rw [node_flagAccepting] <;> split <;> simp_all

/-- A start flag shows in nothing but itself: whatever part of a state leaves the flag out is kept
at every place. The lemmas about single fields below are this one, applied to the field. -/
theorem part_flagStart {α : Type} (part : Node → α)
    (h : ∀ (n : Node) (flag : Bool), part { n with isStart := flag } = part n) (v w : Vertex)
    (flag : Bool) : part ((m.flagStart v flag).graph.node w) = part (m.graph.node w) :=
  Graph.part_update part (fun n => h n flag) m.graph v w

/-- The same for the flag of an accepting state. -/
theorem part_flagAccepting {α : Type} (part : Node → α)
    (h : ∀ (n : Node) (flag : Bool), part { n with isAccepting := flag } = part n) (v w : Vertex)
    (flag : Bool) : part ((m.flagAccepting v flag).graph.node w) = part (m.graph.node w) :=
  Graph.part_update part (fun n => h n flag) m.graph v w

theorem isAccepting_flagStart (v w : Vertex) (flag : Bool) :
    ((m.flagStart v flag).graph.node w).isAccepting = (m.graph.node w).isAccepting :=
  part_flagStart (·.isAccepting) (fun _ _ => rfl) v w flag

theorem id_flagStart (v w : Vertex) (flag : Bool) :
    ((m.flagStart v flag).graph.node w).id = (m.graph.node w).id :=
  part_flagStart (·.id) (fun _ _ => rfl) v w flag

/-- Which states are flagged as start after one flag was set or cleared. -/
theorem isStart_flagStart (v w : Vertex) (flag : Bool) :
    ((m.flagStart v flag).graph.node w).isStart =
      if w = v then flag else (m.graph.node w).isStart := by
  rw [node_flagStart]
  split <;> simp_all

theorem isStart_flagAccepting (v w : Vertex) (flag : Bool) :
    ((m.flagAccepting v flag).graph.node w).isStart = (m.graph.node w).isStart :=
  part_flagAccepting (·.isStart) (fun _ _ => rfl) v w flag

theorem id_flagAccepting (v w : Vertex) (flag : Bool) :
    ((m.flagAccepting v flag).graph.node w).id = (m.graph.node w).id :=
  part_flagAccepting (·.id) (fun _ _ => rfl) v w flag

/-- Which states accept after one flag was set or cleared. -/
theorem isAccepting_flagAccepting (v w : Vertex) (flag : Bool) :
    ((m.flagAccepting v flag).graph.node w).isAccepting =
      if w = v then flag else (m.graph.node w).isAccepting := by
  rw [node_flagAccepting]
  split <;> simp_all

/-- Flags of states that are filled places fill no others, so the next new state goes where it would
have gone without them. -/
theorem size_flagStart {v : Vertex} (flag : Bool) (hv : v < m.graph.size) :
    (m.flagStart v flag).graph.size = m.graph.size :=
  (Graph.size_update v _).trans (Nat.max_eq_left hv)

theorem size_flagAccepting {v : Vertex} (flag : Bool) (hv : v < m.graph.size) :
    (m.flagAccepting v flag).graph.size = m.graph.size :=
  (Graph.size_update v _).trans (Nat.max_eq_left hv)

/-! ## Moving the start -/

/-- Moving the start clears one flag and then sets the other. The order matters if both are the same
state, which stays flagged. -/
theorem graph_shiftStart (former new : Vertex) :
    (m.shiftStart former new).graph = ((m.flagStart former false).flagStart new true).graph :=
  rfl

theorem sameTables_shiftStart (former new w : Vertex) :
    m.graph.SameTables (m.shiftStart former new).graph w :=
  (sameTables_flagStart former w false).trans (sameTables_flagStart new w true)

/-- Moving the start shows in the start flags only. -/
theorem part_shiftStart {α : Type} (part : Node → α)
    (h : ∀ (n : Node) (flag : Bool), part { n with isStart := flag } = part n)
    (former new w : Vertex) :
    part ((m.shiftStart former new).graph.node w) = part (m.graph.node w) :=
  (part_flagStart part h new w true).trans (part_flagStart part h former w false)

theorem isAccepting_shiftStart (former new w : Vertex) :
    ((m.shiftStart former new).graph.node w).isAccepting = (m.graph.node w).isAccepting :=
  part_shiftStart (·.isAccepting) (fun _ _ => rfl) former new w

theorem id_shiftStart (former new w : Vertex) :
    ((m.shiftStart former new).graph.node w).id = (m.graph.node w).id :=
  part_shiftStart (·.id) (fun _ _ => rfl) former new w

/-- After the start has moved, the new state is flagged, the former one is not unless it is the
same, and no other flag has changed. -/
theorem isStart_shiftStart (former new w : Vertex) :
    ((m.shiftStart former new).graph.node w).isStart =
      if w = new then true else if w = former then false else (m.graph.node w).isStart := by
  rw [graph_shiftStart, isStart_flagStart, isStart_flagStart]

/-- Away from the two states nothing changes at all. -/
theorem node_shiftStart_of_ne {former new w : Vertex} (hf : w ≠ former) (hn : w ≠ new) :
    (m.shiftStart former new).graph.node w = m.graph.node w := by
  rw [graph_shiftStart, node_flagStart, if_neg hn, node_flagStart, if_neg hf]

theorem discarded_shiftStart (former new : Vertex) :
    (m.shiftStart former new).automaton.discarded = m.automaton.discarded := rfl

/-- A start that moves within the automaton brings no new state in. -/
theorem states_shiftStart {former new : Vertex} (hn : new ∈ m.automaton.states) :
    (m.shiftStart former new).automaton.states = m.automaton.states := by
  ext v
  show v ∈ m.automaton.states.insert new ↔ _
  rw [OrdSet.mem_insert]
  constructor
  · rintro (rfl | hv)
    · exact hn
    · exact hv
  · exact Or.inr

/-! ## Accepting like another state -/

/-- Only the target can come to accept, and it does if the other state accepts. No state stops
accepting. -/
theorem isAccepting_acceptLike (other target w : Vertex) :
    ((m.acceptLike other target).graph.node w).isAccepting =
      ((m.graph.node w).isAccepting || (w = target && (m.graph.node other).isAccepting)) := by
  rw [acceptLike]
  split
  · next hother =>
    rw [isAccepting_flagAccepting, hother]
    by_cases hw : w = target <;> simp [hw]
  · next hother => simp [hother]

/-- Edges and counts stay as they are. -/
theorem sameTables_acceptLike (other target w : Vertex) :
    m.graph.SameTables (m.acceptLike other target).graph w := by
  rw [acceptLike]
  split
  · exact sameTables_flagAccepting target w true
  · exact .refl _ _

/-- Away from the target nothing changes. -/
theorem node_acceptLike_of_ne (other : Vertex) {target w : Vertex} (hw : w ≠ target) :
    (m.acceptLike other target).graph.node w = m.graph.node w := by
  rw [acceptLike]
  split
  · rw [node_flagAccepting, if_neg hw]
  · rfl

/-- Accepting like another state shows in whether a state accepts and in nothing else. -/
theorem part_acceptLike {α : Type} (part : Node → α)
    (h : ∀ (n : Node) (flag : Bool), part { n with isAccepting := flag } = part n)
    (other target w : Vertex) :
    part ((m.acceptLike other target).graph.node w) = part (m.graph.node w) := by
  rw [acceptLike]
  split
  · exact part_flagAccepting part h target w true
  · rfl

theorem isStart_acceptLike (other target w : Vertex) :
    ((m.acceptLike other target).graph.node w).isStart = (m.graph.node w).isStart :=
  part_acceptLike (·.isStart) (fun _ _ => rfl) other target w

theorem id_acceptLike (other target w : Vertex) :
    ((m.acceptLike other target).graph.node w).id = (m.graph.node w).id :=
  part_acceptLike (·.id) (fun _ _ => rfl) other target w

theorem automaton_acceptLike (other target : Vertex) :
    (m.acceptLike other target).automaton = m.automaton := by
  rw [acceptLike]
  split <;> rfl

theorem size_acceptLike (other : Vertex) {target : Vertex} (ht : target < m.graph.size) :
    (m.acceptLike other target).graph.size = m.graph.size := by
  rw [acceptLike]
  split
  · exact size_flagAccepting true ht
  · rfl

/-! ## Giving a state the edges of another one -/

/-- A state gets the acceptance of another one and its edges, with their targets
replaced. -/
def copyOnto (m : Machine) (other target : Vertex) (f : Vertex → Vertex) : Machine :=
  (m.acceptLike other target).connectAll (m.graph.copies other target f)

/-- Absorbing a state copies its edges with their targets as they are. -/
theorem absorb_eq {other target : Vertex} (hne : other ≠ target) :
    m.absorb other target = m.copyOnto other target id := by
  rw [absorb, if_neg hne, copyOnto, Graph.copies]
  rfl

/-- Merging copies the edges, those that lead back to the other state onto the target, and moves the
start if it has to. With `absorb_eq` both edits are cases of `copyOnto`, and what follows is proved
of that, for any replacement of targets. -/
theorem merge_eq {other target : Vertex} (hne : other ≠ target) :
    m.merge other target =
      let m' := m.copyOnto other target fun w => if w = other then target else w
      if (m'.graph.node other).isStart then m'.moveStart other target else .ok () m' := by
  rw [merge, if_neg hne, copyOnto, Graph.copies]

variable {other target : Vertex} {f : Vertex → Vertex}

/-- Which edges there are after copying: those there were, and at the target those of the other
state with their ends replaced. The edges of the other state stay. -/
theorem mem_destinations_copyOnto {v w : Vertex} {l : Label} :
    w ∈ (m.copyOnto other target f).graph.destinations v l ↔
      w ∈ m.graph.destinations v l ∨ v = target ∧ ∃ u ∈ m.graph.destinations other l, f u = w := by
  rw [copyOnto, graph_connectAll, Graph.mem_destinations_linkAll, Graph.mem_copies,
    (sameTables_acceptLike other target v).destinations_eq]

/-- All that copying edges does outside the tables was done by accepting like the other state. -/
theorem shell_copyOnto (v : Vertex) :
    ((m.copyOnto other target f).graph.node v).shell =
      ((m.acceptLike other target).graph.node v).shell := by
  rw [copyOnto, graph_connectAll, Graph.shell_linkAll]

/-- The target has come to accept if the other state does, and no other state has. -/
theorem isAccepting_copyOnto (v : Vertex) :
    ((m.copyOnto other target f).graph.node v).isAccepting =
      ((m.graph.node v).isAccepting || (v = target && (m.graph.node other).isAccepting)) := by
  rw [Graph.isAccepting_eq_of_shell_eq (shell_copyOnto v), isAccepting_acceptLike]

theorem isStart_copyOnto (v : Vertex) :
    ((m.copyOnto other target f).graph.node v).isStart = (m.graph.node v).isStart := by
  rw [Graph.isStart_eq_of_shell_eq (shell_copyOnto v), isStart_acceptLike]

/-- The ends of copied edges are states of the automaton if the replacement keeps them there. This
is the condition under which adding edges brings in no state from outside. -/
theorem ends_copies (hout : ∀ l, ∀ w ∈ m.graph.destinations other l, w ∈ m.automaton.states)
    (ht : target ∈ m.automaton.states)
    (hf : ∀ w ∈ m.automaton.states, f w ∈ m.automaton.states) :
    ∀ e ∈ m.graph.copies other target f,
      e.source ∈ m.automaton.states ∧ e.target ∈ m.automaton.states := by
  rintro ⟨v, l, w⟩ he
  obtain ⟨rfl, u, hu, rfl⟩ := Graph.mem_copies.1 he
  exact ⟨ht, hf u (hout l u hu)⟩

end Machine

namespace Automaton.Framed

open Machine

variable {m : Machine}

/-- Whether a state accepts is not looked at. -/
theorem flagAccepting (hm : m.automaton.Framed m.graph) (v : Vertex) (flag : Bool) :
    (m.flagAccepting v flag).automaton.Framed (m.flagAccepting v flag).graph :=
  hm.congr rfl rfl (fun w _ => sameTables_flagAccepting v w flag)
    (fun w _ => isStart_flagAccepting v w flag) (Graph.size_le_update ..)

/-- So an automaton stays framed when a state accepts like another one. -/
theorem acceptLike (hm : m.automaton.Framed m.graph) (other target : Vertex) :
    (m.acceptLike other target).automaton.Framed (m.acceptLike other target).graph := by
  rw [Machine.acceptLike]
  split
  · exact hm.flagAccepting target true
  · exact hm

/-- The start can move to any state of the automaton. The former start loses its flag and the new
one gets it, in that order, so that the only flag is where the automaton starts. -/
theorem shiftStart (hm : m.automaton.Framed m.graph) {new : Vertex}
    (hn : new ∈ m.automaton.states) :
    (m.shiftStart m.automaton.start new).automaton.Framed
      (m.shiftStart m.automaton.start new).graph where
  start_mem := by
    rw [states_shiftStart hn]
    exact hn
  isStart_iff v hv := by
    rw [states_shiftStart hn] at hv
    show _ ↔ v = new
    rw [isStart_shiftStart]
    -- the flag is set at the new start last, also when it is the old one
    by_cases hvn : v = new
    · simp [hvn]
    · rw [if_neg hvn]
      by_cases hvs : v = m.automaton.start
      · rw [if_pos hvs]
        exact iff_of_false (by decide) hvn
      · rw [if_neg hvs]
        exact iff_of_false (fun h => hvs ((hm.isStart_iff v hv).1 h)) hvn
  consistent := by
    rw [states_shiftStart hn]
    exact hm.consistent.congr fun v _ => sameTables_shiftStart ..
  placed v hv := by
    rw [states_shiftStart hn] at hv
    have hsize : m.graph.size ≤ (m.shiftStart m.automaton.start new).graph.size :=
      Nat.le_trans (Graph.size_le_update ..) (Graph.size_le_update ..)
    exact Nat.lt_of_lt_of_le (hm.placed v hv) hsize

/-- Copying edges within an automaton keeps it framed: the flag is one of those not looked at, and
the edges stay among its states. -/
theorem copyOnto (hm : m.automaton.Framed m.graph) {other target : Vertex}
    {f : Vertex → Vertex} (ho : other ∈ m.automaton.states) (ht : target ∈ m.automaton.states)
    (hf : ∀ w ∈ m.automaton.states, f w ∈ m.automaton.states) :
    (m.copyOnto other target f).automaton.Framed (m.copyOnto other target f).graph := by
  rw [Machine.copyOnto]
  apply (hm.acceptLike other target).connectAll
  rw [automaton_acceptLike]
  exact ends_copies (hm.consistent.target_mem other ho) ht hf

end Automaton.Framed

namespace Automaton.Sound

open Machine

variable {m : Machine}

/-- Whether a state accepts does not matter for soundness, which is about edges, identifiers and
where the automaton starts. -/
theorem flagAccepting (hm : m.automaton.Sound m.graph) (v : Vertex) (flag : Bool) :
    (m.flagAccepting v flag).automaton.Sound (m.flagAccepting v flag).graph :=
  hm.congr rfl rfl rfl hm.current_mem (fun w _ => sameTables_flagAccepting v w flag)
    (fun w _ => id_flagAccepting v w flag) (fun w _ => isStart_flagAccepting v w flag)
    (Graph.size_le_update ..)

/-- So an automaton stays sound when a state accepts like another one. -/
theorem acceptLike (hm : m.automaton.Sound m.graph) (other target : Vertex) :
    (m.acceptLike other target).automaton.Sound (m.acceptLike other target).graph := by
  rw [Machine.acceptLike]
  split
  · exact hm.flagAccepting target true
  · exact hm

/-- Moving the start from the start state to a state of the automaton keeps it sound. All that was
not said for framed automata, identifiers, labels and current states, is left alone by the move. -/
theorem shiftStart (hm : m.automaton.Sound m.graph) {new : Vertex}
    (hn : new ∈ m.automaton.states) :
    (m.shiftStart m.automaton.start new).automaton.Sound
      (m.shiftStart m.automaton.start new).graph := by
  have hstates : (m.shiftStart m.automaton.start new).automaton.states = m.automaton.states :=
    states_shiftStart hn
  apply of_framed (hm.framed.shiftStart hn)
  · rw [hstates]
    intro v hv w hw e
    rw [id_shiftStart, id_shiftStart] at e
    exact hm.id_injective hv hw e
  · rw [hstates]
    intro v hv l w hw hl
    rw [(sameTables_shiftStart ..).destinations_eq] at hw
    exact hm.label_mem v hv l w hw hl
  · exact hm.epsilon_not_mem
  · rw [hstates]
    exact hm.current_mem

/-- Copying edges within an automaton keeps it sound. No label is new, since the copied edges are
edges of the automaton. -/
theorem copyOnto (hm : m.automaton.Sound m.graph) {other target : Vertex}
    {f : Vertex → Vertex} (ho : other ∈ m.automaton.states) (ht : target ∈ m.automaton.states)
    (hf : ∀ w ∈ m.automaton.states, f w ∈ m.automaton.states) :
    (m.copyOnto other target f).automaton.Sound (m.copyOnto other target f).graph := by
  rw [Machine.copyOnto]
  apply (hm.acceptLike other target).connectAll
  rw [automaton_acceptLike]
  exact ends_copies (hm.consistent.target_mem other ho) ht hf

end Automaton.Sound

/-! ## Work inside an automaton -/

/-- What editing an automaton within its own states may leave behind: it is sound again, has
no new states and symbols, and nothing outside it has changed. -/
structure Machine.Reworks (m m' : Machine) : Prop where
  sound : m'.automaton.Sound m'.graph
  states_sub : ∀ v ∈ m'.automaton.states, v ∈ m.automaton.states
  alphabet_eq : m'.automaton.alphabet = m.automaton.alphabet
  strict_eq : m'.automaton.strict = m.automaton.strict
  discarded_eq : m'.automaton.discarded = m.automaton.discarded
  node_eq : ∀ v, v ∉ m.automaton.states → m'.graph.node v = m.graph.node v
  id_eq : ∀ v, (m'.graph.node v).id = (m.graph.node v).id
  size_eq : m'.graph.size = m.graph.size

namespace Machine

variable {m m' m'' : Machine}

theorem Reworks.refl (hm : m.automaton.Sound m.graph) : m.Reworks m :=
  ⟨hm, fun _ hv => hv, rfl, rfl, rfl, fun _ _ => rfl, fun _ => rfl, rfl⟩

/-- Work inside an automaton can go on with more of it. -/
theorem Reworks.trans (h : m.Reworks m') (h' : m'.Reworks m'') : m.Reworks m'' where
  sound := h'.sound
  states_sub v hv := h.states_sub v (h'.states_sub v hv)
  alphabet_eq := h'.alphabet_eq.trans h.alphabet_eq
  strict_eq := h'.strict_eq.trans h.strict_eq
  discarded_eq := h'.discarded_eq.trans h.discarded_eq
  node_eq v hv := (h'.node_eq v fun hv' => hv (h.states_sub v hv')).trans (h.node_eq v hv)
  id_eq v := (h'.id_eq v).trans (h.id_eq v)
  size_eq := h'.size_eq.trans h.size_eq

section Copying

variable {other target : Vertex} {f : Vertex → Vertex}

/-- Copies of edges between states of the automaton bring no new state in. -/
theorem states_copyOnto
    (hout : ∀ l, ∀ w ∈ m.graph.destinations other l, w ∈ m.automaton.states)
    (ht : target ∈ m.automaton.states)
    (hf : ∀ w ∈ m.automaton.states, f w ∈ m.automaton.states) :
    (m.copyOnto other target f).automaton.states = m.automaton.states := by
  rw [copyOnto, states_connectAll, automaton_acceptLike]
  rw [automaton_acceptLike]
  exact ends_copies hout ht hf

theorem start_copyOnto :
    (m.copyOnto other target f).automaton.start = m.automaton.start := by
  rw [copyOnto, start_connectAll, automaton_acceptLike]

theorem discarded_copyOnto :
    (m.copyOnto other target f).automaton.discarded = m.automaton.discarded := by
  rw [copyOnto, discarded_connectAll, automaton_acceptLike]

/-- Copying edges between states of the automaton is work inside it. What has to be seen beyond
soundness is that no symbol is new and that nothing outside the automaton is touched. -/
theorem reworks_copyOnto (hm : m.automaton.Sound m.graph) (ho : other ∈ m.automaton.states)
    (ht : target ∈ m.automaton.states)
    (hf : ∀ w ∈ m.automaton.states, f w ∈ m.automaton.states) :
    m.Reworks (m.copyOnto other target f) where
  sound := hm.copyOnto ho ht hf
  states_sub v hv := by rwa [states_copyOnto (hm.consistent.target_mem other ho) ht hf] at hv
  alphabet_eq := by
    ext l
    rw [copyOnto, mem_alphabet_connectAll, automaton_acceptLike]
    constructor
    · -- the symbols of the copied edges were those of edges of the automaton
      rintro (hl | ⟨hne, ⟨v, k, w⟩, he, rfl⟩)
      · exact hl
      · obtain ⟨_, u, hu, _⟩ := Graph.mem_copies.1 he
        exact hm.label_mem other ho k u hu hne
    · exact Or.inl
  strict_eq := by rw [copyOnto, strict_connectAll, automaton_acceptLike]
  discarded_eq := discarded_copyOnto
  node_eq v hv := by
    -- a place outside is neither end of a copied edge, nor the state that has come to accept
    have hends := ends_copies (hm.consistent.target_mem other ho) ht hf
    rw [copyOnto, graph_connectAll, Graph.node_linkAll_of_not_mem]
    · apply node_acceptLike_of_ne
      rintro rfl
      exact hv ht
    · intro e he
      constructor
      · rintro rfl
        exact hv (hends e he).1
      · rintro rfl
        exact hv (hends e he).2
  id_eq v := by
    rw [Graph.id_eq_of_shell_eq (shell_copyOnto v), id_acceptLike]
  size_eq := by
    -- both ends are filled places, so no edge makes the graph grow
    have hsize := size_acceptLike other (hm.placed target ht)
    rw [copyOnto, graph_connectAll, Graph.size_linkAll, hsize]
    intro e he
    rw [hsize]
    obtain ⟨hs, hd⟩ := ends_copies (hm.consistent.target_mem other ho) ht hf e he
    exact ⟨hm.placed _ hs, hm.placed _ hd⟩

/-- Moving the start within the automaton is work inside it: the flags of two of its states
change. -/
theorem reworks_shiftStart (hm : m.automaton.Sound m.graph) {new : Vertex}
    (hn : new ∈ m.automaton.states) : m.Reworks (m.shiftStart m.automaton.start new) where
  sound := hm.shiftStart hn
  states_sub v hv := by rwa [states_shiftStart hn] at hv
  alphabet_eq := rfl
  strict_eq := rfl
  discarded_eq := rfl
  node_eq v hv := by
    apply node_shiftStart_of_ne
    · rintro rfl
      exact hv hm.start_mem
    · rintro rfl
      exact hv hn
  id_eq := id_shiftStart _ _
  size_eq := by
    have hsize := size_flagStart false (hm.placed _ hm.start_mem)
    have hnew : new < (m.flagStart m.automaton.start false).graph.size := by
      rw [hsize]
      exact hm.placed new hn
    rw [graph_shiftStart, size_flagStart true hnew, hsize]

/-- Absorbing brings no new state in. -/
theorem states_absorb (hout : ∀ l, ∀ w ∈ m.graph.destinations other l, w ∈ m.automaton.states)
    (ht : target ∈ m.automaton.states) :
    (m.absorb other target).automaton.states = m.automaton.states := by
  by_cases hne : other = target
  · rw [absorb, if_pos hne]
  · rw [absorb_eq hne]
    exact states_copyOnto hout ht fun _ hw => hw

theorem discarded_absorb :
    (m.absorb other target).automaton.discarded = m.automaton.discarded := by
  by_cases hne : other = target
  · rw [absorb, if_pos hne]
  · rw [absorb_eq hne, discarded_copyOnto]

/-- Absorbing a state is work inside the automaton. -/
theorem reworks_absorb (hm : m.automaton.Sound m.graph) (ho : other ∈ m.automaton.states)
    (ht : target ∈ m.automaton.states) : m.Reworks (m.absorb other target) := by
  by_cases hne : other = target
  · rw [absorb, if_pos hne]
    exact .refl hm
  · rw [absorb_eq hne]
    exact reworks_copyOnto hm ho ht fun _ hw => hw

/-- Edges back to a state that is merged away are turned to the target, so they stay among the
states of the automaton. Nothing is asked of the state that is merged away. -/
theorem redirect_mem (other : Vertex) (ht : target ∈ m.automaton.states) :
    ∀ w ∈ m.automaton.states, (if w = other then target else w) ∈ m.automaton.states := by
  intro w hw
  split
  · exact ht
  · exact hw

/-- The machine in which a state was merged into another one. -/
def merged (m : Machine) (other target : Vertex) : Machine :=
  let m' := m.copyOnto other target fun w => if w = other then target else w
  if other = m.automaton.start then m'.shiftStart other target else m'

/-- The state that is merged away carries the start flag exactly if the start has to move, so
merging succeeds. In an automaton that is not well formed the two may disagree, and there the move
is refused. -/
theorem merge_eq_ok (hflag : (m.graph.node other).isStart = true ↔ other = m.automaton.start)
    (hne : other ≠ target) : m.merge other target = .ok () (m.merged other target) := by
  rw [merge_eq hne, merged]
  dsimp only
  rw [isStart_copyOnto]
  by_cases hstart : other = m.automaton.start
  · rw [if_pos (hflag.2 hstart), moveStart, start_copyOnto, isStart_copyOnto,
      if_pos ⟨hflag.2 hstart, hstart⟩, if_pos hstart]
  · rw [if_neg (mt hflag.1 hstart), if_neg hstart]

/-- Merging keeps an automaton framed, whether the start moves or not. -/
theorem framed_merged (hm : m.automaton.Framed m.graph) (ho : other ∈ m.automaton.states)
    (ht : target ∈ m.automaton.states) :
    (m.merged other target).automaton.Framed (m.merged other target).graph := by
  have hcopied := hm.copyOnto ho ht (redirect_mem other ht)
  rw [merged]
  split
  · next hstart =>
    have hstart' : other = (m.copyOnto other target fun w =>
        if w = other then target else w).automaton.start := by rw [start_copyOnto, hstart]
    have hshift := hcopied.shiftStart
      ((states_copyOnto (hm.consistent.target_mem other ho) ht (redirect_mem other ht)).symm ▸ ht)
    rwa [← hstart'] at hshift
  · exact hcopied

/-- Merging brings no new state in, and takes none out: the other state is left for collection. -/
theorem states_merged (hout : ∀ l, ∀ w ∈ m.graph.destinations other l, w ∈ m.automaton.states)
    (ht : target ∈ m.automaton.states) :
    (m.merged other target).automaton.states = m.automaton.states := by
  have hstates := states_copyOnto hout ht (redirect_mem other ht)
  rw [merged]
  split
  · exact (states_shiftStart (hstates ▸ ht)).trans hstates
  · exact hstates

/-- The automaton starts where it did, unless that was merged away, and then at the target. -/
theorem start_merged (other target : Vertex) : (m.merged other target).automaton.start =
    if other = m.automaton.start then target else m.automaton.start := by
  rw [merged]
  by_cases hstart : other = m.automaton.start
  · rw [if_pos hstart, if_pos hstart]
    rfl
  · rw [if_neg hstart, if_neg hstart]
    exact start_copyOnto

/-- Which edges there are after merging. The edges of the other state are still there, and the
target has them too, with loops of the other state turned to the target. -/
theorem mem_destinations_merged {v w : Vertex} {l : Label} :
    w ∈ (m.merged other target).graph.destinations v l ↔ w ∈ m.graph.destinations v l ∨
      v = target ∧ ∃ u ∈ m.graph.destinations other l, (if u = other then target else u) = w := by
  rw [merged]
  split
  · rw [(sameTables_shiftStart other target v).destinations_eq, mem_destinations_copyOnto]
  · exact mem_destinations_copyOnto

/-- The target has come to accept if the other state does. -/
theorem isAccepting_merged (v : Vertex) : ((m.merged other target).graph.node v).isAccepting =
    ((m.graph.node v).isAccepting || (v = target && (m.graph.node other).isAccepting)) := by
  rw [merged]
  split
  · rw [isAccepting_shiftStart, isAccepting_copyOnto]
  · exact isAccepting_copyOnto v

theorem discarded_merged :
    (m.merged other target).automaton.discarded = m.automaton.discarded := by
  rw [merged]
  split
  · rw [discarded_shiftStart, discarded_copyOnto]
  · rw [discarded_copyOnto]

/-- Merging is work inside the automaton: copying edges, and moving the start where it has to. -/
theorem reworks_merged (hm : m.automaton.Sound m.graph) (ho : other ∈ m.automaton.states)
    (ht : target ∈ m.automaton.states) : m.Reworks (m.merged other target) := by
  have hreworks := reworks_copyOnto hm ho ht (redirect_mem other ht)
  rw [merged]
  split
  · next hstart =>
    have hshift := reworks_shiftStart hreworks.sound
      ((states_copyOnto (hm.consistent.target_mem other ho) ht (redirect_mem other ht)).symm ▸ ht)
    rw [start_copyOnto, ← hstart] at hshift
    exact hreworks.trans hshift
  · exact hreworks

/-- What merging a state into another one leaves behind: the edges and the acceptance of the one are
copied onto the other, and the start has moved if it was there. All that is said about the words of
merged states is derived from this. -/
theorem merge_spec (hm : m.automaton.Sound m.graph) (ho : other ∈ m.automaton.states)
    (ht : target ∈ m.automaton.states) (hne : other ≠ target) :
    ∃ m', m.merge other target = .ok () m' ∧ m.Reworks m' ∧
      m'.automaton.states = m.automaton.states ∧
      m'.automaton.start = (if other = m.automaton.start then target else m.automaton.start) ∧
      (∀ v l w, w ∈ m'.graph.destinations v l ↔ w ∈ m.graph.destinations v l ∨
        v = target ∧ ∃ u ∈ m.graph.destinations other l, (if u = other then target else u) = w) ∧
      ∀ v, (m'.graph.node v).isAccepting =
        ((m.graph.node v).isAccepting || (v = target && (m.graph.node other).isAccepting)) :=
  ⟨m.merged other target, merge_eq_ok (hm.isStart_iff ho) hne, reworks_merged hm ho ht,
    states_merged (hm.consistent.target_mem other ho) ht, start_merged _ _,
    fun _ _ _ => mem_destinations_merged,
    isAccepting_merged⟩

end Copying

end Machine

end PatternAutomata
