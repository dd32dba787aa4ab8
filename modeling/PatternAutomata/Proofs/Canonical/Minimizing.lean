/-
What merging the blocks of a partition makes.

Minimizing carries out a plan: a state for each block, in the order of their least identifiers,
and an edge between two blocks for each edge between their members (`MadeOfBlocks`). The states
of one block lead into the same blocks, so a word leads to a block exactly if it leads to a
member (`MadeOfBlocks.languageFrom_eq`). If the states were numbered by words, the blocks are
numbered by the words of their least members (`MadeOfBlocks.numbered`).
-/
import PatternAutomata.Proofs.Canonical.Assembling
import PatternAutomata.Proofs.Canonical.Blocks
import PatternAutomata.Proofs.Structure.Collecting
import PatternAutomata.Proofs.Words.Acceptance

set_option autoImplicit false

namespace PatternAutomata

open PatternAutomata.Graph

/-! ## The plan

Blocks and states made of them go by their numbers, which are those of the blocks in the order of
their least identifiers. -/

namespace Machine

variable {g : Graph} {a : Automaton} {p : Partition}

/-- The states made of blocks. -/
def blockNodes (g : Graph) (blocks : List VertexSet) : List Node :=
  blocks.zipIdx.map fun (b, i) => nodeOfBlock g i b

/-- There is one state for each block. -/
theorem length_blockNodes (blocks : List VertexSet) :
    (blockNodes g blocks).length = blocks.length := by
  rw [blockNodes, List.length_map, List.length_zipIdx]

/-- The state with a number is made of the block with that number. -/
theorem getElem_blockNodes {blocks : List VertexSet} {i : Nat} (hi : i < blocks.length)
    (hi' : i < (blockNodes g blocks).length) :
    (blockNodes g blocks)[i] = nodeOfBlock g i blocks[i] := by
  simp only [blockNodes, List.getElem_map, List.getElem_zipIdx, Nat.zero_add]

/-- The number of the block of a state. -/
def numberOf (p : Partition) (blocks : List VertexSet) (v : Vertex) : Nat :=
  ((p.blockOf? v).bind blocks.idxOf?).getD 0

/-- A state is found in the block that it is in, and in no other one, so it is looked up rightly. -/
theorem number_eq {blocks : List VertexSet} (hp : p.Proper a.states)
    (hmem : ∀ b, b ∈ blocks ↔ b ∈ p.blocks) (hb : Blocking g a blocks) {i : Nat}
    (hi : i < blocks.length) {v : Vertex} (hv : v ∈ blocks[i]) :
    (p.blockOf? v).bind blocks.idxOf? = some i := by
  have hblock := (hp.blockOf?_iff v _).2 ⟨(hmem _).1 (List.getElem_mem hi), hv⟩
  rw [hblock, Option.bind_some, List.idxOf?_eq_some_iff]
  refine ⟨hi, rfl, ?_⟩
  intro j hj heq
  have hj' : j < blocks.length := Nat.lt_trans hj hi
  have hsame := hb.unique j hj' i hi v (heq ▸ hv) hv
  omega

/-- The edges between blocks. -/
def blockEdges (g : Graph) (a : Automaton) (p : Partition) (blocks : List VertexSet) :
    List Edge :=
  (a.edges g).map fun e =>
    ⟨g.size + numberOf p blocks e.source, e.label, g.size + numberOf p blocks e.target⟩

/-- The automaton whose states are the states made of blocks. -/
def blockAutomaton (g : Graph) (a : Automaton) (p : Partition) (blocks : List VertexSet) :
    Automaton :=
  .fresh (g.addAll (blockNodes g blocks)) (g.size + numberOf p blocks a.start)
    (OrdSet.ofList ((List.range blocks.length).map (g.size + ·))) a.alphabet a.strict

section Plan

variable {blocks : List VertexSet} (hp : p.Proper a.states)
  (hmem : ∀ b, b ∈ blocks ↔ b ∈ p.blocks) (hb : Blocking g a blocks) (ha : a.Labelled g)

include hp hmem hb

/-- So the number of a state is that of the block that it is in. -/
theorem numberOf_eq {i : Nat} (hi : i < blocks.length) {v : Vertex} (hv : v ∈ blocks[i]) :
    numberOf p blocks v = i := by
  rw [numberOf, number_eq hp hmem hb hi hv, Option.getD_some]

/-- The number of a state's block is the number of the block that it is in. Each state is in a
block. -/
theorem numberOf_spec {v : Vertex} (hv : v ∈ a.states) :
    ∃ h : numberOf p blocks v < blocks.length, v ∈ blocks[numberOf p blocks v] := by
  obtain ⟨i, hi, hvi⟩ := (hb.cover v).1 hv
  have hnumber := numberOf_eq hp hmem hb hi hvi
  exact ⟨hnumber ▸ hi, by simpa only [hnumber] using hvi⟩

/-- The place of a state's block is counted from the first free place, and is found without a
fault. -/
theorem placeOf_eq {first : Nat} {v : Vertex} (hv : v ∈ a.states) :
    placeOf p blocks first v = .ok (first + numberOf p blocks v) := by
  obtain ⟨i, hi, hvi⟩ := (hb.cover v).1 hv
  rw [placeOf, numberOf_eq hp hmem hb hi hvi, number_eq hp hmem hb hi hvi]

include ha

/-- The states of the new automaton are those made of blocks, and the one that it starts in is one
of these. -/
theorem mem_states_blockAutomaton {v : Nat} : v ∈ (blockAutomaton g a p blocks).states ↔
    g.size ≤ v ∧ v < g.size + blocks.length := by
  obtain ⟨hstart, _⟩ := numberOf_spec hp hmem hb ha.start_mem
  rw [blockAutomaton, Automaton.fresh, OrdSet.mem_insert, OrdSet.mem_ofList, List.mem_map]
  constructor
  · rintro (rfl | ⟨i, hi, rfl⟩)
    · exact ⟨by omega, by omega⟩
    · have hlt := List.mem_range.1 hi
      exact ⟨by omega, by omega⟩
  · rintro ⟨hle, hlt⟩
    exact Or.inr ⟨v - g.size, List.mem_range.2 (by omega), by omega⟩

omit hp hmem hb in
/-- The alphabet stays, for it does not hold what reads nothing. -/
theorem alphabet_blockAutomaton : (blockAutomaton g a p blocks).alphabet = a.alphabet := by
  ext l
  rw [blockAutomaton, Automaton.fresh, OrdSet.mem_erase, and_iff_left_iff_imp]
  rintro hl rfl
  exact ha.epsilon_not_mem hl

/-- An edge is made between the blocks of the ends of each edge. -/
theorem mem_blockEdges {i j : Nat} (hi : i < blocks.length) (hj : j < blocks.length)
    {l : Label} : ⟨g.size + i, l, g.size + j⟩ ∈ blockEdges g a p blocks ↔
      ∃ v ∈ blocks[i], ∃ w ∈ blocks[j], w ∈ g.destinations v l := by
  rw [blockEdges, List.mem_map]
  constructor
  · rintro ⟨⟨v, k, w⟩, he, heq⟩
    obtain ⟨hs, rfl, ht⟩ := Edge.mk.inj heq
    obtain ⟨hv, hw⟩ := mem_edgesFrom.1 he
    have hv_mem := (mem_inOrder g).1 hv
    obtain ⟨hv_lt, hv_block⟩ := numberOf_spec hp hmem hb hv_mem
    obtain ⟨hw_lt, hw_block⟩ := numberOf_spec hp hmem hb (ha.target_mem hv_mem hw)
    -- an edge is made by the numbers of the blocks at its ends
    obtain rfl : numberOf p blocks v = i := Nat.add_left_cancel hs
    obtain rfl : numberOf p blocks w = j := Nat.add_left_cancel ht
    exact ⟨v, hv_block, w, hw_block, hw⟩
  · rintro ⟨v, hv, w, hw, hvw⟩
    have hv_mem : v ∈ a.states := (hb.cover v).2 ⟨i, hi, hv⟩
    refine ⟨⟨v, l, w⟩, mem_edgesFrom.2 ⟨(mem_inOrder g).2 hv_mem, hvw⟩, ?_⟩
    rw [numberOf_eq hp hmem hb hi hv, numberOf_eq hp hmem hb hj hw]

/-- An edge is made between two blocks only, and reads a symbol. -/
theorem ends_blockEdges (hd : g.Deterministic a.states) {e : Edge}
    (he : e ∈ blockEdges g a p blocks) :
    ∃ i j, ∃ (_ : i < blocks.length) (_ : j < blocks.length),
      e.source = g.size + i ∧ e.target = g.size + j ∧ e.label ≠ .epsilon ∧
        e.label ∈ a.alphabet := by
  obtain ⟨⟨v, l, w⟩, hvw, rfl⟩ := List.mem_map.1 he
  obtain ⟨hv, hw⟩ := mem_edgesFrom.1 hvw
  have hv_mem := (mem_inOrder g).1 hv
  obtain ⟨hi, _⟩ := numberOf_spec hp hmem hb hv_mem
  obtain ⟨hj, _⟩ := numberOf_spec hp hmem hb (ha.target_mem hv_mem hw)
  have hl := hd.ne_epsilon hv_mem hw
  exact ⟨_, _, hi, hj, rfl, rfl, hl, ha.label_mem v hv_mem l w hw hl⟩

/-- Members of one block lead into one block, and a member into one state, so no two edges of a
block disagree. -/
theorem unique_blockEdges (hd : g.Deterministic a.states) {e k : Edge}
    (he : e ∈ blockEdges g a p blocks) (hk : k ∈ blockEdges g a p blocks)
    (hs : e.source = k.source) (hlabel : e.label = k.label) : e.target = k.target := by
  obtain ⟨i, j, hi, hj, hes, het, _⟩ := ends_blockEdges hp hmem hb ha hd he
  obtain ⟨i', j', hi', hj', hks, hkt, _⟩ := ends_blockEdges hp hmem hb ha hd hk
  obtain rfl : i = i' := Nat.add_left_cancel (hes.symm.trans (hs.trans hks))
  obtain ⟨s, l, t⟩ := e
  obtain ⟨s', l', t'⟩ := k
  obtain rfl : l = l' := hlabel
  obtain rfl : s = g.size + i := hes
  obtain rfl : s' = g.size + i := hks
  obtain rfl : t = g.size + j := het
  obtain rfl : t' = g.size + j' := hkt
  obtain ⟨v, hv, w, hw, hvw⟩ := (mem_blockEdges hp hmem hb ha hi hj).1 he
  obtain ⟨v', hv', w', hw', hvw'⟩ := (mem_blockEdges hp hmem hb ha hi hj').1 hk
  obtain ⟨x, hx, hx_block⟩ := hb.step _ (List.getElem_mem hi) v hv v' hv' l w hvw
  have hv_mem : v' ∈ a.states := (hb.cover v').2 ⟨i, hi, hv'⟩
  have hxw : x = w' := hd.unique v' hv_mem l x hx w' hvw'
  have hx_mem := hx_block _ (List.getElem_mem hj) hw
  rw [hb.unique j hj j' hj' x hx_mem (hxw ▸ hw')]

omit hp hmem hb ha in
/-- The states are made without edges. -/
theorem bare_blockNodes :
    ∀ n ∈ blockNodes g blocks, n.next = ∅ ∧ n.previous = ∅ ∧ n.indegree = 0 := by
  intro n hn
  rw [blockNodes, List.mem_map] at hn
  obtain ⟨⟨b, i⟩, _, rfl⟩ := hn
  exact ⟨rfl, rfl, rfl⟩

/-- The state made of a block is flagged as a start state exactly if the block holds the start
state: a member is flagged only if it is the start state, and that is in one block only. -/
theorem isStart_blockNodes {i : Nat} (hi : i < (blockNodes g blocks).length) :
    (blockNodes g blocks)[i].isStart = true ↔ g.size + i = (blockAutomaton g a p blocks).start := by
  have hi' : i < blocks.length := by rwa [length_blockNodes] at hi
  obtain ⟨hlt, hstart⟩ := numberOf_spec hp hmem hb ha.start_mem
  rw [getElem_blockNodes hi' hi]
  show (blocks[i].toList.any fun v => (g.node v).isStart) = true ↔
    g.size + i = g.size + numberOf p blocks a.start
  rw [List.any_eq_true]
  constructor
  · rintro ⟨v, hv, hflag⟩
    have hv_mem : v ∈ a.states := (hb.cover v).2 ⟨i, hi', hv⟩
    rw [(ha.isStart_iff hv_mem).1 hflag] at hv
    rw [hb.unique i hi' _ hlt a.start hv hstart]
  · intro heq
    obtain rfl : i = numberOf p blocks a.start := Nat.add_left_cancel heq
    exact ⟨a.start, hstart, (ha.isStart_iff ha.start_mem).2 rfl⟩

/-- The new automaton starts in the state made of the block of the start state. -/
theorem start_mem_blockAutomaton :
    (blockAutomaton g a p blocks).start ∈ (blockAutomaton g a p blocks).states := by
  obtain ⟨hlt, _⟩ := numberOf_spec hp hmem hb ha.start_mem
  apply (mem_states_blockAutomaton hp hmem hb ha).2
  exact ⟨Nat.le_add_right .., Nat.add_lt_add_left hlt _⟩

/-- Minimizing plans a sound automaton: the states made of blocks are numbered in their order, one
of them is the start state, and the edges read symbols and lead from block to block. -/
theorem plan_blocks (hd : g.Deterministic a.states) :
    Plan g (blockNodes g blocks) (blockAutomaton g a p blocks) (blockEdges g a p blocks) where
  bare := bare_blockNodes
  id_eq i hi := by
    have hi' : i < blocks.length := by rwa [length_blockNodes] at hi
    rw [getElem_blockNodes hi' hi]
    rfl
  isStart_iff _ hi := isStart_blockNodes hp hmem hb ha hi
  mem_states v := by rw [mem_states_blockAutomaton hp hmem hb ha, length_blockNodes]
  start_mem := start_mem_blockAutomaton hp hmem hb ha
  current_mem v hv := by
    obtain ⟨hlt, _⟩ := numberOf_spec hp hmem hb ha.start_mem
    have hstart := eq_of_mem_begin bare_blockNodes (by rwa [length_blockNodes]) hv
    rw [hstart]
    exact start_mem_blockAutomaton hp hmem hb ha
  ends e he := by
    obtain ⟨i, j, hi, hj, hs, ht, _⟩ := ends_blockEdges hp hmem hb ha hd he
    rw [hs, ht, mem_states_blockAutomaton hp hmem hb ha,
      mem_states_blockAutomaton hp hmem hb ha]
    exact ⟨⟨by omega, by omega⟩, ⟨by omega, by omega⟩⟩
  label e he := by
    obtain ⟨_, _, _, _, _, _, hlabel⟩ := ends_blockEdges hp hmem hb ha hd he
    rwa [alphabet_blockAutomaton ha]
  epsilon_not_mem := by
    rw [alphabet_blockAutomaton ha]
    exact ha.epsilon_not_mem

end Plan

/-- Edges that are all mapped without a fault are mapped one by one. -/
theorem mapM_eq_ok {α β : Type} {f : α → Except Fault β} {k : α → β} {l : List α}
    (h : ∀ x ∈ l, f x = .ok (k x)) : l.mapM f = .ok (l.map k) := by
  induction l with
  | nil => rfl
  | cons x l ih =>
    rw [List.mapM_cons, h x List.mem_cons_self, ih fun y hy => h y (List.mem_cons_of_mem x hy)]
    rfl

/-- Merging the blocks of a partition meets no fault. Three things could go wrong: a state could be
in no block, an edge could lead out of the automaton, or the new start state could lack its flag.
The plan excludes the last one, and that the partition is one of all states excludes the others. -/
theorem quotient_eq {m : Machine} (hm : m.automaton.Labelled m.graph)
    (hd : m.graph.Deterministic m.automaton.states) (hp : p.Proper m.automaton.states)
    (hb : Blocking m.graph m.automaton (blocksInOrder m.graph p)) :
    m.quotient p = .ok ((carryOut m.graph (blockNodes m.graph (blocksInOrder m.graph p))
      (blockAutomaton m.graph m.automaton p (blocksInOrder m.graph p))
      (blockEdges m.graph m.automaton p (blocksInOrder m.graph p))).graph,
      blockAutomaton m.graph m.automaton p (blocksInOrder m.graph p)) := by
  have hplan := plan_blocks hp (fun _ => mem_blocksInOrder) hb hm hd
  have hplace : ∀ v ∈ m.automaton.states, placeOf p (blocksInOrder m.graph p) m.graph.size v =
      .ok (m.graph.size + numberOf p (blocksInOrder m.graph p) v) :=
    fun v hv => placeOf_eq hp (fun _ => mem_blocksInOrder) hb hv
  have hautomaton := hplan.automaton_eq
  have hstart := hplan.sound_bare.isStart_iff hplan.start_mem
  generalize hg : m.graph = g at *
  generalize hma : m.automaton = a at *
  have hflag : ((g.addAll (blockNodes g (blocksInOrder g p))).node
      (g.size + numberOf p (blocksInOrder g p) a.start)).isStart = true := hstart.2 rfl
  -- the new start state was made with the start flag of a member
  have hfresh : Automaton.fresh? (g.addAll (blockNodes g (blocksInOrder g p)))
      (g.size + numberOf p (blocksInOrder g p) a.start)
      (OrdSet.ofList ((List.range (blocksInOrder g p).length).map (g.size + ·))) a.alphabet
      a.strict = .ok (blockAutomaton g a p (blocksInOrder g p)) := if_pos hflag
  -- each edge has both its ends in blocks
  have hedges : (a.edges g).mapM (fun e => do
      return Edge.mk (← placeOf p (blocksInOrder g p) g.size e.source) e.label
        (← placeOf p (blocksInOrder g p) g.size e.target)) =
      Except.ok (blockEdges g a p (blocksInOrder g p)) := by
    apply mapM_eq_ok
    rintro ⟨v, l, w⟩ he
    obtain ⟨hv, hw⟩ := mem_edgesFrom.1 he
    have hv_mem := (mem_inOrder g).1 hv
    rw [hplace v hv_mem, hplace w (hm.target_mem hv_mem hw)]
    rfl
  rw [quotient, hg, hma]
  simp only [bind, Except.bind, hplace a.start hm.start_mem]
  rw [← blockNodes, hfresh]
  simp only []
  simp only [bind, Except.bind] at hedges
  rw [hedges]
  rw [carryOut] at hautomaton ⊢
  simp only [hautomaton]
  rfl

end Machine

/-! ## What the blocks accept

From here on nothing is needed of how the automaton was made, but only that its states and edges
are those of the blocks. -/

/-- A deterministic automaton has a state for each block, in a row, and an edge between two
blocks for each edge between their members. -/
structure MadeOfBlocks (g : Graph) (a : Automaton) (blocks : List VertexSet) (h : Graph)
    (d : Automaton) : Prop where
  blocking : Blocking g a blocks
  sound : d.Sound h
  deterministic : h.Deterministic d.states
  start_eq : ∃ i, ∃ hi : i < blocks.length, a.start ∈ blocks[i] ∧ d.start = g.size + i
  mem_states : ∀ v : Nat, v ∈ d.states ↔ g.size ≤ v ∧ v < g.size + blocks.length
  id_eq : ∀ i < blocks.length, (h.node (g.size + i)).id = i
  standsFor_eq : ∀ i (hi : i < blocks.length), (h.node (g.size + i)).standsFor = blocks[i]
  isAccepting_eq : ∀ i (hi : i < blocks.length), ∀ v ∈ blocks[i],
    (h.node (g.size + i)).isAccepting = (g.node v).isAccepting
  isTrap_iff : ∀ i (hi : i < blocks.length), (h.node (g.size + i)).isTrap = true ↔
    ∃ v ∈ blocks[i], (g.node v).isTrap = true
  mem_destinations : ∀ i (hi : i < blocks.length) j (hj : j < blocks.length) l,
    g.size + j ∈ h.destinations (g.size + i) l ↔
      ∃ v ∈ blocks[i], ∃ w ∈ blocks[j], w ∈ g.destinations v l
  node_eq : ∀ v < g.size, h.node v = g.node v
  size_le : g.size ≤ h.size

namespace Machine

variable {g : Graph} {a : Automaton} {p : Partition} {blocks : List VertexSet}

/-- The state at the place of a block is the one made of the block, apart from its edges. -/
theorem shell_block {i : Nat} (hi : i < blocks.length) {d : Automaton} {es : List Edge} :
    ((carryOut g (blockNodes g blocks) d es).graph.node (g.size + i)).shell =
      (nodeOfBlock g i blocks[i]).shell := by
  have hi' : i < (blockNodes g blocks).length := by rwa [length_blockNodes]
  rw [Plan.shell_eq hi', getElem_blockNodes hi hi']

/-- A block accepts if some member does, and members agree. -/
theorem isAccepting_nodeOfBlock (hb : Blocking g a blocks) {i : Nat} (hi : i < blocks.length)
    {v : Vertex} (hv : v ∈ blocks[i]) :
    (nodeOfBlock g i blocks[i]).isAccepting = (g.node v).isAccepting := by
  have hsame := hb.isAccepting_eq _ (List.getElem_mem hi) v hv
  show (blocks[i].toList.any fun v => (g.node v).isAccepting) = _
  rw [Bool.eq_iff_iff, List.any_eq_true]
  constructor
  · rintro ⟨w, hw, hacc⟩
    rw [hsame w hw]
    exact hacc
  · exact fun hacc => ⟨v, hv, hacc⟩

/-- Carrying out the plan makes an automaton of the blocks. What is planned for the states and edges
is read off the new graph, and no two planned edges disagree, so it is deterministic. -/
theorem madeOfBlocks (hp : p.Proper a.states) (hmem : ∀ b, b ∈ blocks ↔ b ∈ p.blocks)
    (hb : Blocking g a blocks) (ha : a.Labelled g) (hd : g.Deterministic a.states) :
    MadeOfBlocks g a blocks
      (carryOut g (blockNodes g blocks) (blockAutomaton g a p blocks)
        (blockEdges g a p blocks)).graph
      (blockAutomaton g a p blocks) := by
  have hplan := plan_blocks hp hmem hb ha hd
  obtain ⟨hstart, hstart_mem⟩ := numberOf_spec hp hmem hb ha.start_mem
  refine ⟨hb, hplan.sound, ?_, ⟨_, hstart, hstart_mem, rfl⟩, ?_, ?_, ?_, ?_, ?_, ?_,
    fun v => hplan.node_eq, ?_⟩
  · exact hplan.deterministic fun _ he _ hk hs hlabel =>
      unique_blockEdges hp hmem hb ha hd he hk hs hlabel
  · exact fun v => mem_states_blockAutomaton hp hmem hb ha
  · exact fun i hi => id_eq_of_shell_eq (shell_block hi)
  · exact fun i hi => standsFor_eq_of_shell_eq (shell_block hi)
  · intro i hi v hv
    rw [isAccepting_eq_of_shell_eq (shell_block hi), isAccepting_nodeOfBlock hb hi hv]
  · intro i hi
    rw [isTrap_eq_of_shell_eq (shell_block hi)]
    exact List.any_eq_true
  · intro i hi j hj l
    have hi_mem := hplan.mem_number (i := i) (by rwa [length_blockNodes])
    rw [hplan.mem_destinations hi_mem, mem_blockEdges hp hmem hb ha hi hj]
  · rw [hplan.size_eq]
    exact Nat.le_add_right ..

end Machine

namespace MadeOfBlocks

variable {g h : Graph} {a d : Automaton} {blocks : List VertexSet}

/-- Each state of the new automaton is made of a block. -/
theorem exists_number (hd : MadeOfBlocks g a blocks h d) {v : Nat} (hv : v ∈ d.states) :
    ∃ i, i < blocks.length ∧ v = g.size + i :=
  Automaton.exists_place_row hd.mem_states hv

/-- Each block has its state there. -/
theorem mem_number (hd : MadeOfBlocks g a blocks h d) {i : Nat} (hi : i < blocks.length) :
    g.size + i ∈ d.states :=
  (hd.mem_states _).2 ⟨by omega, by omega⟩

/-- The members of blocks are states of the old automaton. -/
theorem mem_states_old (hd : MadeOfBlocks g a blocks h d) {i : Nat} (hi : i < blocks.length)
    {v : Vertex} (hv : v ∈ blocks[i]) : v ∈ a.states :=
  (hd.blocking.cover v).2 ⟨i, hi, hv⟩

/-- A path between states is a path between their blocks. By induction on the path. -/
theorem path_of_path (hd : MadeOfBlocks g a blocks h d) (ha : a.Labelled g) {v w : Vertex}
    {word : List Label} (hpath : Path g v word w) {i : Nat} (hi : i < blocks.length)
    (hv : v ∈ blocks[i]) :
    ∃ j, ∃ hj : j < blocks.length, w ∈ blocks[j] ∧ Path h (g.size + i) word (g.size + j) := by
  induction hpath generalizing i with
  | stay => exact ⟨i, hi, hv, .stay _⟩
  | silent first _ ih =>
    obtain ⟨k, hk, hwk⟩ := (hd.blocking.cover _).1 (ha.target_mem (hd.mem_states_old hi hv) first)
    obtain ⟨j, hj, hwj, hrest⟩ := ih hk hwk
    exact ⟨j, hj, hwj,
      .silent ((hd.mem_destinations i hi k hk _).2 ⟨_, hv, _, hwk, first⟩) hrest⟩
  | read symbol first _ ih =>
    obtain ⟨k, hk, hwk⟩ := (hd.blocking.cover _).1 (ha.target_mem (hd.mem_states_old hi hv) first)
    obtain ⟨j, hj, hwj, hrest⟩ := ih hk hwk
    exact ⟨j, hj, hwj,
      .read symbol ((hd.mem_destinations i hi k hk _).2 ⟨_, hv, _, hwk, first⟩) hrest⟩

/-- What an edge between blocks leads to, an edge leads to from each member. The edge was made for
one member of the block, and the others lead into the same blocks as that one does. -/
theorem exists_step (hd : MadeOfBlocks g a blocks h d) {i : Nat} (hi : i < blocks.length)
    {v : Vertex} (hv : v ∈ blocks[i]) {u : Vertex} {l : Label}
    (hu : u ∈ h.destinations (g.size + i) l) :
    ∃ k, ∃ hk : k < blocks.length, u = g.size + k ∧ ∃ x ∈ g.destinations v l, x ∈ blocks[k] := by
  obtain ⟨k, hk, rfl⟩ := hd.exists_number (hd.sound.target_mem (hd.mem_number hi) hu)
  obtain ⟨v', hv', w, hw, hvw⟩ := (hd.mem_destinations i hi k hk l).1 hu
  obtain ⟨x, hx, hx_block⟩ :=
    hd.blocking.step _ (List.getElem_mem hi) v' hv' v hv l w hvw
  exact ⟨k, hk, rfl, x, hx, hx_block _ (List.getElem_mem hk) hw⟩

/-- A path between blocks is a path from each member of the first to some member of the last. By
induction on the path, with a step from the member that was reached last. -/
theorem exists_path (hd : MadeOfBlocks g a blocks h d) {x y : Vertex} {word : List Label}
    (hpath : Path h x word y) {i : Nat} (hi : i < blocks.length) (hx : x = g.size + i)
    {v : Vertex} (hv : v ∈ blocks[i]) :
    ∃ w, Path g v word w ∧ ∃ j, ∃ hj : j < blocks.length, w ∈ blocks[j] ∧ y = g.size + j := by
  induction hpath generalizing i v with
  | stay => exact ⟨v, .stay v, i, hi, hv, hx⟩
  | silent first _ ih =>
    rw [hx] at first
    obtain ⟨k, hk, hu, z, hz, hzk⟩ := hd.exists_step hi hv first
    obtain ⟨w, hw, hend⟩ := ih hk hu hzk
    exact ⟨w, .silent hz hw, hend⟩
  | read symbol first _ ih =>
    rw [hx] at first
    obtain ⟨k, hk, hu, z, hz, hzk⟩ := hd.exists_step hi hv first
    obtain ⟨w, hw, hend⟩ := ih hk hu hzk
    exact ⟨w, .read symbol hz hw, hend⟩

/-- A block accepts what each of its members accepts. Members of one block accept alike, so it does
not matter to which member of the last block the word leads. -/
theorem languageFrom_eq (hd : MadeOfBlocks g a blocks h d) (ha : a.Labelled g) {i : Nat}
    (hi : i < blocks.length) {v : Vertex} (hv : v ∈ blocks[i]) :
    h.languageFrom (g.size + i) = g.languageFrom v := by
  ext word
  constructor
  · rintro ⟨y, hpath, hacc⟩
    obtain ⟨w, hw, j, hj, hwj, rfl⟩ := hd.exists_path hpath hi rfl hv
    rw [hd.isAccepting_eq j hj w hwj] at hacc
    exact ⟨w, hw, hacc⟩
  · rintro ⟨w, hpath, hacc⟩
    obtain ⟨j, hj, hwj, hpath'⟩ := hd.path_of_path ha hpath hi hv
    refine ⟨g.size + j, hpath', ?_⟩
    rw [hd.isAccepting_eq j hj w hwj]
    exact hacc

/-- The words are the same, since the block that the new automaton starts in holds the old start
state. -/
theorem language_eq (hd : MadeOfBlocks g a blocks h d) (ha : a.Labelled g) :
    d.language h = a.language g := by
  obtain ⟨i, hi, hstart, heq⟩ := hd.start_eq
  rw [Automaton.language, heq, hd.languageFrom_eq ha hi hstart]
  rfl

/-- If every state leads to acceptance, so does every block. -/
theorem alive (hd : MadeOfBlocks g a blocks h d) (ha : a.Labelled g)
    (halive : ∀ v ∈ a.states, ∃ word, word ∈ g.languageFrom v) :
    ∀ v ∈ d.states, ∃ word, word ∈ h.languageFrom v := by
  intro v hv
  obtain ⟨i, hi, rfl⟩ := hd.exists_number hv
  obtain ⟨w, hw⟩ := hd.blocking.inhabited _ (List.getElem_mem hi)
  rw [hd.languageFrom_eq ha hi hw]
  exact halive w (hd.mem_states_old hi hw)

/-! ## The numbers of the blocks -/

section Numbers

variable {first : Nat} {words : List (List Label)}

/-- The number of the least member of a block. -/
def leastNumber (g : Graph) (b : VertexSet) : Nat := (Machine.leastId g b).toNat

/-- The words of the least members of blocks. -/
def leastWords (g : Graph) (words : List (List Label)) (blocks : List VertexSet) :
    List (List Label) :=
  blocks.map fun b => words.getD (leastNumber g b) []

/-- The least member of a block has the least number in it. States are numbered by their
identifiers. -/
theorem leastNumber_spec (hd : MadeOfBlocks g a blocks h d) (hn : a.Numbered g first words)
    {b : VertexSet} (hb : b ∈ blocks) : leastNumber g b < words.length ∧
      Machine.leastId g b = leastNumber g b ∧ first + leastNumber g b ∈ b ∧
        ∀ k < words.length, first + k ∈ b → leastNumber g b ≤ k := by
  obtain ⟨v, hv, hv_id, hleast⟩ := Machine.exists_leastId (g := g) (hd.blocking.inhabited b hb)
  obtain ⟨i, hi, rfl⟩ := List.getElem_of_mem hb
  obtain ⟨k, hk, rfl⟩ := hn.exists_number (hd.mem_states_old hi hv)
  have hnumber : leastNumber g blocks[i] = k := by
    rw [leastNumber, ← hv_id, hn.id_eq k hk, Int.toNat_natCast]
  rw [hnumber]
  refine ⟨hk, by rw [← hv_id, hn.id_eq k hk], hv, ?_⟩
  intro j hj hmem
  have hle := hleast _ hmem
  rw [← hv_id, hn.id_eq k hk, hn.id_eq j hj] at hle
  exact Int.ofNat_le.1 hle

/-- The start state has the least number of all, so its block comes first. -/
theorem start_eq_size (hd : MadeOfBlocks g a blocks h d) (hn : a.Numbered g first words) :
    ∃ hpos : 0 < blocks.length, a.start ∈ blocks[0] ∧ d.start = g.size := by
  obtain ⟨i, hi, hstart, heq⟩ := hd.start_eq
  have hpos : 0 < blocks.length := Nat.lt_of_le_of_lt (Nat.zero_le i) hi
  have hwords : 0 < words.length := by
    have hmem := (hn.mem_states a.start).1 (hd.mem_states_old hi hstart)
    rw [hn.start_eq] at hmem
    omega
  have hfirst : first + 0 ∈ blocks[i] := by
    rw [Nat.add_zero, ← hn.start_eq]
    exact hstart
  have hzero : leastNumber g blocks[i] = 0 := by
    have hle := (hd.leastNumber_spec hn (List.getElem_mem hi)).2.2.2 0 hwords hfirst
    omega
  rcases Nat.eq_zero_or_pos i with rfl | hi_pos
  · exact ⟨hi, hstart, heq⟩
  -- a block before that of the start state would have a lesser number
  · have hlt := List.pairwise_iff_getElem.1 hd.blocking.ordered 0 i hpos hi hi_pos
    rw [(hd.leastNumber_spec hn (List.getElem_mem hpos)).2.1,
      (hd.leastNumber_spec hn (List.getElem_mem hi)).2.1, hzero] at hlt
    omega

/-- There is one word for each block. -/
theorem length_leastWords (g : Graph) (words : List (List Label)) (blocks : List VertexSet) :
    (leastWords g words blocks).length = blocks.length := List.length_map ..

/-- The word of a block is that of the least number in it. -/
theorem getElem_leastWords {i : Nat} (hi : i < blocks.length)
    (hi' : i < (leastWords g words blocks).length)
    (hk : leastNumber g blocks[i] < words.length) :
    (leastWords g words blocks)[i] = words[leastNumber g blocks[i]] := by
  simp only [leastWords, List.getElem_map]
  rw [List.getD_eq_getElem?_getD, List.getElem?_eq_getElem hk, Option.getD_some]

/-- The word of the least member of a block leads to the block. -/
theorem path_least (hd : MadeOfBlocks g a blocks h d) (ha : a.Labelled g)
    (hn : a.Numbered g first words) {i : Nat} (hi : i < blocks.length)
    (hk : leastNumber g blocks[i] < words.length) :
    Path h g.size words[leastNumber g blocks[i]] (g.size + i) := by
  obtain ⟨hpos, hstart, _⟩ := hd.start_eq_size hn
  obtain ⟨_, _, hmem, _⟩ := hd.leastNumber_spec hn (List.getElem_mem hi)
  have hpath := hn.path _ hk
  rw [← hn.start_eq] at hpath
  obtain ⟨j, hj, hwj, hpath'⟩ := hd.path_of_path ha hpath hpos hstart
  rw [hn.start_eq] at hwj
  -- members of two blocks are different, so the block that is reached is this one
  obtain rfl := hd.blocking.unique j hj i hi _ hwj hmem
  exact hpath'

/-- No word that leads to a block is earlier than that of its least member. It leads to some member,
and the word of the least member is no later than that of any other. -/
theorem not_earlier_least (hd : MadeOfBlocks g a blocks h d) (ha : a.Sound g)
    (hn : a.Numbered g first words) {i : Nat} (hi : i < blocks.length)
    (hk : leastNumber g blocks[i] < words.length) {word : List Label}
    (hpath : Path h g.size word (g.size + i)) : ¬Earlier word words[leastNumber g blocks[i]] := by
  obtain ⟨hpos, hstart, _⟩ := hd.start_eq_size hn
  obtain ⟨_, _, _, hleast⟩ := hd.leastNumber_spec hn (List.getElem_mem hi)
  obtain ⟨w, hw, j, hj, hwj, heq⟩ := hd.exists_path hpath hpos rfl hstart
  obtain rfl : i = j := Nat.add_left_cancel heq
  obtain ⟨n, hn_lt, rfl⟩ := hn.exists_number (ha.path_mem hw ha.start_mem)
  rw [hn.start_eq] at hw
  have hlate := hn.least n hn_lt word hw
  rcases Nat.eq_or_lt_of_le (hleast n hn_lt hwj) with heq | hlt
  · simpa only [heq] using hlate
  · have hbefore := List.pairwise_iff_getElem.1 hn.ascending _ _ hk hn_lt hlt
    exact fun h => hlate (h.trans hbefore)

/-- The blocks are numbered by the words of their least members. The earliest word that leads to a
block leads to one of its members, and the earliest words that lead to the members are in the order
of their numbers; so it is the word of the least member. -/
theorem numbered (hd : MadeOfBlocks g a blocks h d) (ha : a.Sound g)
    (hn : a.Numbered g first words) : d.Numbered h g.size (leastWords g words blocks) := by
  have hlen := length_leastWords g words blocks
  obtain ⟨_, _, hstart⟩ := hd.start_eq_size hn
  constructor
  · exact hstart
  · intro v
    rw [hd.mem_states, hlen]
  · intro i hi
    exact hd.id_eq i (hlen ▸ hi)
  · rw [List.pairwise_iff_getElem]
    intro i j hi' hj' hij
    have hi : i < blocks.length := hlen ▸ hi'
    have hj : j < blocks.length := hlen ▸ hj'
    obtain ⟨hki, hidi, _, _⟩ := hd.leastNumber_spec hn (List.getElem_mem hi)
    obtain ⟨hkj, hidj, _, _⟩ := hd.leastNumber_spec hn (List.getElem_mem hj)
    -- blocks are ordered by their least members
    have hlt := List.pairwise_iff_getElem.1 hd.blocking.ordered i j hi hj hij
    rw [hidi, hidj] at hlt
    rw [getElem_leastWords hi hi' hki, getElem_leastWords hj hj' hkj]
    exact List.pairwise_iff_getElem.1 hn.ascending _ _ hki hkj (Int.ofNat_lt.1 hlt)
  · intro i hi'
    have hi : i < blocks.length := hlen ▸ hi'
    obtain ⟨hk, _⟩ := hd.leastNumber_spec hn (List.getElem_mem hi)
    rw [getElem_leastWords hi hi' hk]
    exact hd.path_least ha.labelled hn hi hk
  · intro i hi' word hpath
    have hi : i < blocks.length := hlen ▸ hi'
    obtain ⟨hk, _⟩ := hd.leastNumber_spec hn (List.getElem_mem hi)
    rw [getElem_leastWords hi hi' hk]
    exact hd.not_earlier_least ha hn hi hk hpath

end Numbers

end MadeOfBlocks

/-! ## The edit -/

namespace Machine

/-- Noting the passes changes nothing but the log. -/
theorem graph_notePasses (m : Machine) (counts : List Nat) :
    (m.notePasses counts).graph = m.graph ∧
      (m.notePasses counts).automaton = m.automaton := by
  rw [notePasses]
  induction counts.zipIdx generalizing m with
  | nil => exact ⟨rfl, rfl⟩
  | cons e rest ih => exact ih _

/-- Each pass is noted with its number and with how many blocks there are after it. -/
theorem log_notePasses (m : Machine) (counts : List Nat) : (m.notePasses counts).log.toList =
    m.log.toList ++ counts.zipIdx.map fun e => .refined (e.2 + 1) e.1 := by
  rw [notePasses]
  induction counts.zipIdx generalizing m with
  | nil => exact (List.append_nil _).symm
  | cons e rest ih =>
    rw [List.foldl_cons, ih, List.map_cons, List.append_cons]
    exact congrArg (· ++ _) Array.toList_push

end Machine

/-- The automaton without what reads nothing in its alphabet. -/
def Automaton.withoutSilent (a : Automaton) : Automaton :=
  { a with alphabet := a.alphabet.erase .epsilon }

/-- If reading nothing is not listed, leaving it out changes nothing. -/
theorem Automaton.withoutSilent_eq_self {a : Automaton} (ha : .epsilon ∉ a.alphabet) :
    a.withoutSilent = a := by
  have halphabet : a.alphabet.erase .epsilon = a.alphabet := by
    ext l
    rw [OrdSet.mem_erase, and_iff_left_iff_imp]
    rintro hl rfl
    exact ha hl
  rw [withoutSilent, halphabet]

/-- The check does not look at the alphabet. -/
theorem Automaton.wellFormed_withoutSilent_iff {g : Graph} {a : Automaton} :
    a.withoutSilent.WellFormed g ↔ a.WellFormed g := by
  rw [wellFormed_iff, wellFormed_iff]
  rfl

/-- That reading nothing is listed in the alphabet does not matter. -/
theorem Automaton.labelled_withoutSilent {g : Graph} {a : Automaton} (ha : a.WellFormed g)
    (hlabel : ∀ v ∈ a.states, ∀ l, ∀ w ∈ g.destinations v l, l ∈ a.alphabet) :
    a.withoutSilent.Labelled g where
  wellFormed := wellFormed_withoutSilent_iff.2 ha
  label_mem := fun v hv l w hw hl => OrdSet.mem_erase.2 ⟨hlabel v hv l w hw, hl⟩
  epsilon_not_mem := fun hmem => (OrdSet.mem_erase.1 hmem).2 rfl

/-- A new automaton leaves out what reads nothing by itself. -/
theorem Machine.quotient_withoutSilent (m : Machine) (p : Partition) :
    (m.onAutomaton Automaton.withoutSilent).quotient p = m.quotient p := by
  have hfresh : ∀ (g : Graph) (start : Vertex) (states : VertexSet) (alphabet : Alphabet)
      (strict : Bool), Automaton.fresh? g start states (alphabet.erase .epsilon) strict =
        Automaton.fresh? g start states alphabet strict := by
    intro g start states alphabet strict
    have herase : (alphabet.erase .epsilon).erase .epsilon = alphabet.erase .epsilon := by
      ext l
      rw [OrdSet.mem_erase, OrdSet.mem_erase, and_assoc, and_self]
    rw [Automaton.fresh?, Automaton.fresh, herase, Automaton.fresh?, Automaton.fresh]
  simp only [quotient, onAutomaton, Automaton.withoutSilent, hfresh]
  rfl

/-- Minimizing notes the passes of refinement, then makes the states of the blocks, and notes at
last how many there are. -/
theorem Edit.minimize_eq_ok {m : Machine} {made : Graph × Automaton}
    (hlive : m.automaton.discarded = false)
    (hdet : m.automaton.isDeterministic m.graph = true)
    (hmade : m.quotient m.refined = .ok made) :
    Edit.minimize m = .ok made.2
      ({ m.notePasses (m.acceptancePartition.refine m.graph m.automaton.alphabet.toList).2 with
          graph := made.1 }.note (.minimized m.automaton.states.size made.2.states.size
        (m.acceptancePartition.refine m.graph m.automaton.alphabet.toList).2.length)) := by
  rw [Machine.refined] at hmade
  simp only [minimize, outcome_bind, live_eq_ok hlive, outcome_get, hdet, Bool.not_true,
    Bool.false_eq_true, if_false, outcome_modify, outcome_pure, hmade]

/-- Minimizing merges the blocks of the refined partition, also if the alphabet holds what reads
nothing. What was there before stays. -/
theorem Edit.minimize_withoutSilent {m : Machine} (hm : m.automaton.withoutSilent.Labelled m.graph)
    (hd : m.graph.Deterministic m.automaton.states) (hlive : m.automaton.discarded = false) :
    ∃ d m', Edit.minimize m = .ok d m' ∧
      MadeOfBlocks m.graph m.automaton.withoutSilent (Machine.blocksInOrder m.graph m.refined)
        m'.graph d ∧
        m'.automaton = m.automaton ∧ d.alphabet = m.automaton.withoutSilent.alphabet ∧
          d.strict = m.automaton.strict ∧ d.discarded = false := by
  have hwf := Automaton.wellFormed_withoutSilent_iff.1 hm.wellFormed
  have hblocking := Machine.blocking_refined hwf
    (fun v hv l w hw hl => (OrdSet.mem_erase.1 (hm.label_mem v hv l w hw hl)).1) hd
  -- what blocks are asked for has nothing to do with the alphabet
  have hb : Blocking m.graph m.automaton.withoutSilent (Machine.blocksInOrder m.graph m.refined) :=
    ⟨hblocking.cover, hblocking.inhabited, hblocking.unique, hblocking.ordered,
      hblocking.isAccepting_eq, hblocking.step⟩
  have hproper : m.refined.Proper m.automaton.states := Machine.proper_refined
  have hmade := Machine.madeOfBlocks (a := m.automaton.withoutSilent) hproper
    (fun _ => Machine.mem_blocksInOrder) hb hm hd
  have heq := Machine.quotient_eq (m := m.onAutomaton Automaton.withoutSilent) hm hd hproper hb
  rw [Machine.quotient_withoutSilent] at heq
  dsimp only [Machine.onAutomaton] at heq
  have halphabet : (Machine.blockAutomaton m.graph m.automaton.withoutSilent m.refined
    (Machine.blocksInOrder m.graph m.refined)).alphabet = m.automaton.withoutSilent.alphabet :=
    Machine.alphabet_blockAutomaton hm
  have hstrict : (Machine.blockAutomaton m.graph m.automaton.withoutSilent m.refined
    (Machine.blocksInOrder m.graph m.refined)).strict = m.automaton.strict := rfl
  have hdiscarded : (Machine.blockAutomaton m.graph m.automaton.withoutSilent m.refined
    (Machine.blocksInOrder m.graph m.refined)).discarded = false := rfl
  have hcheck := hwf.isDeterministic_iff.2 hd
  generalize (Machine.carryOut m.graph _ _ _).graph = h at *
  generalize Machine.blockAutomaton m.graph m.automaton.withoutSilent m.refined _ = d at *
  refine ⟨d, _, minimize_eq_ok hlive hcheck heq, hmade, ?_, halphabet, hstrict, hdiscarded⟩
  exact (Machine.graph_notePasses m _).2

/-- Minimizing merges the blocks of the refined partition. What was there before stays. All that is
proved of minimizing is proved from this statement. -/
theorem Edit.minimize_spec {m : Machine} (hm : m.automaton.Labelled m.graph)
    (hd : m.graph.Deterministic m.automaton.states) (hlive : m.automaton.discarded = false) :
    ∃ d m', Edit.minimize m = .ok d m' ∧
      MadeOfBlocks m.graph m.automaton (Machine.blocksInOrder m.graph m.refined) m'.graph d ∧
        m'.automaton = m.automaton ∧ d.alphabet = m.automaton.alphabet ∧
          d.strict = m.automaton.strict ∧ d.discarded = false := by
  have hself := Automaton.withoutSilent_eq_self hm.epsilon_not_mem
  have hspec := minimize_withoutSilent (by rwa [hself]) hd hlive
  rwa [hself] at hspec

/-- Minimizing any machine is refused and changes nothing but the log, or answers with the
automaton made of the blocks, in its graph. The automaton of the machine is left as it is. -/
theorem Edit.minimize_cases (m : Machine) : ∃ m', m'.automaton = m.automaton ∧
    ((∃ f, Edit.minimize m = .error f m' ∧ m'.graph = m.graph) ∨
      ∃ d, Edit.minimize m = .ok d m' ∧ m.quotient m.refined = .ok (m'.graph, d)) := by
  -- discarded, not deterministic, a fault in merging, or none of these
  cases hlive : m.automaton.discarded with
  | true =>
    refine ⟨m, rfl, Or.inl ⟨.spent .minimize, ?_, rfl⟩⟩
    simp only [minimize, outcome_bind, live_eq_error hlive]
  | false =>
    cases hdet : m.automaton.isDeterministic m.graph with
    | false =>
      refine ⟨m, rfl, Or.inl ⟨.notDeterministic, ?_, rfl⟩⟩
      simp only [minimize, outcome_bind, live_eq_ok hlive, outcome_get, hdet, Bool.not_false,
        if_true, outcome_throw]
    | true =>
      have hpasses := Machine.graph_notePasses m
        (m.acceptancePartition.refine m.graph m.automaton.alphabet.toList).2
      cases hmade : m.quotient m.refined with
      | error f =>
        refine ⟨_, hpasses.2, Or.inl ⟨f, ?_, hpasses.1⟩⟩
        rw [Machine.refined] at hmade
        simp only [minimize, outcome_bind, live_eq_ok hlive, outcome_get, hdet, Bool.not_true,
          Bool.false_eq_true, if_false, outcome_modify, hmade, outcome_throw]
      | ok made =>
        refine ⟨_, ?_, Or.inr ⟨made.2, minimize_eq_ok hlive hdet hmade, rfl⟩⟩
        exact hpasses.2

/-- Whatever the partition, the states made of its blocks come after all that were there, and so do
the ends of their edges. So this needs no hypothesis about the machine. -/
theorem Machine.spares_of_quotient {m m' : Machine} {p : Partition} {d : Automaton}
    (hautomaton : m'.automaton = m.automaton) (hmade : m.quotient p = .ok (m'.graph, d)) :
    m.Spares m' := by
  have hplace : ∀ {v w : Vertex},
      placeOf p (blocksInOrder m.graph p) m.graph.size v = .ok w → m.graph.size ≤ w := by
    intro v w hw
    rw [placeOf] at hw
    split at hw
    · cases hw
      exact Nat.le_add_right ..
    · cases hw
  obtain ⟨start, _, hmade⟩ := exists_of_bind_eq_ok hmade
  obtain ⟨fresh, _, hmade⟩ := exists_of_bind_eq_ok hmade
  obtain ⟨es, hes, hmade⟩ := exists_of_bind_eq_ok hmade
  refine .of_assembled hautomaton (congrArg Prod.fst (Except.ok.inj hmade)).symm ?_
  intro e he
  obtain ⟨e', _, hedge⟩ := exists_of_mem_mapM hes e he
  obtain ⟨source, hsource, hedge⟩ := exists_of_bind_eq_ok hedge
  obtain ⟨target, htarget, hedge⟩ := exists_of_bind_eq_ok hedge
  cases hedge
  exact ⟨hplace hsource, hplace htarget⟩

/-- Minimizing leaves any machine with its automaton, and with the states that were there. -/
theorem Edit.spares_minimize (m : Machine) : m.Spares (leftBy (Edit.minimize m)) := by
  obtain ⟨m', hautomaton, ⟨f, hfail, hgraph⟩ | ⟨d, hmade, hquotient⟩⟩ := minimize_cases m
  · rw [hfail]
    exact .of_graph_eq hautomaton hgraph
  · rw [hmade]
    exact Machine.spares_of_quotient hautomaton hquotient

end PatternAutomata
