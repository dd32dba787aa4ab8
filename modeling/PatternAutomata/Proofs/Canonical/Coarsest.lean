/-
The coarsest blocks.

Two states of a deterministic automaton have the same runs if the same words lead on from both
and each of these leads both to acceptance or both not (`Graph.SameRuns`). Minimizing merges two
states exactly if they have the same runs. It never parts them, since to have the same runs is a
bisimulation (`Partition.bisimulation_sameRuns`), and what it merges has the same runs, since
blocks lead to blocks as their members lead to members (`MadeOfBlocks.sameRuns`).

Side by side, the old automaton and the merged one read any word, with symbols outside the
alphabet too: after each symbol both are nowhere, or the merged one is in the block of the state
that the old one is in (`MadeOfBlocks.beside_after`, and by induction `beside_advanceAll`).

Nothing is asked of the input but that it passes the check, is deterministic and has the symbols
of its edges in its alphabet. Its states need not be reachable nor lead anywhere, and states of
other automata may lead into it.
-/
import PatternAutomata.Proofs.Canonical.Lockstep
import PatternAutomata.Proofs.Canonical.Minimizing

set_option autoImplicit false

namespace PatternAutomata

open PatternAutomata.Graph

/-! ## States with the same runs -/

/-- The same words lead on from two states, and where such a word leads from either, both
accept or neither does. -/
def Graph.SameRuns (g : Graph) (p q : Vertex) : Prop :=
  ∀ word, ((∃ u, Path g p word u) ↔ ∃ u, Path g q word u) ∧
    ∀ u x, Path g p word u → Path g q word x → (g.node u).isAccepting = (g.node x).isAccepting

namespace Graph

variable {g : Graph} {S : VertexSet}

/-- It does not matter which of the two states comes first. -/
theorem SameRuns.symm {p q : Vertex} (h : g.SameRuns p q) : g.SameRuns q p := by
  intro word
  obtain ⟨hrun, haccept⟩ := h word
  exact ⟨hrun.symm, fun u x hu hx => (haccept x u hx hu).symm⟩

/-- States with the same runs accept alike, since the empty word leads from each to itself. -/
theorem SameRuns.isAccepting_eq {p q : Vertex} (h : g.SameRuns p q) :
    (g.node p).isAccepting = (g.node q).isAccepting :=
  (h []).2 p q (.stay p) (.stay q)

/-- After one symbol the runs go on from the one state that it leads to. -/
theorem Deterministic.path_cons_iff_of_mem (hd : g.Deterministic S) {v u w : Vertex} {l : Label}
    {word : List Label} (hv : v ∈ S) (hu : u ∈ g.destinations v l) :
    Path g v (l :: word) w ↔ Path g u word w := by
  rw [hd.path_cons_iff hv]
  constructor
  · rintro ⟨_, x, hx, hw⟩
    rwa [hd.unique v hv l u hu x hx]
  · intro hw
    exact ⟨hd.ne_epsilon hv hu, u, hu, hw⟩

/-- From states with the same runs a symbol leads to states with the same runs. What leads on after
the symbol leads on with the symbol in front, from both states or from neither. -/
theorem SameRuns.step (hd : g.Deterministic S) {p q u : Vertex} {l : Label} (h : g.SameRuns p q)
    (hp : p ∈ S) (hq : q ∈ S) (hu : u ∈ g.destinations p l) :
    ∃ x ∈ g.destinations q l, g.SameRuns u x := by
  -- the run of one symbol exists from the other state too, and is one edge
  have hrun : Path g p [l] u := (hd.path_cons_iff_of_mem hp hu).2 (.stay u)
  obtain ⟨y, hy⟩ := (h [l]).1.1 ⟨u, hrun⟩
  obtain ⟨_, x, hx, _⟩ := (hd.path_cons_iff hq).1 hy
  refine ⟨x, hx, fun word => ?_⟩
  have hword := h (l :: word)
  simp only [hd.path_cons_iff_of_mem hp hu, hd.path_cons_iff_of_mem hq hx] at hword
  exact hword

end Graph

/-- To have the same runs is to be able to take the same steps again and again. So refining never
parts states with the same runs. -/
theorem Partition.bisimulation_sameRuns {g : Graph} {a : Automaton} (ha : a.Labelled g)
    (hd : g.Deterministic a.states) :
    Bisimulation g a.states fun v w => v ∈ a.states ∧ w ∈ a.states ∧ g.SameRuns v w where
  symm v w h := ⟨h.2.1, h.1, h.2.2.symm⟩
  step v hv w hw hvw l u hu := by
    obtain ⟨x, hx, hux⟩ := hvw.2.2.step hd hv hw hu
    exact ⟨x, hx, ha.target_mem hv hu, ha.target_mem hw hx, hux⟩
  target_mem _ hv _ _ hu := ha.target_mem hv hu

namespace MadeOfBlocks

variable {g h : Graph} {a d : Automaton} {blocks : List VertexSet}

/-- Members of one block have the same runs. A word that leads on from one member leads on from
their block, and so from the other member, to a state of the block that the first one led to. -/
theorem sameRuns (hd : MadeOfBlocks g a blocks h d) (ha : a.Labelled g) {i : Nat}
    (hi : i < blocks.length) {v w : Vertex} (hv : v ∈ blocks[i]) (hw : w ∈ blocks[i]) :
    g.SameRuns v w := by
  have hrun : ∀ {p q : Vertex}, p ∈ blocks[i] → q ∈ blocks[i] → ∀ {word : List Label},
      (∃ u, Path g p word u) → ∃ u, Path g q word u := by
    rintro p q hp hq word ⟨u, hu⟩
    -- a run of one member is a run of the block, and that one of each member
    obtain ⟨j, hj, _, hpath⟩ := hd.path_of_path ha hu hi hp
    obtain ⟨x, hx, _⟩ := hd.exists_path hpath hi rfl hq
    exact ⟨x, hx⟩
  intro word
  refine ⟨⟨hrun hv hw, hrun hw hv⟩, ?_⟩
  intro u x hu hx
  obtain ⟨j, hj, huj, hpath⟩ := hd.path_of_path ha hu hi hv
  obtain ⟨k, hk, hxk, hpath'⟩ := hd.path_of_path ha hx hi hw
  have hsame := hd.sound.path_unique hd.deterministic (hd.mem_number hi) hpath hpath'
  obtain rfl : j = k := Nat.add_left_cancel hsame
  exact (hd.isAccepting_eq j hj u huj).symm.trans (hd.isAccepting_eq j hj x hxk)

/-! ## What the states stand for -/

/-- No block is empty, so each new state stands for some old one. -/
theorem standsFor_ne_empty (hd : MadeOfBlocks g a blocks h d) :
    ∀ w ∈ d.states, (h.node w).standsFor ≠ ∅ := by
  intro w hw hempty
  obtain ⟨i, hi, rfl⟩ := hd.exists_number hw
  obtain ⟨v, hv⟩ := hd.blocking.inhabited _ (List.getElem_mem hi)
  rw [hd.standsFor_eq i hi] at hempty
  rw [hempty] at hv
  exact OrdSet.not_mem_empty v hv

/-- A state is in the block of one state only. -/
theorem eq_of_mem_standsFor (hd : MadeOfBlocks g a blocks h d) : ∀ w ∈ d.states,
    ∀ x ∈ d.states, ∀ v ∈ (h.node w).standsFor, v ∈ (h.node x).standsFor → w = x := by
  intro w hw x hx v hvw hvx
  obtain ⟨i, hi, rfl⟩ := hd.exists_number hw
  obtain ⟨j, hj, rfl⟩ := hd.exists_number hx
  rw [hd.standsFor_eq i hi] at hvw
  rw [hd.standsFor_eq j hj] at hvx
  rw [hd.blocking.unique i hi j hj v hvw hvx]

/-- The blocks hold the old states and nothing else. -/
theorem mem_states_iff_standsFor (hd : MadeOfBlocks g a blocks h d) (v : Vertex) :
    v ∈ a.states ↔ ∃ w ∈ d.states, v ∈ (h.node w).standsFor := by
  rw [hd.blocking.cover]
  constructor
  · rintro ⟨i, hi, hv⟩
    refine ⟨g.size + i, hd.mem_number hi, ?_⟩
    rwa [hd.standsFor_eq i hi]
  · rintro ⟨w, hw, hv⟩
    obtain ⟨i, hi, rfl⟩ := hd.exists_number hw
    rw [hd.standsFor_eq i hi] at hv
    exact ⟨i, hi, hv⟩

/-! ## Reading side by side -/

/-- Both sets of states are empty, or the first one holds one state and the second one the state
made of its block. -/
def Beside (g : Graph) (blocks : List VertexSet) (vs ws : VertexSet) : Prop :=
  vs = ∅ ∧ ws = ∅ ∨
    ∃ i, ∃ hi : i < blocks.length, ∃ v ∈ blocks[i], v < g.size ∧ vs = {v} ∧ ws = {g.size + i}

/-- One symbol leads from a state to a state of the block that it leads to from its block, or
nowhere in both automata. -/
theorem beside_destinations (hd : MadeOfBlocks g a blocks h d) (ha : a.Labelled g)
    (hdet : g.Deterministic a.states) {i : Nat} (hi : i < blocks.length) {v : Vertex}
    (hv : v ∈ blocks[i]) (l : Label) :
    Beside g blocks (g.destinations v l) (h.destinations (g.size + i) l) := by
  have hv_mem := hd.mem_states_old hi hv
  by_cases hsome : ∃ u, u ∈ g.destinations v l
  · obtain ⟨u, hu⟩ := hsome
    obtain ⟨k, hk, huk⟩ := (hd.blocking.cover u).1 (ha.target_mem hv_mem hu)
    have hblock : g.size + k ∈ h.destinations (g.size + i) l :=
      (hd.mem_destinations i hi k hk l).2 ⟨v, hv, u, huk, hu⟩
    refine Or.inr ⟨k, hk, u, huk, ha.wellFormed.target_lt hv_mem hu, ?_, ?_⟩
    · exact OrdSet.eq_singleton hu fun w hw => hdet.unique v hv_mem l w hw u hu
    · exact OrdSet.eq_singleton hblock fun w hw =>
        hd.deterministic.unique _ (hd.mem_number hi) l w hw _ hblock
  · refine Or.inl ⟨OrdSet.eq_empty_iff.2 (not_exists.1 hsome), OrdSet.eq_empty_iff.2 ?_⟩
    intro w hw
    -- an edge of the block would be one of each member
    obtain ⟨_, _, _, x, hx, _⟩ := hd.exists_step hi hv hw
    exact hsome ⟨x, hx⟩

/-- In filled places the old states are deterministic as they were, and no edge leaves these. A
state of an automaton that passes the check may lie in a place that is not filled, if it has no
edges; the places of the new states were not filled then either. -/
theorem deterministic_filled (hd : MadeOfBlocks g a blocks h d) (ha : a.WellFormed g)
    (hdet : g.Deterministic a.states) : h.Deterministic (a.states.filter (· < g.size)) ∧
      ∀ v ∈ a.states.filter (· < g.size), ∀ l, h.destinations v l = g.destinations v l ∧
        ∀ w ∈ h.destinations v l, w ∈ a.states.filter (· < g.size) := by
  have hold : ∀ v < g.size, ∀ l, h.destinations v l = g.destinations v l := by
    intro v hv l
    rw [destinations, hd.node_eq v hv, destinations]
  simp only [OrdSet.mem_filter, decide_eq_true_eq]
  refine ⟨hdet.congr ?_ ?_, ?_⟩
  · exact fun v hv => (OrdSet.mem_filter.1 hv).1
  · exact fun v hv => hold v (of_decide_eq_true (OrdSet.mem_filter.1 hv).2)
  · intro v hv l
    rw [hold v hv.2]
    exact ⟨rfl, fun w hw => ⟨ha.target_mem v hv.1 l w hw, ha.target_lt hv.1 hw⟩⟩

/-- Before anything is read, the old automaton is in its start state and the merged one in the
block of that. -/
theorem beside_closure_start (hd : MadeOfBlocks g a blocks h d) (ha : a.WellFormed g)
    (hdet : g.Deterministic a.states) :
    Beside g blocks (h.closure {a.start}) (h.closure {d.start}) := by
  obtain ⟨i, hi, hstart, heq⟩ := hd.start_eq
  obtain ⟨hfilled, _⟩ := hd.deterministic_filled ha hdet
  have hstart_filled : a.start ∈ a.states.filter (· < g.size) :=
    OrdSet.mem_filter.2 ⟨ha.start_mem, decide_eq_true ha.start_lt⟩
  refine Or.inr ⟨i, hi, a.start, hstart, ha.start_lt, hfilled.closure_singleton hstart_filled, ?_⟩
  rw [hd.deterministic.closure_singleton hd.sound.start_mem, heq]

/-- Sets of states stay side by side when a symbol is read on the edges. -/
theorem beside_closure_targets (hd : MadeOfBlocks g a blocks h d) (ha : a.Labelled g)
    (hdet : g.Deterministic a.states) {vs ws : VertexSet} (hbeside : Beside g blocks vs ws)
    (l : Label) :
    Beside g blocks (h.closure (h.targets vs l)) (h.closure (h.targets ws l)) := by
  obtain ⟨rfl, rfl⟩ | ⟨i, hi, v, hv, hlt, rfl, rfl⟩ := hbeside
  · rw [closure_targets_empty]
    exact Or.inl ⟨rfl, rfl⟩
  · obtain ⟨hfilled, hold⟩ := hd.deterministic_filled ha.wellFormed hdet
    have hv_filled : v ∈ a.states.filter (· < g.size) :=
      OrdSet.mem_filter.2 ⟨hd.mem_states_old hi hv, decide_eq_true hlt⟩
    rw [hfilled.closure_targets (fun v hv l => (hold v hv l).2) hv_filled,
      (hold v hv_filled l).1,
      hd.deterministic.closure_targets (fun _ hw _ _ hu => hd.sound.target_mem hw hu)
        (hd.mem_number hi)]
    exact hd.beside_destinations ha hdet hi hv l

/-- Machines stay side by side when they read, whatever they read. A symbol outside the alphabet
leads both of them nowhere. By induction on the word. -/
theorem beside_advanceAll (hd : MadeOfBlocks g a blocks h d) (ha : a.Labelled g)
    (hdet : g.Deterministic a.states) {m n : Machine} (hgraph : m.graph = h)
    (hgraph' : n.graph = h) (halphabet : n.automaton.alphabet = m.automaton.alphabet)
    (hbeside : Beside g blocks m.automaton.run.current n.automaton.run.current)
    (word : List Label) : Beside g blocks (m.advanceAll word).automaton.run.current
      (n.advanceAll word).automaton.run.current := by
  induction word generalizing m n with
  | nil => exact hbeside
  | cons l word ih =>
    rw [Machine.advanceAll_cons, Machine.advanceAll_cons]
    refine ih (m := m.advance l) (n := n.advance l) hgraph hgraph' halphabet ?_
    rw [Machine.current_advance, Machine.current_advance, Machine.after, Machine.after, halphabet,
      hgraph, hgraph']
    by_cases hl : l ∈ m.automaton.alphabet
    · rw [if_pos hl, if_pos hl]
      exact hd.beside_closure_targets ha hdet hbeside l
    · rw [if_neg hl, if_neg hl]
      exact Or.inl ⟨rfl, rfl⟩

end MadeOfBlocks

/-! ## The edit -/

/-- Both machines are nowhere, or each is in one state and that of the second one, which is one of
its own, stands for that of the first one among others. -/
def Machine.InBlock (m m' : Machine) : Prop :=
  m.automaton.run.current = ∅ ∧ m'.automaton.run.current = ∅ ∨
    ∃ v, ∃ w ∈ m'.automaton.states, m.automaton.run.current = {v} ∧
      m'.automaton.run.current = {w} ∧ v ∈ (m'.graph.node w).standsFor

/-- An automaton was made of a machine by merging states: the machine is left as it was, the new
automaton is deterministic and passes the check, its states stand for disjoint blocks of the old
states, two of which share a block exactly if they have the same runs, and every word leads to
the block of the state that it leads to. -/
structure Machine.Minimizes (m m' : Machine) (d : Automaton) : Prop where
  automaton_eq : m'.automaton = m.automaton
  node_eq : ∀ v < m.graph.size, m'.graph.node v = m.graph.node v
  isDeterministic : d.isDeterministic m'.graph = true
  violation?_eq : d.violation? m'.graph = none
  alphabet_eq : d.alphabet = m.automaton.alphabet
  strict_eq : d.strict = m.automaton.strict
  standsFor_ne_empty : ∀ w ∈ d.states, (m'.graph.node w).standsFor ≠ ∅
  eq_of_mem_standsFor : ∀ w ∈ d.states, ∀ x ∈ d.states, ∀ v ∈ (m'.graph.node w).standsFor,
    v ∈ (m'.graph.node x).standsFor → w = x
  mem_states_iff : ∀ v, v ∈ m.automaton.states ↔ ∃ w ∈ d.states, v ∈ (m'.graph.node w).standsFor
  sameBlock_iff : ∀ p ∈ m.automaton.states, ∀ q ∈ m.automaton.states,
    (∃ w ∈ d.states, p ∈ (m'.graph.node w).standsFor ∧ q ∈ (m'.graph.node w).standsFor) ↔
      m.graph.SameRuns p q
  isAccepting_eq : ∀ w ∈ d.states, ∀ v ∈ (m'.graph.node w).standsFor,
    (m'.graph.node w).isAccepting = (m.graph.node v).isAccepting
  inBlock : ∀ word, ∃ m₁ m₂,
    (do Edit.reset; Edit.read word : Edit Unit) m' = Edit.readOutcome m.automaton word m₁ ∧
      (do Edit.reset; Edit.read word : Edit Unit) { m' with automaton := d } =
        Edit.readOutcome m.automaton word m₂ ∧ m₁.InBlock m₂

/-- Members of the blocks that minimizing ends with are in one block exactly if they have the same
runs. One half holds of any blocks that states can be merged by, the other one because refining
parts no states that have the same runs. -/
theorem MadeOfBlocks.sameBlock_iff {m : Machine} {h : Graph} {d : Automaton}
    (hmade : MadeOfBlocks m.graph m.automaton (Machine.blocksInOrder m.graph m.refined) h d)
    (hm : m.automaton.Labelled m.graph) (hd : m.graph.Deterministic m.automaton.states)
    {p q : Vertex} (hp : p ∈ m.automaton.states) (hq : q ∈ m.automaton.states) :
    (∃ w ∈ d.states, p ∈ (h.node w).standsFor ∧ q ∈ (h.node w).standsFor) ↔
      m.graph.SameRuns p q := by
  constructor
  · rintro ⟨w, hw, hpw, hqw⟩
    obtain ⟨i, hi, rfl⟩ := hmade.exists_number hw
    rw [hmade.standsFor_eq i hi] at hpw hqw
    exact hmade.sameRuns hm hi hpw hqw
  · intro hsame
    obtain ⟨w, hw, hpw⟩ := (hmade.mem_states_iff_standsFor p).1 hp
    obtain ⟨i, hi, rfl⟩ := hmade.exists_number hw
    rw [hmade.standsFor_eq i hi] at hpw
    -- refinement never parts them
    have hqw := Machine.mem_block_of_related hd (Partition.bisimulation_sameRuns hm hd)
      (fun _ _ h => h.2.2.isAccepting_eq) (List.getElem_mem hi) hpw hq ⟨hp, hq, hsame⟩
    refine ⟨_, hw, ?_⟩
    rw [hmade.standsFor_eq i hi]
    exact ⟨hpw, hqw⟩

/-- Where two machines are after a word says whether the second one is in the block of the state of
the first one. -/
theorem MadeOfBlocks.inBlock {g : Graph} {a d : Automaton} {blocks : List VertexSet}
    {m m' : Machine} (hd : MadeOfBlocks g a blocks m'.graph d)
    (hstates : m'.automaton.states = d.states)
    (hbeside : Beside g blocks m.automaton.run.current m'.automaton.run.current) :
    m.InBlock m' := by
  obtain hnowhere | ⟨i, hi, v, hv, _, hold, hnew⟩ := hbeside
  · exact Or.inl hnowhere
  · refine Or.inr ⟨v, g.size + i, ?_, hold, hnew, ?_⟩
    · rw [hstates]
      exact hd.mem_number hi
    · rwa [hd.standsFor_eq i hi]

/-- The first state and the third one, which nothing leads to, both read one symbol to the second
one. -/
def sideEntry : Machine :=
  threeBare.connectAll [⟨0, .symbol "a", 1⟩, ⟨2, .symbol "a", 1⟩]

/-- The three states make up a sound automaton, though one of them is not reached. -/
theorem sound_sideEntry : sideEntry.automaton.Sound sideEntry.graph :=
  sound_threeBare.connectAll (by decide)

namespace Edit

/-- Minimizing merges the states with the same runs and no others. -/
theorem minimize_coarsest {m : Machine} (hcheck : m.automaton.violation? m.graph = none)
    (hdet : m.automaton.isDeterministic m.graph = true)
    (hlabel : ∀ v ∈ m.automaton.states, ∀ l, ∀ w ∈ m.graph.destinations v l,
      l ∈ m.automaton.alphabet)
    (hepsilon : .epsilon ∉ m.automaton.alphabet) (hlive : m.automaton.discarded = false) :
    ∃ d m', Edit.minimize m = .ok d m' ∧ m.Minimizes m' d := by
  have hwf := Automaton.violation?_eq_none_iff.1 hcheck
  have hm : m.automaton.Labelled m.graph :=
    ⟨hwf, fun v hv l w hw _ => hlabel v hv l w hw, hepsilon⟩
  have hd := hwf.isDeterministic_iff.1 hdet
  obtain ⟨d, m', hrun, hmade, hkept, halphabet, hstrict, hdiscarded⟩ := minimize_spec hm hd hlive
  refine ⟨d, m', hrun, ?_⟩
  constructor
  · exact hkept
  · exact hmade.node_eq
  · exact hmade.sound.isDeterministic hmade.deterministic
  · exact Automaton.violation?_eq_none_iff.2 hmade.sound.wellFormed
  · exact halphabet
  · exact hstrict
  · exact hmade.standsFor_ne_empty
  · exact hmade.eq_of_mem_standsFor
  · exact hmade.mem_states_iff_standsFor
  · exact fun p hp q hq => hmade.sameBlock_iff hm hd hp hq
  · intro w hw v hv
    obtain ⟨i, hi, rfl⟩ := hmade.exists_number hw
    rw [hmade.standsFor_eq i hi] at hv
    exact hmade.isAccepting_eq i hi v hv
  · intro word
    have hold := reset_read_eq_readOutcome (m := m') (by rwa [hkept]) word
    have hnew := reset_read_eq_readOutcome (m := { m' with automaton := d }) hdiscarded word
    -- both refuse the same symbols, so they read the same part of the word
    rw [hkept] at hold
    rw [readOutcome_congr halphabet hstrict, readPart_congr halphabet hstrict] at hnew
    refine ⟨_, _, hold, hnew, ?_⟩
    have hbegin : MadeOfBlocks.Beside m.graph (Machine.blocksInOrder m.graph m.refined)
        m'.reset.automaton.run.current
        ({ m' with automaton := d } : Machine).reset.automaton.run.current := by
      rw [Machine.current_reset, Machine.current_reset, hkept]
      exact hmade.beside_closure_start hwf hd
    have halphabet' : d.alphabet = m'.automaton.alphabet := by rw [halphabet, hkept]
    apply MadeOfBlocks.inBlock (by rwa [Machine.graph_advanceAll])
    · exact Machine.states_advanceAll _
    · exact hmade.beside_advanceAll hm hd (m := m'.reset)
        (n := ({ m' with automaton := d } : Machine).reset) rfl rfl halphabet' hbegin _

/-- States may lack symbols, lead nowhere or be out of reach. -/
theorem minimize_coarsest_sideEntry :
    sideEntry.automaton.violation? sideEntry.graph = none ∧
      sideEntry.automaton.isDeterministic sideEntry.graph = true ∧
        (∀ v ∈ sideEntry.automaton.states, ∀ l, ∀ w ∈ sideEntry.graph.destinations v l,
          l ∈ sideEntry.automaton.alphabet) ∧
          .epsilon ∉ sideEntry.automaton.alphabet ∧ sideEntry.automaton.discarded = false ∧
            ∃ d m', Edit.minimize sideEntry = .ok d m' ∧ sideEntry.Minimizes m' d := by
  have hwf := sound_sideEntry.wellFormed
  have hcheck := Automaton.violation?_eq_none_iff.2 hwf
  have hdet : sideEntry.automaton.isDeterministic sideEntry.graph = true := by decide
  have hepsilon := sound_sideEntry.epsilon_not_mem
  have hlabel : ∀ v ∈ sideEntry.automaton.states, ∀ l, ∀ w ∈ sideEntry.graph.destinations v l,
      l ∈ sideEntry.automaton.alphabet := by
    intro v hv l w hw
    apply sound_sideEntry.label_mem v hv l w hw
    rintro rfl
    rw [(hwf.isDeterministic_iff.1 hdet).silent v hv] at hw
    exact OrdSet.not_mem_empty w hw
  exact ⟨hcheck, hdet, hlabel, hepsilon, rfl,
    minimize_coarsest hcheck hdet hlabel hepsilon rfl⟩

end Edit

end PatternAutomata
