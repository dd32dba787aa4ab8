/-
Marking the states that lead nowhere.

A state is dead if no path leads from it to an accepting state. Marking looks for the others from
the accepting states backwards, along the sources that are noted at each state. Both ends of an edge
know of it and nothing else is noted, so what is found backwards is what leads to acceptance
forwards (`Machine.mem_ancestors_iff`).

Members of a block accept the same words, so a block of a minimized automaton is dead if any of its
members is, and then all of them are. Hence marks stay right when states are merged
(`MadeOfBlocks.isTrap_iff_dead`).
-/
import PatternAutomata.Proofs.Canonical.Completing

set_option autoImplicit false

namespace PatternAutomata

open PatternAutomata.Graph

/-! ## Dead states -/

namespace Graph

variable {g h : Graph} {v : Vertex}

/-- No path leads from a state to an accepting one. -/
def Dead (g : Graph) (v : Vertex) : Prop :=
  ∀ word w, Path g v word w → (g.node w).isAccepting = false

/-- From a dead state nothing is accepted. So the accepted words say which states are dead. -/
theorem dead_iff : g.Dead v ↔ g.languageFrom v = 0 := by
  constructor
  · intro hdead
    ext word
    refine iff_of_false ?_ (Language.notMem_zero word)
    rintro ⟨w, hpath, hacc⟩
    rw [hdead word w hpath] at hacc
    exact Bool.false_ne_true hacc
  · intro hnone word w hpath
    by_contra hacc
    have hmem : word ∈ g.languageFrom v := ⟨w, hpath, Bool.of_not_eq_false hacc⟩
    rw [hnone] at hmem
    exact Language.notMem_zero word hmem

/-- A state is alive if some path leads from it to an accepting one. -/
theorem not_dead_iff :
    ¬g.Dead v ↔ ∃ word w, Path g v word w ∧ (g.node w).isAccepting = true := by
  simp only [Dead, not_forall, Bool.not_eq_false, exists_prop]

end Graph

/-! ## Marks -/

namespace Machine

variable {m : Machine}

/-- The states that are found from the accepting ones backwards are those that lead to them. A state
outside the automaton may lead into it and be noted there, so it is asked that no source lies
outside. -/
theorem mem_ancestors_iff (hm : m.automaton.WellFormed m.graph)
    (hclosed : m.automaton.Closed m.graph) {v : Vertex} (hv : v ∈ m.automaton.states) :
    v ∈ m.graph.ancestors (m.automaton.accepting m.graph) ↔ ¬m.graph.Dead v := by
  rw [not_dead_iff]
  constructor
  · intro hmem
    -- the search stays among the states, where what is noted as a source has the edge
    refine And.right (forall_mem_ancestors (p := fun u => u ∈ m.automaton.states ∧
      ∃ word w, Path m.graph u word w ∧ (m.graph.node w).isAccepting = true) ?_ ?_ v hmem)
    · intro u hu
      obtain ⟨hu, hacc⟩ := OrdSet.mem_filter.1 hu
      exact ⟨hu, [], u, .stay u, hacc⟩
    · rintro u ⟨hu, word, w, hpath, hacc⟩ l x hx
      have hedge := hm.mem_destinations u hu l x hx
      exact ⟨hclosed u hu l x hx, l.word ++ word, w, .edge hedge hpath, hacc⟩
  · rintro ⟨word, w, hpath, hacc⟩
    -- the path is walked forwards, so each state is found after its successor
    induction hpath with
    | stay u => exact mem_ancestors_of_mem (OrdSet.mem_filter.2 ⟨hv, hacc⟩)
    | silent first _ ih =>
      have hnext := ih (hm.target_mem _ hv _ _ first) hacc
      exact mem_ancestors_of_mem_origins hnext (hm.mem_origins _ hv _ _ first)
    | read _ first _ ih =>
      have hnext := ih (hm.target_mem _ hv _ _ first) hacc
      exact mem_ancestors_of_mem_origins hnext (hm.mem_origins _ hv _ _ first)

/-- The traps are the dead states of the automaton. -/
theorem mem_traps_iff (hm : m.automaton.WellFormed m.graph)
    (hclosed : m.automaton.Closed m.graph) {v : Vertex} :
    v ∈ m.traps ↔ v ∈ m.automaton.states ∧ m.graph.Dead v := by
  rw [traps, OrdSet.mem_filter, decide_eq_true_eq, and_congr_right_iff]
  intro hv
  rw [mem_ancestors_iff hm hclosed hv, not_not]

/-- Marking sets one flag of each state of the automaton. -/
theorem node_markTraps (v : Vertex) : m.markTraps.graph.node v =
    if v ∈ m.automaton.states then { m.graph.node v with isTrap := decide (v ∈ m.traps) }
    else m.graph.node v := by
  have hnode : m.markTraps.graph.node v =
      if v ∈ m.automaton.states.toList then { m.graph.node v with isTrap := decide (v ∈ m.traps) }
      else m.graph.node v := node_flagTraps
  simp only [OrdSet.mem_toList] at hnode
  exact hnode

/-- A flag is no edge. -/
theorem sameTables_markTraps (v : Vertex) : m.graph.SameTables m.markTraps.graph v := by
  constructor <;> rw [node_markTraps] <;> split <;> rfl

/-- Marking does not touch the accepting flags. -/
theorem isAccepting_markTraps (v : Vertex) :
    (m.markTraps.graph.node v).isAccepting = (m.graph.node v).isAccepting := by
  rw [node_markTraps]
  split <;> rfl

/-- So the same states are dead afterwards. -/
theorem dead_markTraps (v : Vertex) : m.markTraps.graph.Dead v ↔ m.graph.Dead v := by
  have hsame : m.markTraps.graph.languageFrom v = m.graph.languageFrom v := by
    apply languageFrom_congr (P := fun _ => True)
    · exact fun _ _ _ _ _ => trivial
    · exact fun u _ l => (sameTables_markTraps u).destinations_eq l
    · exact fun u _ => isAccepting_markTraps u
    · trivial
  rw [dead_iff, dead_iff, hsame]

/-- Marking keeps what is asked of the labels of edges, as it keeps the edges. -/
theorem labelled_markTraps (hm : m.automaton.withoutSilent.Labelled m.graph) :
    m.automaton.withoutSilent.Labelled m.markTraps.graph := by
  apply hm.congr sameTables_markTraps
  · intro v
    rw [node_markTraps]
    split <;> rfl
  · intro v
    rw [node_markTraps]
    split <;> rfl

/-- Marking keeps an automaton deterministic. -/
theorem deterministic_markTraps (hd : m.graph.Deterministic m.automaton.states) :
    m.markTraps.graph.Deterministic m.automaton.states :=
  hd.congr (fun _ hv => hv) fun v _ l => (sameTables_markTraps v).destinations_eq l

end Machine

/-! ## Marks and blocks -/

/-- If exactly the dead states are flagged as traps, so are the dead blocks. A block is flagged if
some member is; that member is dead, and all members accept what their block accepts. -/
theorem MadeOfBlocks.isTrap_iff_dead {g h : Graph} {a d : Automaton} {blocks : List VertexSet}
    (hd : MadeOfBlocks g a blocks h d) (ha : a.Labelled g)
    (hmarks : ∀ v ∈ a.states, (g.node v).isTrap = true ↔ g.Dead v) :
    ∀ w ∈ d.states, (h.node w).isTrap = true ↔ h.Dead w := by
  intro w hw
  obtain ⟨i, hi, rfl⟩ := hd.exists_number hw
  have hmember : ∀ v ∈ blocks[i], (g.node v).isTrap = true ↔ h.Dead (g.size + i) := by
    intro v hv
    rw [hmarks v (hd.mem_states_old hi hv), dead_iff, dead_iff, hd.languageFrom_eq ha hi hv]
  rw [hd.isTrap_iff i hi]
  constructor
  · rintro ⟨v, hv, htrap⟩
    exact (hmember v hv).1 htrap
  · intro hdead
    obtain ⟨v, hv⟩ := hd.blocking.inhabited _ (List.getElem_mem hi)
    exact ⟨v, hv, (hmember v hv).2 hdead⟩

/-! ## The edit -/

/-- The dead states of a machine were flagged as traps, and nothing else was done to it. -/
structure Machine.Marks (m : Machine) (traps : VertexSet) (m' : Machine) : Prop where
  mem_traps_iff : ∀ v, v ∈ traps ↔ v ∈ m.automaton.states ∧ m.graph.Dead v
  isTrap_iff : ∀ v ∈ m.automaton.states, (m'.graph.node v).isTrap = true ↔ m.graph.Dead v
  node_eq : ∀ v ∈ m.automaton.states,
    m'.graph.node v = { m.graph.node v with isTrap := (m'.graph.node v).isTrap }
  node_eq_of_not_mem : ∀ v, v ∉ m.automaton.states → m'.graph.node v = m.graph.node v
  automaton_eq : m'.automaton = m.automaton
  log_eq : m'.log = m.log

namespace Edit

/-- Marking flags exactly the dead states as traps and answers with them. What minimizing makes of
a deterministic automaton after that is flagged as rightly. -/
theorem markTraps_exact {m : Machine} (hcheck : m.automaton.violation? m.graph = none)
    (hclosed : ∀ v ∈ m.automaton.states, ∀ l, ∀ u ∈ m.graph.origins v l, u ∈ m.automaton.states)
    (hlive : m.automaton.discarded = false) :
    ∃ traps m', Edit.markTraps m = .ok traps m' ∧ m.Marks traps m' ∧
      (m.automaton.isDeterministic m.graph = true →
        (∀ v ∈ m.automaton.states, ∀ l, ∀ w ∈ m.graph.destinations v l,
          l ∈ m.automaton.alphabet) →
          ∃ d n, Edit.minimize m' = .ok d n ∧
            ∀ w ∈ d.states, (n.graph.node w).isTrap = true ↔ n.graph.Dead w) := by
  have hm := Automaton.violation?_eq_none_iff.1 hcheck
  have htraps := fun v => Machine.mem_traps_iff hm hclosed (v := v)
  have hmarks : ∀ v ∈ m.automaton.states,
      (m.markTraps.graph.node v).isTrap = true ↔ m.graph.Dead v := by
    intro v hv
    rw [Machine.node_markTraps, if_pos hv, decide_eq_true_eq, htraps, and_iff_right hv]
  refine ⟨m.traps, m.markTraps, ?_, ?_, ?_⟩
  · simp only [markTraps, outcome_bind, live_eq_ok hlive, outcome_get, outcome_set, outcome_pure]
  · refine ⟨htraps, hmarks, ?_, ?_, rfl, rfl⟩
    · intro v hv
      rw [Machine.node_markTraps, if_pos hv]
    · intro v hv
      rw [Machine.node_markTraps, if_neg hv]
  · intro hdet hlabel
    have hspoken := Machine.labelled_markTraps (Automaton.labelled_withoutSilent hm hlabel)
    have hd := Machine.deterministic_markTraps (hm.isDeterministic_iff.1 hdet)
    obtain ⟨d, n, hrun, hmade, _⟩ := minimize_withoutSilent (m := m.markTraps) hspoken hd hlive
    refine ⟨d, n, hrun, hmade.isTrap_iff_dead hspoken ?_⟩
    intro v hv
    rw [hmarks v hv, Machine.dead_markTraps]

/-- The last of three states leads nowhere. -/
theorem markTraps_exact_twoSteps :
    twoSteps.automaton.violation? twoSteps.graph = none ∧
      (∀ v ∈ twoSteps.automaton.states, ∀ l, ∀ u ∈ twoSteps.graph.origins v l,
        u ∈ twoSteps.automaton.states) ∧
        twoSteps.automaton.discarded = false ∧ ∃ traps m',
          Edit.markTraps twoSteps = .ok traps m' ∧ twoSteps.Marks traps m' ∧
            ∃ d n, Edit.minimize m' = .ok d n ∧
              ∀ w ∈ d.states, (n.graph.node w).isTrap = true ↔ n.graph.Dead w := by
  have hwf := sound_twoSteps.wellFormed
  have hcheck := Automaton.violation?_eq_none_iff.2 hwf
  have hclosed := sound_twoSteps.closed
  have hdet : twoSteps.automaton.isDeterministic twoSteps.graph = true := by decide
  have hlabel : ∀ v ∈ twoSteps.automaton.states, ∀ l, ∀ w ∈ twoSteps.graph.destinations v l,
      l ∈ twoSteps.automaton.alphabet := fun v hv l w hw =>
    sound_twoSteps.label_mem v hv l w hw ((hwf.isDeterministic_iff.1 hdet).ne_epsilon hv hw)
  obtain ⟨traps, m', hrun, hmarks, hminimal⟩ := markTraps_exact hcheck hclosed rfl
  exact ⟨hcheck, hclosed, rfl, traps, m', hrun, hmarks, hminimal hdet hlabel⟩

end Edit

end PatternAutomata
