/-
The subset construction in step with its input.

An automaton and the deterministic one that is made of it read the same words side by side:
after every word over the alphabet, either both are nowhere, or the deterministic one is in
the state that stands for the set of states that the other one may be in (`Machine.InStep`).

Nothing is asked of the input but that it passes the check and has no silent symbol in its
alphabet. Its states need not be reachable, its edges may read symbols outside the alphabet,
and a state of another automaton may lead into it. What the start state leads to lies in
filled places all the same, since both ends of an edge know of it, so new states do not get
in the way (`Automaton.WellFormed.ends_eq`).
-/
import PatternAutomata.Proofs.Canonical.Determinizing

set_option autoImplicit false

namespace PatternAutomata

open PatternAutomata.Graph

/-! ## Beside new states -/

/-- The state is one of the automaton, in a filled place of the graph. -/
def Automaton.Within (g : Graph) (a : Automaton) (v : Vertex) : Prop := v ∈ a.states ∧ v < g.size

namespace Automaton.WellFormed

variable {g h : Graph} {a : Automaton}

/-- The start state is flagged as one, so its place is filled. -/
theorem start_lt (ha : a.WellFormed g) : a.start < g.size := by
  have hflag := (ha.isStart_iff a.start ha.start_mem).2 rfl
  apply Nat.lt_of_not_le
  intro hle
  rw [node_eq_blank hle] at hflag
  cases hflag

/-- An edge is noted at its target, so the target is a filled place. -/
theorem target_lt (ha : a.WellFormed g) {v w : Vertex} {l : Label} (hv : v ∈ a.states)
    (hw : w ∈ g.destinations v l) : w < g.size := by
  have hnoted := ha.mem_origins v hv l w hw
  apply Nat.lt_of_not_le
  intro hle
  rw [origins, node_eq_blank hle] at hnoted
  exact OrdSet.not_mem_empty v hnoted

/-- The start state is in a filled place. -/
theorem within_start (ha : a.WellFormed g) : a.Within g a.start := ⟨ha.start_mem, ha.start_lt⟩

/-- So is the target of each edge. -/
theorem within_target (ha : a.WellFormed g) {v w : Vertex} {l : Label} (hv : a.Within g v)
    (hw : w ∈ g.destinations v l) : a.Within g w :=
  ⟨ha.target_mem v hv.1 l w hw, ha.target_lt hv.1 hw⟩

/-- Words lead to filled places, by way of filled places only. -/
theorem ends_lt (ha : a.WellFormed g) {word : List Label} (hword : .epsilon ∉ word) :
    ∀ v ∈ g.ends {a.start} word, v < g.size := by
  intro w hw
  have hpath := (mem_ends_singleton_iff hword).1 hw
  have hend := hpath.preserves (p := a.Within g) ha.within_start
    fun _ hv _ _ hw => ha.within_target hv hw
  exact hend.2

/-- Words lead where they led while the filled places stay as they are, since all that is met on the
way lies in filled places. -/
theorem ends_eq (ha : a.WellFormed g) (node_eq : ∀ v < g.size, h.node v = g.node v)
    {word : List Label} (hword : .epsilon ∉ word) :
    h.ends {a.start} word = g.ends {a.start} word := by
  have hsame : ∀ v, a.Within g v → ∀ l, h.destinations v l = g.destinations v l := by
    intro v hv l
    rw [destinations, node_eq v hv.2, destinations]
  have hclosed : ∀ v, a.Within g v → ∀ l, ∀ w ∈ h.destinations v l, a.Within g w := by
    intro v hv l w hw
    rw [hsame v hv] at hw
    exact ha.within_target hv hw
  ext w
  rw [mem_ends_singleton_iff hword, mem_ends_singleton_iff hword]
  constructor
  · exact fun hpath => hpath.congr hclosed (fun v hv l => (hsame v hv l).symm) ha.within_start
  · exact fun hpath => hpath.congr (fun _ hv _ _ hw => ha.within_target hv hw) hsame ha.within_start

/-- So they are accepted as they were. -/
theorem anyAccepting_ends (ha : a.WellFormed g) (node_eq : ∀ v < g.size, h.node v = g.node v)
    {word : List Label} (hword : .epsilon ∉ word) :
    h.anyAccepting (g.ends {a.start} word) = g.anyAccepting (g.ends {a.start} word) := by
  rw [Bool.eq_iff_iff, anyAccepting_iff, anyAccepting_iff]
  constructor
  · rintro ⟨v, hv, hacc⟩
    rw [node_eq v (ha.ends_lt hword v hv)] at hacc
    exact ⟨v, hv, hacc⟩
  · rintro ⟨v, hv, hacc⟩
    rw [← node_eq v (ha.ends_lt hword v hv)] at hacc
    exact ⟨v, hv, hacc⟩

end Automaton.WellFormed

/-! ## In step -/

/-- Both machines are nowhere, or the second one is in the one state that stands for the states
of the first one, and accepts there if the first one does. -/
def Machine.InStep (m m' : Machine) : Prop :=
  m.automaton.run.current = ∅ ∧ m'.automaton.run.current = ∅ ∨
    ∃ v, m'.automaton.run.current = {v} ∧
      (m'.graph.node v).standsFor = m.automaton.run.current ∧
      (m'.graph.node v).isAccepting = m.isAccepting

namespace MadeOfSets

variable {g h : Graph} {a d : Automaton} {items : List (List Label × VertexSet)}

/-- The states are those that the start state leads to: each set is listed with a word that leads to
it. -/
theorem states_eq_reachable_start (hd : MadeOfSets g a items h d) (ha : a.SelfContained g) :
    d.states = h.reachable d.start := by
  ext v
  rw [mem_reachable_iff]
  constructor
  · intro hv
    obtain ⟨i, hi, rfl⟩ := hd.exists_number hv
    rw [hd.start_eq]
    exact ⟨_, (hd.numbered ha).path i (by rwa [List.length_map])⟩
  · rintro ⟨word, hpath⟩
    exact hd.sound.path_mem hpath hd.sound.start_mem

/-- The identifiers are the numbers from zero on, in the order of the places. -/
theorem ids_eq (hd : MadeOfSets g a items h d) (ha : a.SelfContained g) :
    h.ids d.states = (List.range d.states.size).map Int.ofNat := by
  have hn := hd.numbered ha
  rw [ids, hn.inOrder_states, Automaton.size_row hn.mem_states, List.map_map]
  apply List.map_congr_left
  intro i hi
  exact hn.id_eq i (List.mem_range.1 hi)

/-- No empty set is listed, so each state stands for some old one. -/
theorem standsFor_ne_empty (hd : MadeOfSets g a items h d) :
    ∀ v ∈ d.states, (h.node v).standsFor ≠ ∅ := by
  intro v hv hempty
  obtain ⟨i, hi, rfl⟩ := hd.exists_number hv
  obtain ⟨u, hu⟩ := hd.listing.inhabited _ (List.getElem_mem hi)
  rw [← hd.standsFor_eq i hi, hempty] at hu
  exact OrdSet.not_mem_empty u hu

/-- No two states stand for the same set. -/
theorem standsFor_injective (hd : MadeOfSets g a items h d) : ∀ v ∈ d.states, ∀ w ∈ d.states,
    (h.node v).standsFor = (h.node w).standsFor → v = w := by
  intro v hv w hw heq
  obtain ⟨i, hi, rfl⟩ := hd.exists_number hv
  obtain ⟨j, hj, rfl⟩ := hd.exists_number hw
  rw [hd.standsFor_eq i hi, hd.standsFor_eq j hj] at heq
  rw [hd.listing.index_unique hi hj heq]

/-- A word over the alphabet leads to the one state made of the set that it leads to, and nowhere
if that set is empty. -/
theorem ends_eq (hd : MadeOfSets g a items h d) (ha : a.SelfContained g) {word : List Label}
    (hword : ∀ l ∈ word, l ∈ a.alphabet) :
    g.ends {a.start} word = ∅ ∧ h.ends {d.start} word = ∅ ∨
      ∃ i, ∃ hi : i < items.length, h.ends {d.start} word = {g.size + i} ∧
        items[i].2 = g.ends {a.start} word := by
  have hends : ∀ w, w ∈ h.ends {d.start} word ↔ Path h g.size word w := by
    intro w
    rw [mem_ends_singleton_iff (ha.epsilon_not_mem_word hword), hd.start_eq]
  by_cases hsome : ∃ v, v ∈ g.ends {a.start} word
  · obtain ⟨i, hi, hpath⟩ := hd.exists_path ha hword hsome
    refine Or.inr ⟨i, hi, ?_, hd.eq_ends hi hpath⟩
    ext w
    rw [hends, OrdSet.mem_singleton]
    constructor
    · exact fun hw => hd.sound.path_unique hd.deterministic hd.start_mem hw hpath
    · rintro rfl
      exact hpath
  · refine Or.inl ⟨OrdSet.eq_empty_iff.2 (not_exists.1 hsome), ?_⟩
    rw [OrdSet.eq_empty_iff]
    intro w hw
    rw [hends] at hw
    -- a state that is reached stands for a set that is not empty
    obtain ⟨i, hi, rfl⟩ := hd.exists_number (hd.sound.path_mem hw hd.start_mem)
    rw [← hd.eq_ends hi hw] at hsome
    exact hsome (hd.listing.inhabited _ (List.getElem_mem hi))

end MadeOfSets

/-! ## The edit -/

/-- An automaton was made of a machine by the subset construction: the machine is left as it was,
the new automaton is deterministic, passes the check and has no more states than it needs, and
the two read in step. -/
structure Machine.Determinizes (m m' : Machine) (d : Automaton) : Prop where
  automaton_eq : m'.automaton = m.automaton
  node_eq : ∀ v < m.graph.size, m'.graph.node v = m.graph.node v
  isDeterministic : d.isDeterministic m'.graph = true
  violation?_eq : d.violation? m'.graph = none
  ids_eq : m'.graph.ids d.states = (List.range d.states.size).map Int.ofNat
  states_eq : d.states = m'.graph.reachable d.start
  alphabet_eq : d.alphabet = m.automaton.alphabet
  strict_eq : d.strict = m.automaton.strict
  standsFor_ne_empty : ∀ v ∈ d.states, (m'.graph.node v).standsFor ≠ ∅
  standsFor_injective : ∀ v ∈ d.states, ∀ w ∈ d.states,
    (m'.graph.node v).standsFor = (m'.graph.node w).standsFor → v = w
  inStep : ∀ word, (∀ l ∈ word, l ∈ m.automaton.alphabet) → ∃ m₁ m₂,
    (do Edit.reset; Edit.read word : Edit Unit) m' = .ok () m₁ ∧
      (do Edit.reset; Edit.read word : Edit Unit) { m' with automaton := d } = .ok () m₂ ∧
        m₁.InStep m₂

/-- Where two machines of one graph are after a word says whether they are in step. The old
automaton may be in the states that the word leads to, and the new one is in the state made of
these. -/
theorem MadeOfSets.inStep {m m' : Machine} {d : Automaton}
    {items : List (List Label × VertexSet)}
    (hd : MadeOfSets m.graph m.automaton items m'.graph d)
    (hm : m.automaton.WellFormed m.graph) (hkept : m'.automaton = m.automaton)
    (halphabet : d.alphabet = m.automaton.alphabet) (hepsilon : .epsilon ∉ m.automaton.alphabet)
    {word : List Label} (hword : ∀ l ∈ word, l ∈ m.automaton.alphabet) :
    (m'.reset.advanceAll word).InStep
      (Machine.advanceAll ({ m' with automaton := d } : Machine).reset word) := by
  have hself := hm.selfContained hepsilon
  have hplain := hself.epsilon_not_mem_word hword
  -- the old states are where they were, so the old automaton reads as before
  have hold : (m'.reset.advanceAll word).automaton.run.current =
      m.graph.ends {m.automaton.start} word := by
    rw [Machine.current_advanceAll_reset (by rwa [hkept]), hkept]
    exact hm.ends_eq hd.node_eq hplain
  have hnew : (Machine.advanceAll ({ m' with automaton := d } : Machine).reset
      word).automaton.run.current = m'.graph.ends {d.start} word :=
    Machine.current_advanceAll_reset (m := { m' with automaton := d }) (by rwa [halphabet])
  rw [Machine.InStep, Machine.isAccepting, hold, hnew, Machine.graph_advanceAll,
    Machine.graph_advanceAll]
  rcases hd.ends_eq hself hword with hnowhere | ⟨i, hi, hstate, hset⟩
  · exact Or.inl hnowhere
  · have hacc : (m'.graph.node (m.graph.size + i)).isAccepting =
        m'.graph.anyAccepting (m.graph.ends {m.automaton.start} word) := by
      rw [hd.isAccepting_eq i hi, hset, hm.anyAccepting_ends hd.node_eq hplain]
    exact Or.inr ⟨_, hstate, (hd.standsFor_eq i hi).trans hset, hacc⟩

namespace Edit

/-- The subset construction makes a deterministic automaton that reads in step with its input. -/
theorem determinize_lockstep {m : Machine} (hcheck : m.automaton.violation? m.graph = none)
    (hepsilon : .epsilon ∉ m.automaton.alphabet) (hlive : m.automaton.discarded = false) :
    ∃ d m', Edit.determinize m = .ok d m' ∧ m.Determinizes m' d := by
  have hwf := Automaton.violation?_eq_none_iff.1 hcheck
  have hself := hwf.selfContained hepsilon
  obtain ⟨d, m', items, hrun, hmade, hkept, halphabet, hstrict, hdiscarded⟩ :=
    determinize_spec hself hlive
  refine ⟨d, m', hrun, ?_⟩
  constructor
  · exact hkept
  · exact hmade.node_eq
  · exact hmade.sound.isDeterministic hmade.deterministic
  · exact Automaton.violation?_eq_none_iff.2 hmade.sound.wellFormed
  · exact hmade.ids_eq hself
  · exact hmade.states_eq_reachable_start hself
  · exact halphabet
  · exact hstrict
  · exact hmade.standsFor_ne_empty
  · exact hmade.standsFor_injective
  · intro word hword
    have hold := reset_read_eq (m := m') (by rwa [hkept]) (by rwa [hkept] : ∀ l ∈ word, _)
    have hnew := reset_read_eq (m := { m' with automaton := d }) hdiscarded
      (by rwa [halphabet] : ∀ l ∈ word, _)
    exact ⟨_, _, hold, hnew, hmade.inStep hwf hkept halphabet hepsilon hword⟩

/-- Silent edges may go round, identifiers may descend, and a state may be out of reach. -/
theorem determinize_lockstep_silentRound :
    silentRound.automaton.violation? silentRound.graph = none ∧
      .epsilon ∉ silentRound.automaton.alphabet ∧ silentRound.automaton.discarded = false ∧
        ∃ d m', Edit.determinize silentRound = .ok d m' ∧ silentRound.Determinizes m' d := by
  have hcheck := Automaton.violation?_eq_none_iff.2 sound_silentRound.wellFormed
  have hepsilon := sound_silentRound.epsilon_not_mem
  exact ⟨hcheck, hepsilon, rfl, determinize_lockstep hcheck hepsilon rfl⟩

end Edit

end PatternAutomata
