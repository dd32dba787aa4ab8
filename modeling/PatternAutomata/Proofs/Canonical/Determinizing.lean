/-
What the subset construction makes.

The subset construction carries out a plan: a state for each listed set and an edge for each
symbol that leads from one to another. A word leads the new automaton to the state made of
the set that it leads to in the old one, so the language is the same, the states are numbered
by the earliest words that reach them, and states that lead to acceptance are made of sets
that do (`determinize_spec`).
-/
import PatternAutomata.Proofs.Canonical.Assembling
import PatternAutomata.Proofs.Canonical.Subsets
import PatternAutomata.Proofs.Words.Acceptance

set_option autoImplicit false

namespace PatternAutomata

open PatternAutomata.Graph

/-! ## The plan

Sets and states made of them go by their numbers, which are those of the sets in the order in which
the search meets them. -/

namespace Graph

variable {g : Graph} {a : Automaton} {items : List (List Label × VertexSet)}

/-- The states made of sets. -/
def subsetNodes (g : Graph) (sets : List VertexSet) : List Node :=
  sets.zipIdx.map fun (vs, i) => .ofSubset g i vs

/-- There is one state for each set. -/
theorem length_subsetNodes (sets : List VertexSet) : (g.subsetNodes sets).length = sets.length := by
  rw [subsetNodes, List.length_map, List.length_zipIdx]

/-- The state with a number is made of the set with that number. -/
theorem getElem_subsetNodes {sets : List VertexSet} {i : Nat} (hi : i < sets.length)
    (hi' : i < (g.subsetNodes sets).length) : (g.subsetNodes sets)[i] = .ofSubset g i sets[i] := by
  simp only [subsetNodes, List.getElem_map, List.getElem_zipIdx, Nat.zero_add]

/-- An edge is made for each symbol that leads from a listed set to another one. The set that is led
to is looked up by the identifiers in it, and is found, because the list is closed under symbols. -/
theorem mem_subsetEdges (hl : Listing g a items) (ha : a.SelfContained g) {e : Edge} :
    e ∈ g.subsetEdges a.alphabet.toList (items.map Prod.snd) ↔
      ∃ i j, ∃ (hi : i < items.length) (hj : j < items.length), e.label ∈ a.alphabet ∧
        g.subsetAfter? items[i].2 e.label = some items[j].2 ∧
        e.source = g.size + i ∧ e.target = g.size + j := by
  -- a set is looked up by its identifiers, and no two listed sets share them
  have hkeys : ∀ j (hj : j < items.length),
      ((items.map Prod.snd).map g.idSet).idxOf (g.idSet items[j].2) = j := by
    intro j hj
    have hnodup : ((items.map Prod.snd).map g.idSet).Nodup := by
      rw [List.map_map]
      exact hl.nodup
    have hj' : j < ((items.map Prod.snd).map g.idSet).length := by
      rwa [List.length_map, List.length_map]
    have hidx := hnodup.idxOf_getElem j hj'
    rwa [List.getElem_map, List.getElem_map] at hidx
  rw [subsetEdges]
  simp only [List.mem_flatMap, List.mem_filterMap, Option.map_eq_some_iff, Prod.exists]
  constructor
  · rintro ⟨vs, i, hmem, l, hmem_l, ws, hws, rfl⟩
    obtain ⟨hi, rfl⟩ : ∃ hi : i < items.length, vs = items[i].2 := by
      have hget := List.mem_zipIdx_iff_getElem?.1 hmem
      rw [List.getElem?_map, Option.map_eq_some_iff] at hget
      obtain ⟨e, he, rfl⟩ := hget
      obtain ⟨hi, heq⟩ := List.getElem?_eq_some_iff.1 he
      exact ⟨hi, congrArg Prod.snd heq.symm⟩
    obtain ⟨j, hj, rfl⟩ := hl.exists_index_after ha hi hmem_l hws
    exact ⟨i, j, hi, hj, hmem_l, hws, rfl, by rw [hkeys j hj]⟩
  · obtain ⟨v, l, w⟩ := e
    rintro ⟨i, j, hi, hj, hmem_l, hafter, rfl, rfl⟩
    refine ⟨items[i].2, i, ?_, l, hmem_l, items[j].2, hafter, by rw [hkeys j hj]⟩
    apply List.mem_zipIdx_iff_getElem?.2
    rw [List.getElem?_map, List.getElem?_eq_getElem hi]
    rfl

end Graph

namespace Machine

variable {g : Graph} {a : Automaton} {items : List (List Label × VertexSet)}

/-- The automaton whose states are all the states made of sets. -/
def subsetAutomaton (g : Graph) (a : Automaton) (sets : List VertexSet) : Automaton :=
  { Automaton.fresh (g.addAll (g.subsetNodes sets)) g.size ∅ a.alphabet a.strict with
    states := OrdSet.ofList ((List.range sets.length).map (g.size + ·)) }

/-- The states of the new automaton are those made of sets. -/
theorem mem_states_subsetAutomaton {sets : List VertexSet} {v : Nat} :
    v ∈ (subsetAutomaton g a sets).states ↔ g.size ≤ v ∧ v < g.size + sets.length := by
  rw [subsetAutomaton, OrdSet.mem_ofList, List.mem_map]
  constructor
  · rintro ⟨i, hi, rfl⟩
    have hlt := List.mem_range.1 hi
    exact ⟨by omega, by omega⟩
  · rintro ⟨hle, hlt⟩
    exact ⟨v - g.size, List.mem_range.2 (by omega), by omega⟩

/-- The alphabet stays, for it does not hold what reads nothing. -/
theorem alphabet_subsetAutomaton (ha : a.SelfContained g) (sets : List VertexSet) :
    (subsetAutomaton g a sets).alphabet = a.alphabet := by
  ext l
  rw [subsetAutomaton, Automaton.fresh, OrdSet.mem_erase, and_iff_left_iff_imp]
  rintro hl rfl
  exact ha.epsilon_not_mem hl

/-- The planned edges of the subset construction. -/
abbrev plannedEdges (g : Graph) (a : Automaton) (items : List (List Label × VertexSet)) :
    List Edge :=
  g.subsetEdges a.alphabet.toList (items.map Prod.snd)

/-- A set leads into one set by each symbol, so no two planned edges disagree. -/
theorem unique_plannedEdges (hl : Listing g a items) (ha : a.SelfContained g) {e d : Edge}
    (he : e ∈ plannedEdges g a items) (hd : d ∈ plannedEdges g a items)
    (hs : e.source = d.source) (hlabel : e.label = d.label) : e.target = d.target := by
  obtain ⟨i, j, hi, hj, _, hafter, hes, het⟩ := (mem_subsetEdges hl ha).1 he
  obtain ⟨i', j', hi', hj', _, hafter', hds, hdt⟩ := (mem_subsetEdges hl ha).1 hd
  obtain rfl : i = i' := Nat.add_left_cancel (hes.symm.trans (hs.trans hds))
  rw [hlabel, hafter', Option.some.injEq] at hafter
  obtain rfl := hl.index_unique hj' hj hafter
  rw [het, hdt]

/-- The states are made without edges. -/
theorem bare_subsetNodes (sets : List VertexSet) :
    ∀ n ∈ g.subsetNodes sets, n.next = ∅ ∧ n.previous = ∅ ∧ n.indegree = 0 := by
  intro n hn
  rw [subsetNodes, List.mem_map] at hn
  obtain ⟨⟨vs, i⟩, _, rfl⟩ := hn
  exact ⟨rfl, rfl, rfl⟩

/-- The subset construction plans a sound automaton: the states are numbered in the order of the
sets, the first one is the start state, and the edges read symbols and lead from set to set. -/
theorem plan_subsets (hl : Listing g a items) (ha : a.SelfContained g) :
    Plan g (g.subsetNodes (items.map Prod.snd)) (subsetAutomaton g a (items.map Prod.snd))
      (plannedEdges g a items) where
  bare := bare_subsetNodes _
  id_eq i hi := by
    have hi' : i < (items.map Prod.snd).length := by rwa [length_subsetNodes] at hi
    rw [getElem_subsetNodes hi' hi]
    rfl
  isStart_iff i hi := by
    have hi' : i < (items.map Prod.snd).length := by rwa [length_subsetNodes] at hi
    rw [getElem_subsetNodes hi' hi]
    show decide (i = 0) = true ↔ g.size + i = g.size
    rw [decide_eq_true_eq]
    omega
  mem_states v := by rw [mem_states_subsetAutomaton, length_subsetNodes]
  start_mem := by
    apply mem_states_subsetAutomaton.2
    have hpos := hl.length_pos
    rw [List.length_map]
    exact ⟨Nat.le_refl _, Nat.lt_add_of_pos_right hpos⟩
  current_mem v hv := by
    have hpos : 0 < (g.subsetNodes (items.map Prod.snd)).length := by
      rw [length_subsetNodes, List.length_map]
      exact hl.length_pos
    -- at the beginning only the start state is current, since no edge is there yet
    have hstart : v = g.size := eq_of_mem_begin (bare_subsetNodes _) hpos hv
    rw [hstart, mem_states_subsetAutomaton, ← length_subsetNodes (g := g)]
    omega
  ends e he := by
    obtain ⟨i, j, hi, hj, _, _, hs, ht⟩ := (mem_subsetEdges hl ha).1 he
    rw [hs, ht, mem_states_subsetAutomaton, mem_states_subsetAutomaton, List.length_map]
    exact ⟨⟨by omega, by omega⟩, ⟨by omega, by omega⟩⟩
  label e he := by
    obtain ⟨_, _, _, _, hmem, _⟩ := (mem_subsetEdges hl ha).1 he
    rw [alphabet_subsetAutomaton ha]
    exact ⟨fun h => ha.epsilon_not_mem (h ▸ hmem), hmem⟩
  epsilon_not_mem := by
    rw [alphabet_subsetAutomaton ha]
    exact ha.epsilon_not_mem

/-- The subset construction carries out its plan, although it lists no state but the first: the
search met each other set by way of an earlier one, so the edge between their states takes it in. -/
theorem determinized_eq {m : Machine} (hl : Listing m.graph m.automaton items)
    (hm : m.automaton.SelfContained m.graph)
    (hsets : items.map Prod.snd =
      m.graph.subsets m.automaton.alphabet.toList (m.graph.closure {m.automaton.start})) :
    m.determinized = ((carryOut m.graph (m.graph.subsetNodes (items.map Prod.snd))
      (subsetAutomaton m.graph m.automaton (items.map Prod.snd))
      (plannedEdges m.graph m.automaton items)).graph,
      subsetAutomaton m.graph m.automaton (items.map Prod.snd)) := by
  have hplan := plan_subsets hl hm
  generalize hg : m.graph = g at *
  generalize hma : m.automaton = a at *
  -- the states need not be listed, for each but the first is the target of an edge
  have hstates : ∀ v : Nat, (v ∈ (subsetAutomaton g a (items.map Prod.snd)).states ∨
        ∃ e ∈ plannedEdges g a items, v = e.source ∨ v = e.target) ↔
      v ∈ (OrdSet.empty.insert g.size : VertexSet) ∨
        ∃ e ∈ plannedEdges g a items, v = e.source ∨ v = e.target := by
    intro v
    rw [OrdSet.mem_insert]
    constructor
    · rintro (hv | hv)
      · obtain ⟨j, hj, rfl⟩ := hplan.exists_number hv
        rw [length_subsetNodes, List.length_map] at hj
        rcases Nat.eq_zero_or_pos j with rfl | hpos
        · exact Or.inl (Or.inl rfl)
        · obtain ⟨i, hi, l, hl_mem, hafter⟩ := hl.exists_index_before hm hj hpos
          exact Or.inr ⟨⟨g.size + i, l, g.size + j⟩, (mem_subsetEdges hl hm).2
            ⟨i, j, hi, hj, hl_mem, hafter, rfl, rfl⟩, Or.inr rfl⟩
      · exact Or.inr hv
    · rintro ((rfl | hv) | hv)
      · exact Or.inl hplan.start_mem
      · exact absurd hv (OrdSet.not_mem_empty v)
      · exact Or.inr hv
  have hmade := @connectAll_onStates
    ⟨g.addAll (g.subsetNodes (items.map Prod.snd)), Automaton.fresh
      (g.addAll (g.subsetNodes (items.map Prod.snd))) g.size ∅ a.alphabet a.strict, #[]⟩
    (plannedEdges g a items) _ hstates
  rw [determinized, hg, hma, ← hsets]
  exact congrArg (fun made : Machine => (made.graph, made.automaton)) hmade.symm |>.trans
    (congrArg (Prod.mk _) hplan.automaton_eq)

end Machine

/-! ## Where words lead -/

/-- A deterministic automaton has a state for each listed set, in a row, and an edge for each
symbol that leads from one set to another. -/
structure MadeOfSets (g : Graph) (a : Automaton) (items : List (List Label × VertexSet))
    (h : Graph) (d : Automaton) : Prop where
  listing : Listing g a items
  sound : d.Sound h
  deterministic : h.Deterministic d.states
  start_eq : d.start = g.size
  mem_states : ∀ v : Nat, v ∈ d.states ↔ g.size ≤ v ∧ v < g.size + items.length
  id_eq : ∀ i < items.length, (h.node (g.size + i)).id = i
  isAccepting_eq : ∀ i (hi : i < items.length),
    (h.node (g.size + i)).isAccepting = g.anyAccepting items[i].2
  isTrap_eq : ∀ v ∈ d.states, (h.node v).isTrap = false
  standsFor_eq : ∀ i (hi : i < items.length), (h.node (g.size + i)).standsFor = items[i].2
  mem_destinations : ∀ i (hi : i < items.length) j (hj : j < items.length) l,
    g.size + j ∈ h.destinations (g.size + i) l ↔
      l ∈ a.alphabet ∧ g.subsetAfter? items[i].2 l = some items[j].2
  node_eq : ∀ v < g.size, h.node v = g.node v
  size_le : g.size ≤ h.size

namespace Machine

variable {g : Graph} {a : Automaton} {items : List (List Label × VertexSet)}

/-- The state at the place of a listed set is the one made of the set, apart from its edges. -/
theorem shell_subset {i : Nat} (hi : i < items.length) {d : Automaton} {es : List Edge} :
    ((carryOut g (g.subsetNodes (items.map Prod.snd)) d es).graph.node (g.size + i)).shell =
      (Node.ofSubset g i items[i].2).shell := by
  have hi' : i < (items.map Prod.snd).length := by rwa [List.length_map]
  have hi'' : i < (g.subsetNodes (items.map Prod.snd)).length := by rwa [length_subsetNodes]
  rw [Plan.shell_eq hi'', getElem_subsetNodes hi' hi'', List.getElem_map]

/-- Carrying out the plan makes an automaton of the listed sets. What is planned for the states and
edges is read off the new graph, and no two planned edges disagree, so it is deterministic. -/
theorem madeOfSets (hl : Listing g a items) (ha : a.SelfContained g) :
    MadeOfSets g a items
      (carryOut g (g.subsetNodes (items.map Prod.snd))
        (subsetAutomaton g a (items.map Prod.snd)) (plannedEdges g a items)).graph
      (subsetAutomaton g a (items.map Prod.snd)) := by
  have hplan := plan_subsets hl ha
  have hlen : (g.subsetNodes (items.map Prod.snd)).length = items.length := by
    rw [length_subsetNodes, List.length_map]
  refine ⟨hl, hplan.sound, ?_, rfl, ?_, ?_, ?_, ?_, ?_, ?_, fun v => hplan.node_eq, ?_⟩
  · exact hplan.deterministic fun _ he _ hd hs hlabel =>
      unique_plannedEdges hl ha he hd hs hlabel
  · intro v
    rw [mem_states_subsetAutomaton, List.length_map]
  · exact fun i hi => id_eq_of_shell_eq (shell_subset hi)
  · exact fun i hi => isAccepting_eq_of_shell_eq (shell_subset hi)
  · intro v hv
    obtain ⟨i, hi, rfl⟩ := hplan.exists_number hv
    exact isTrap_eq_of_shell_eq (shell_subset (by rwa [hlen] at hi))
  · exact fun i hi => standsFor_eq_of_shell_eq (shell_subset hi)
  · intro i hi j hj l
    have hi_mem := hplan.mem_number (i := i) (by rwa [hlen])
    rw [hplan.mem_destinations hi_mem, mem_subsetEdges hl ha]
    constructor
    · rintro ⟨i', j', _, _, hl_mem, hafter, hs, ht⟩
      -- states of different numbers are different, so the edge is the one between these two
      obtain rfl : i = i' := Nat.add_left_cancel hs
      obtain rfl : j = j' := Nat.add_left_cancel ht
      exact ⟨hl_mem, hafter⟩
    · rintro ⟨hl_mem, hafter⟩
      exact ⟨i, j, hi, hj, hl_mem, hafter, rfl, rfl⟩
  · rw [hplan.size_eq]
    exact Nat.le_add_right ..

end Machine

namespace MadeOfSets

variable {g h : Graph} {a d : Automaton} {items : List (List Label × VertexSet)}

/-- Each state of the new automaton is made of a set. -/
theorem exists_number (hd : MadeOfSets g a items h d) {v : Nat} (hv : v ∈ d.states) :
    ∃ i, i < items.length ∧ v = g.size + i :=
  Automaton.exists_place_row hd.mem_states hv

/-- The state made of the first set is where the automaton starts. -/
theorem start_mem (hd : MadeOfSets g a items h d) : g.size ∈ d.states := by
  rw [← hd.start_eq]
  exact hd.sound.start_mem

/-- Only words over the alphabet lead anywhere, and each of them to the state made of the set that
it leads to. By induction on the word, from its end. -/
theorem follows (hd : MadeOfSets g a items h d) {word : List Label} {j : Nat}
    (hj : j < items.length) (hpath : Path h g.size word (g.size + j)) :
    (∀ l ∈ word, l ∈ a.alphabet) ∧ items[j].2 = g.ends {a.start} word := by
  induction word using List.reverseRecOn generalizing j with
  | nil =>
    have hzero : g.size + j = g.size := hd.deterministic.path_nil hd.start_mem hpath
    obtain rfl : j = 0 := by omega
    rw [hd.listing.getElem_zero]
    exact ⟨fun l hl => absurd hl List.not_mem_nil, rfl⟩
  | append_singleton word l ih =>
    obtain ⟨u, hu, _, hw⟩ :=
      (hd.sound.path_append_iff hd.deterministic hd.start_mem).1 hpath
    obtain ⟨i, hi, rfl⟩ := hd.exists_number (hd.sound.path_mem hu hd.start_mem)
    obtain ⟨hl, hafter⟩ := (hd.mem_destinations i hi j hj l).1 hw
    obtain ⟨hword, hset⟩ := ih hi hu
    constructor
    · rw [List.forall_mem_append, List.forall_mem_singleton]
      exact ⟨hword, hl⟩
    · rw [ends_append, ← hset]
      exact (subsetAfter?_eq_some_iff.1 hafter).1

/-- So the set that a state is made of is known from any word that leads to it. -/
theorem eq_ends (hd : MadeOfSets g a items h d) {word : List Label} {j : Nat}
    (hj : j < items.length) (hpath : Path h g.size word (g.size + j)) :
    items[j].2 = g.ends {a.start} word :=
  (hd.follows hj hpath).2

/-- A word over the alphabet that leads anywhere leads to the state made of the set that it leads
to. -/
theorem exists_path (hd : MadeOfSets g a items h d) (ha : a.SelfContained g) {word : List Label}
    (hword : ∀ l ∈ word, l ∈ a.alphabet) (hsome : ∃ v, v ∈ g.ends {a.start} word) :
    ∃ i, i < items.length ∧ Path h g.size word (g.size + i) := by
  -- the set after a word is found from the set after one symbol less
  induction word using List.reverseRecOn with
  | nil => exact ⟨0, hd.listing.length_pos, .stay _⟩
  | append_singleton word l ih =>
    have hne : l ≠ .epsilon := fun h => ha.epsilon_not_mem_word hword (by simp [h])
    rw [List.forall_mem_append, List.forall_mem_singleton] at hword
    obtain ⟨w, hw⟩ := hsome
    rw [ends_append] at hw
    obtain ⟨u, hu, _⟩ := mem_closure_iff.1 hw
    obtain ⟨v, hv, _⟩ := mem_targets.1 hu
    obtain ⟨i, hi, hpath⟩ := ih hword.1 ⟨v, hv⟩
    have hafter : g.subsetAfter? items[i].2 l =
        some (g.closure (g.targets (g.ends {a.start} word) l)) := by
      rw [subsetAfter?_eq_some_iff, hd.eq_ends hi hpath]
      exact ⟨rfl, w, hw⟩
    obtain ⟨j, hj, hj_set⟩ := hd.listing.exists_index_after ha hi hword.2 hafter
    refine ⟨j, hj, hpath.trans (.step hne ?_)⟩
    rw [hd.mem_destinations i hi j hj l, hj_set]
    exact ⟨hword.2, hafter⟩

/-- The states are numbered by the words that the sets are listed with. These are the earliest words
that lead to the sets, and they are listed from the earliest on. -/
theorem numbered (hd : MadeOfSets g a items h d) (ha : a.SelfContained g) :
    d.Numbered h g.size (items.map Prod.fst) where
  start_eq := hd.start_eq
  mem_states v := by rw [hd.mem_states, List.length_map]
  id_eq i hi := by
    rw [List.length_map] at hi
    exact hd.id_eq i hi
  ascending := List.pairwise_map.2 hd.listing.ascending
  path i hi := by
    rw [List.length_map] at hi
    rw [List.getElem_map]
    have hmem := List.getElem_mem hi
    have hreads := hd.listing.reads _ hmem
    obtain ⟨j, hj, hpath⟩ := hd.exists_path ha (hd.listing.word _ hmem)
      (hreads ▸ hd.listing.inhabited _ hmem)
    -- the path leads to a state with the same set, and no set is listed twice
    have hsame : items[j].2 = items[i].2 := (hd.eq_ends hj hpath).trans hreads.symm
    obtain rfl := hd.listing.index_unique hj hi hsame
    exact hpath
  least i hi word hpath := by
    rw [List.length_map] at hi
    rw [List.getElem_map]
    obtain ⟨hword, hset⟩ := hd.follows hi hpath
    -- the set that the word leads to is listed with a word that is not later
    obtain ⟨j, hj, hj_set, hle⟩ := hd.listing.exists_index ha hword
      (hset ▸ hd.listing.inhabited _ (List.getElem_mem hi))
    obtain rfl := hd.listing.index_unique hj hi (hj_set.trans hset.symm)
    exact hle

/-- The words are the same: a set accepts if one of its states does, and a word that leads to
acceptance leads to a state that accepts. -/
theorem language_eq (hd : MadeOfSets g a items h d) (ha : a.Sound g) :
    d.language h = a.language g := by
  ext word
  constructor
  · rintro ⟨u, hpath, hacc⟩
    rw [hd.start_eq] at hpath
    obtain ⟨j, hj, rfl⟩ := hd.exists_number (hd.sound.path_mem hpath hd.start_mem)
    rw [hd.isAccepting_eq j hj, hd.eq_ends hj hpath] at hacc
    exact (mem_languageFrom_iff hpath.epsilon_not_mem).2 hacc
  · intro hmem
    have hword := ha.labelled.mem_alphabet hmem
    -- a word that is accepted is over the alphabet, and leads somewhere
    have hacc := (mem_languageFrom_iff (ha.selfContained.epsilon_not_mem_word hword)).1 hmem
    obtain ⟨u, hu, _⟩ := anyAccepting_iff.1 hacc
    obtain ⟨j, hj, hpath⟩ := hd.exists_path ha.selfContained hword ⟨u, hu⟩
    rw [← hd.eq_ends hj hpath, ← hd.isAccepting_eq j hj] at hacc
    refine ⟨g.size + j, ?_, hacc⟩
    rw [hd.start_eq]
    exact hpath

/-- If every state leads to acceptance, so does every set of states, for no empty set is listed. -/
theorem alive (hd : MadeOfSets g a items h d) (ha : a.Sound g)
    (halive : ∀ v ∈ a.states, ∃ word, word ∈ g.languageFrom v) :
    ∀ v ∈ d.states, ∃ word, word ∈ h.languageFrom v := by
  intro v hv
  obtain ⟨i, hi, rfl⟩ := hd.exists_number hv
  have hmem := List.getElem_mem hi
  obtain ⟨u, hu⟩ := hd.listing.inhabited _ hmem
  obtain ⟨rest, hrest⟩ := halive u (hd.listing.sub ha.selfContained hmem u hu)
  have hpath : Path h g.size items[i].1 (g.size + i) := by
    have hnumbered := (hd.numbered ha.selfContained).path i (by rwa [List.length_map])
    rwa [List.getElem_map] at hnumbered
  refine ⟨rest, ?_⟩
  -- the word of the set goes on to acceptance in the old automaton, and so in the new one
  rw [hd.sound.languageFrom_eq hd.deterministic hd.start_mem hpath, Language.mem_leftQuotient,
    ← hd.start_eq]
  show items[i].1 ++ rest ∈ d.language h
  rw [hd.language_eq ha]
  rw [hd.listing.reads _ hmem, mem_ends_singleton_iff
    (ha.selfContained.epsilon_not_mem_word (hd.listing.word _ hmem))] at hu
  exact append_mem_languageFrom hu hrest

end MadeOfSets

/-! ## The edit -/

/-- The subset construction makes a deterministic automaton for the same words, whose states
are numbered by the earliest words that reach them. What was there before stays. -/
theorem Edit.determinize_spec {m : Machine} (hm : m.automaton.SelfContained m.graph)
    (hlive : m.automaton.discarded = false) : ∃ d m' items,
      Edit.determinize m = .ok d m' ∧ MadeOfSets m.graph m.automaton items m'.graph d ∧
        m'.automaton = m.automaton ∧ d.alphabet = m.automaton.alphabet ∧
        d.strict = m.automaton.strict ∧ d.discarded = false := by
  have hl := listing_subsetWords m.graph m.automaton
  have hmade := Machine.madeOfSets hl hm
  have heq := Machine.determinized_eq hl hm (map_subsetWords ..)
  have halphabet := Machine.alphabet_subsetAutomaton hm
    ((m.graph.subsetWords m.automaton.alphabet.toList
      (m.graph.closure {m.automaton.start})).map Prod.snd)
  have hstrict : (Machine.subsetAutomaton m.graph m.automaton
    ((m.graph.subsetWords m.automaton.alphabet.toList
      (m.graph.closure {m.automaton.start})).map Prod.snd)).strict = m.automaton.strict := rfl
  have hdiscarded : (Machine.subsetAutomaton m.graph m.automaton
    ((m.graph.subsetWords m.automaton.alphabet.toList
      (m.graph.closure {m.automaton.start})).map Prod.snd)).discarded = false := rfl
  generalize (Machine.carryOut m.graph _ _ _).graph = h at *
  generalize Machine.subsetAutomaton m.graph m.automaton _ = d at *
  refine ⟨d, { m with graph := h }.note (.determinized m.automaton.states.size d.states.size), _,
    ?_, hmade, rfl, halphabet, hstrict, hdiscarded⟩
  simp only [determinize, outcome_bind, live_eq_ok hlive, outcome_get, heq]
  rfl

/-- Determinizing any machine is refused, or answers with the automaton of the subset construction,
in its graph. The automaton of the machine is left as it is. It is refused only if it was
discarded. -/
theorem Edit.determinize_cases (m : Machine) :
    (∃ f, Edit.determinize m = .error f m) ∨
      ∃ m', Edit.determinize m = .ok m.determinized.2 m' ∧ m'.graph = m.determinized.1 ∧
        m'.automaton = m.automaton := by
  cases hlive : m.automaton.discarded with
  | true =>
    refine Or.inl ⟨.spent .determinize, ?_⟩
    simp only [determinize, outcome_bind, live_eq_error hlive]
  | false =>
    refine Or.inr ⟨{ m with graph := m.determinized.1 }.note
      (.determinized m.automaton.states.size m.determinized.2.states.size), ?_, rfl, rfl⟩
    simp only [determinize, outcome_bind, live_eq_ok hlive, outcome_get, outcome_set,
      outcome_pure]

/-- Determinizing leaves any machine with its automaton, and with the states that were there. -/
theorem Edit.spares_determinize (m : Machine) : m.Spares (leftBy (Edit.determinize m)) := by
  rcases determinize_cases m with ⟨f, hfail⟩ | ⟨m', hmade, hgraph, hautomaton⟩
  · rw [hfail]
    exact .of_graph_eq rfl rfl
  · rw [hmade]
    refine .of_assembled hautomaton hgraph ?_
    -- an edge is between the places of two sets, which come after all places that were there
    intro e he
    obtain ⟨⟨vs, i⟩, _, he⟩ := List.mem_flatMap.1 he
    obtain ⟨l, _, he⟩ := List.mem_filterMap.1 he
    obtain ⟨ws, _, rfl⟩ := Option.map_eq_some_iff.1 he
    exact ⟨Nat.le_add_right .., Nat.le_add_right ..⟩

end PatternAutomata
