/-
Disconnecting undoes connecting.

Where an edge was not there before, adding it and taking it away again leaves every table and every
count as it was, and no entry without states (`Graph.node_unlink_link`). What is left to see is what
the collecting takes that follows. The graph is the old one, so a target that was a state before is
reached as it was, and then nothing goes (`Machine.collect_of_reached`). A target that was taken in
by the edge has no other edges, and it goes alone (`Machine.collect_unconnected`).

So all is as it was, except that the alphabet may have grown (`Edit.disconnect_connect`), and except
for one thing: a state that goes is no current state afterwards, also if it was noted as one before
it was taken in.
-/
import Mathlib
import PatternAutomata.Proofs.Structure.Collected
import PatternAutomata.Proofs.Structure.Runs

set_option autoImplicit false

namespace PatternAutomata

namespace Table

/-- A state that is noted and struck out again leaves a table as it was. If the label had no entry
before, the entry goes with the state, and for that no entry may be empty. -/
theorem strike_note {t : Table} {l : Label} {v : Vertex} (hnew : v ∉ t.under l)
    (hentry : t.get? l ≠ some ∅) : (t.note l v).strike l v = t := by
  have hunder : ((t.note l v).under l).erase v = t.under l := by
    rw [under_note, if_pos rfl]
    ext w
    rw [OrdSet.mem_erase, OrdSet.mem_insert]
    constructor
    · rintro ⟨rfl | hw, hne⟩
      · exact absurd rfl hne
      · exact hw
    · intro hw
      refine ⟨Or.inr hw, ?_⟩
      rintro rfl
      exact hnew hw
  apply OrdMap.ext_get?
  intro k
  unfold strike
  dsimp only
  rw [hunder]
  by_cases hk : k = l
  · rw [hk]
    -- an entry of its own goes with the state, an older one keeps its other states
    cases hget : t.get? l with
    | none =>
      have hnone : t.under l = ∅ := by
        rw [under, hget]
        rfl
      rw [hnone, if_pos (OrdSet.isEmpty_iff_eq.2 rfl), OrdMap.get?_erase, if_pos rfl]
    | some vs =>
      have hsome : t.under l = vs := by
        rw [under, hget]
        rfl
      have hne : ¬vs.isEmpty = true := fun he =>
        hentry (hget.trans (congrArg some (OrdSet.isEmpty_iff_eq.1 he)))
      rw [hsome, if_neg hne, OrdMap.get?_insert, if_pos rfl]
  · split
    · rw [OrdMap.get?_erase, if_neg hk, note, OrdMap.get?_insert, if_neg hk]
    · rw [OrdMap.get?_insert, if_neg hk, note, OrdMap.get?_insert, if_neg hk]

end Table

namespace Graph

variable {g h : Graph} {S : VertexSet}

/-- A state with the same tables and the same count, and the same in all else, is the same. -/
theorem SameTables.node_eq {v : Vertex} (same : g.SameTables h v)
    (hshell : (h.node v).shell = (g.node v).shell) : h.node v = g.node v := by
  have hwhole : ∀ n : Node, n = { n.shell with
      next := n.next, previous := n.previous, indegree := n.indegree } := fun _ => rfl
  rw [hwhole (h.node v), hwhole (g.node v), hshell, same.next_eq, same.previous_eq,
    same.indegree_eq]

/-- An edge that was not there before leaves nothing behind when it is taken away again. At each of
its ends one table was written and struck, and at the target the count has gone up and down. -/
theorem node_unlink_link (hc : g.Consistent S) {e : Edge} (hs : e.source ∈ S)
    (ht : e.target ∈ S) (hnew : e.target ∉ g.destinations e.source e.label) (v : Vertex) :
    ((g.link e).unlink e).node v = g.node v := by
  have hnoted : e.source ∉ g.origins e.target e.label := fun h =>
    hnew ((hc.mirror _ hs _ ht _).1 h)
  have hedge : g.hasEdge e = false := by
    rw [hasEdge, decide_eq_false_iff_not]
    exact hnew
  apply SameTables.node_eq
  · constructor
    · rw [next_unlink, next_link]
      by_cases hv : v = e.source
      · rw [if_pos hv, if_pos hv, hv]
        exact Table.strike_note hnew (hc.next_ne_empty _ hs _)
      · rw [if_neg hv, if_neg hv]
    · rw [previous_unlink, previous_link]
      by_cases hv : v = e.target
      · rw [if_pos hv, if_pos hv, hv]
        exact Table.strike_note hnoted (hc.previous_ne_empty _ ht _)
      · rw [if_neg hv, if_neg hv]
    · rw [indegree_unlink, indegree_link]
      by_cases hv : v = e.target
      · rw [if_pos hv, if_pos ⟨hv, hedge⟩]
        omega
      · rw [if_neg hv, if_neg fun h => hv h.1]
  · rw [shell_unlink, shell_link]

/-- An edge that was just added can be cut: it is there, and it is noted. -/
theorem cut_link (e : Edge) : (g.link e).cut e = .ok () ((g.link e).unlink e) := by
  have hedge : (g.link e).hasEdge e = true := hasEdge_iff.2 (mem_destinations_link.2 (Or.inr rfl))
  have hnoted : e.source ∈ (g.link e).origins e.target e.label :=
    mem_origins_link.2 (Or.inr rfl)
  rw [cut, if_pos hedge, if_pos (Table.contains_of_mem_under hnoted)]

/-- Reaching is a matter of the edges alone. -/
theorem reachable_congr (same : ∀ v l, h.destinations v l = g.destinations v l) (s : Vertex) :
    h.reachable s = g.reachable s := by
  ext v
  constructor
  · exact reachable_mono fun u l w hw => same u l ▸ hw
  · exact reachable_mono fun u l w hw => (same u l).symm ▸ hw

end Graph

namespace Machine

variable {m : Machine} {v : Vertex}

/-! ## What is collected -/

/-- Where a state is reached, collecting it changes nothing, since nothing hangs together with
it. -/
theorem collect_of_reached (hm : m.automaton.WellFormed m.graph ∧ m.automaton.Closed m.graph)
    (hv : v ∈ m.graph.reachable m.automaton.start) : m.collect v = .ok [] m := by
  obtain ⟨gone, m', hrun, _, hmem⟩ := exists_collect hm v
  have hnone : gone = [] := by
    apply List.eq_nil_iff_forall_not_mem.2
    intro w hw
    exact ((hmem w).1 hw).candidate_stranded.2 hv
  rw [hrun, (automaton_collect hrun).2 hnone, hnone]

/-- A state without edges that is no start goes alone. This is computed from the walk itself, for
the automaton may not pass the check at that moment. -/
theorem collect_unconnected (hv : v ∈ m.automaton.states) (hbare : m.graph.Unconnected v)
    (hstart : (m.graph.node v).isStart = false) :
    ∃ m', m.collect v = .ok [v] m' ∧ m'.graph = m.graph := by
  have hgone : m.graph.doomedBy v = {v} := by rw [Graph.doomedBy, if_pos hbare.indegree_eq]
  have horder : m.graph.inOrder {v} = [v] :=
    Automaton.eq_singleton_of_nodup (m.graph.nodup_inOrder {v}) fun w =>
      m.graph.mem_inOrder.trans OrdSet.mem_singleton
  have hedges : m.graph.edgesFrom [v] = [] := by
    apply List.eq_nil_iff_forall_not_mem.2
    rintro ⟨u, l, w⟩ he
    obtain ⟨hu, hw⟩ := Graph.mem_edgesFrom.1 he
    rw [List.mem_singleton.1 hu, hbare.destinations_eq] at hw
    exact OrdSet.not_mem_empty w hw
  have hcandidate : m.isCandidate v = true ∧ v ∈ m.graph.doomedBy v := by
    rw [hgone, isCandidate, hstart, decide_eq_true hv]
    exact ⟨rfl, OrdSet.mem_singleton.2 rfl⟩
  -- it leads to nothing that could go next, so one round is all
  have hround : m.collectFrom [v] [] =
      .ok [v] { m with automaton := m.automaton.without {v} } := by
    rw [collectFrom.eq_def]
    dsimp only
    rw [if_pos hcandidate, hgone, horder, hedges, Graph.cutAll]
    dsimp only
    rw [List.map_nil, List.filter_nil, List.reverse_nil, List.nil_append, List.nil_append,
      collectFrom]
  rw [collect, hround]
  exact ⟨_, rfl, rfl⟩

/-! ## An edge that is taken away again -/

variable {e : Edge}

/-- The machine where an edge was added and cut, before anything is collected. -/
def uncollected (m : Machine) (e : Edge) : Machine :=
  { m.connect e with graph := (m.graph.link e).unlink e }

/-- At that point the graph is the old one with the edge added and taken away. -/
theorem graph_uncollected (m : Machine) (e : Edge) :
    (m.uncollected e).graph = (m.graph.link e).unlink e := by rw [uncollected]

/-- The automaton is still that with the edge, its target and its symbol. -/
theorem automaton_uncollected (m : Machine) (e : Edge) :
    (m.uncollected e).automaton = (m.connect e).automaton := by rw [uncollected]

/-- Disconnecting the edge that was just added is collecting its target from there. -/
theorem disconnect_connect_eq (m : Machine) (e : Edge) :
    (m.connect e).disconnect e = (m.uncollected e).collect e.target := by
  rw [disconnect, graph_connect, Graph.cut_link, uncollected]

/-- Between two states of the automaton, nothing goes with the edge: the target is reached as it was
before. -/
theorem collect_uncollected_of_mem
    (hm : m.automaton.WellFormed m.graph ∧ m.automaton.Closed m.graph)
    (hnode : ∀ v, (m.uncollected e).graph.node v = m.graph.node v)
    (hs : e.source ∈ m.automaton.states) (ht : e.target ∈ m.automaton.states)
    (hreach : e.target ∈ m.graph.reachable m.automaton.start) :
    (m.uncollected e).collect e.target = .ok [] (m.uncollected e) := by
  have hstart : (m.uncollected e).automaton.start = m.automaton.start := by
    rw [automaton_uncollected, connect]
  have hstates : (m.uncollected e).automaton.states = m.automaton.states := by
    rw [automaton_uncollected, states_connect hs ht]
  have hedges : ∀ v l, (m.uncollected e).graph.destinations v l = m.graph.destinations v l := by
    intro v l
    rw [Graph.destinations, hnode, Graph.destinations]
  apply collect_of_reached
  · exact Automaton.wellFormed_closed_congr hm hstart hstates hnode
  · rw [hstart, Graph.reachable_congr hedges]
    exact hreach

/-- What is left after an edge between two states, or from a state to one from outside that has no
edges and no start flag, was added and taken away again. In both cases every place of the graph is
as it was, and only in the second one a state goes. -/
theorem exists_collect_uncollected
    (hm : m.automaton.WellFormed m.graph ∧ m.automaton.Closed m.graph)
    (hall : ∀ v ∈ m.automaton.states, v ∈ m.graph.reachable m.automaton.start)
    (hs : e.source ∈ m.automaton.states)
    (ht : e.target ∈ m.automaton.states ∨
      m.graph.Unconnected e.target ∧ (m.graph.node e.target).isStart = false)
    (hnew : e.target ∉ m.graph.destinations e.source e.label) :
    ∃ m', (m.uncollected e).collect e.target =
        .ok (if e.target ∈ m.automaton.states then [] else [e.target]) m' ∧
      ∀ v, m'.graph.node v = m.graph.node v := by
  have hcons := hm.1.consistent hm.2
  by_cases htmem : e.target ∈ m.automaton.states
  · have hnode : ∀ v, (m.uncollected e).graph.node v = m.graph.node v := by
      rw [graph_uncollected]
      exact Graph.node_unlink_link hcons hs htmem hnew
    rw [if_pos htmem]
    exact ⟨_, collect_uncollected_of_mem hm hnode hs htmem (hall _ htmem), hnode⟩
  · obtain ⟨hbare, hstart⟩ := ht.resolve_left htmem
    -- without edges the target can be counted among the states before it is one
    have hnode : ∀ v, (m.uncollected e).graph.node v = m.graph.node v := by
      rw [graph_uncollected]
      exact Graph.node_unlink_link (hcons.insert hbare) (OrdSet.mem_insert.2 (Or.inr hs))
        (OrdSet.mem_insert.2 (Or.inl rfl)) hnew
    have hin : e.target ∈ (m.uncollected e).automaton.states := by
      rw [automaton_uncollected]
      exact mem_states_connect.2 (Or.inr (Or.inr rfl))
    have hbare' := Graph.SameTables.unconnected (.of_node_eq (hnode e.target)) hbare
    have hstart' : ((m.uncollected e).graph.node e.target).isStart = false := by
      rw [hnode, hstart]
    obtain ⟨m', hcollect, hgraph⟩ := collect_unconnected hin hbare' hstart'
    rw [if_neg htmem]
    refine ⟨m', hcollect, fun v => ?_⟩
    rw [hgraph, hnode]

/-- The automaton has the states that it had before. Its symbols may be more, as no symbol is ever
taken away, and its current states may be fewer. -/
theorem automaton_uncollected_without (hs : e.source ∈ m.automaton.states) :
    (m.uncollected e).automaton.without
        (.ofList (if e.target ∈ m.automaton.states then [] else [e.target])) =
      { m.automaton with
        alphabet := if e.label = .epsilon then m.automaton.alphabet
          else m.automaton.alphabet.insert e.label
        run := { m.automaton.run with
          current := m.automaton.run.current \
            .ofList (if e.target ∈ m.automaton.states then [] else [e.target]) } } := by
  -- the target is a state as before, or the one that came with the edge goes with it
  have hstates : (m.connect e).automaton.states \
      .ofList (if e.target ∈ m.automaton.states then [] else [e.target]) =
        m.automaton.states := by
    ext v
    rw [OrdSet.mem_sdiff, mem_states_connect, OrdSet.mem_ofList]
    by_cases htmem : e.target ∈ m.automaton.states
    · rw [if_pos htmem]
      constructor
      · rintro ⟨hv | rfl | rfl, _⟩
        · exact hv
        · exact hs
        · exact htmem
      · exact fun hv => ⟨Or.inl hv, List.not_mem_nil⟩
    · rw [if_neg htmem, List.mem_singleton]
      constructor
      · rintro ⟨hv | rfl | rfl, hne⟩
        · exact hv
        · exact hs
        · exact absurd rfl hne
      · intro hv
        refine ⟨Or.inl hv, ?_⟩
        rintro rfl
        exact htmem hv
  rw [Automaton.without, automaton_uncollected, hstates, connect]

end Machine

namespace Edit

variable {m : Machine} {e : Edge}

/-- Connecting two states and disconnecting them again restores all states, with their tables and
counts, and the automaton but for its alphabet, where every state is reached and the edge was not
there before. A target from outside, which has no edges, no start flag and no identifier in use, is
all that goes; then it is not among the current states afterwards, which are otherwise as before. -/
theorem disconnect_connect (check : m.automaton.violation? m.graph = none)
    (closed : m.automaton.Closed m.graph) (hlive : m.automaton.discarded = false)
    (hall : ∀ v ∈ m.automaton.states, v ∈ m.graph.reachable m.automaton.start)
    (hsource : e.source ∈ m.automaton.states)
    (htarget : e.target ∈ m.automaton.states ∨
      m.graph.Unconnected e.target ∧ (m.graph.node e.target).isStart = false ∧
        ∀ u ∈ m.automaton.states, (m.graph.node u).id ≠ (m.graph.node e.target).id)
    (hnew : e.target ∉ m.graph.destinations e.source e.label) :
    ∃ m₁ gone m', Edit.connect e m = .ok () m₁ ∧ Edit.disconnect e m₁ = .ok gone m' ∧
      gone = (if e.target ∈ m.automaton.states then [] else [e.target]) ∧
      (∀ v, m'.graph.node v = m.graph.node v) ∧
      m'.automaton = { m.automaton with
        alphabet := if e.label = .epsilon then m.automaton.alphabet
          else m.automaton.alphabet.insert e.label
        run := { m.automaton.run with current := m.automaton.run.current \ .ofList gone } } ∧
      (e.target ∈ m.automaton.states ∨ e.target ∉ m.automaton.run.current →
        m'.automaton.run = m.automaton.run) := by
  have hm := And.intro (Automaton.violation?_eq_none_iff.1 check) closed
  have hplain := htarget.imp_right fun h => And.intro h.1 h.2.1
  obtain ⟨m', hcollect, hnode⟩ := Machine.exists_collect_uncollected hm hall hsource hplain hnew
  have hautomaton := (Machine.automaton_collect hcollect).1
  rw [Machine.automaton_uncollected_without hsource] at hautomaton
  have hdisconnect : Edit.disconnect e (m.connect e) =
      .ok (if e.target ∈ m.automaton.states then [] else [e.target]) m' := by
    have hlive' : (m.connect e).automaton.discarded = false := hlive
    simp only [Edit.disconnect, outcome_bind_fun, live_eq_ok hlive',
      Machine.disconnect_connect_eq, hcollect]
  have hconnect : Edit.connect e m = .ok () (m.connect e) := by
    simp only [Edit.connect, outcome_bind, live_eq_ok hlive, outcome_modify]
  refine ⟨_, _, m', hconnect, hdisconnect, rfl, hnode, hautomaton, ?_⟩
  intro hcurrent
  -- whatever goes was no current state
  have hsame : m.automaton.run.current \
      .ofList (if e.target ∈ m.automaton.states then [] else [e.target]) =
        m.automaton.run.current := by
    ext v
    rw [OrdSet.mem_sdiff, OrdSet.mem_ofList]
    refine ⟨And.left, fun hv => ⟨hv, ?_⟩⟩
    split
    · exact List.not_mem_nil
    · next htmem =>
      rw [List.mem_singleton]
      rintro rfl
      exact hcurrent.resolve_left htmem hv
  rw [hautomaton, hsame]

/-- An edge to a state from outside comes and goes with that state, and an edge from the start state
to itself by itself. -/
theorem disconnect_connect_loneStart :
    loneStart.automaton.violation? loneStart.graph = none ∧
      loneStart.automaton.Closed loneStart.graph ∧
        (∃ m₁ m', Edit.connect ⟨0, .symbol "a", 1⟩ loneStart = .ok () m₁ ∧
          Edit.disconnect ⟨0, .symbol "a", 1⟩ m₁ = .ok [1] m' ∧
            ∀ v, m'.graph.node v = loneStart.graph.node v) ∧
        ∃ m₁ m', Edit.connect ⟨0, .symbol "a", 0⟩ loneStart = .ok () m₁ ∧
          Edit.disconnect ⟨0, .symbol "a", 0⟩ m₁ = .ok [] m' ∧
            ∀ v, m'.graph.node v = loneStart.graph.node v := by
  have hcheck := Automaton.violation?_eq_none_iff.2 sound_loneStart.wellFormed
  have hall : ∀ v ∈ loneStart.automaton.states,
      v ∈ loneStart.graph.reachable loneStart.automaton.start := by
    intro v hv
    rw [OrdSet.mem_singleton.1 hv]
    exact loneStart.graph.self_mem_reachable 0
  have hfresh := fresh_loneStart
  refine ⟨hcheck, sound_loneStart.closed, ?_, ?_⟩
  · obtain ⟨m₁, gone, m', hconnect, hdisconnect, hgone, hnode, _⟩ :=
      disconnect_connect (e := ⟨0, .symbol "a", 1⟩) hcheck sound_loneStart.closed rfl hall
        (by decide) (Or.inr ⟨hfresh.unconnected, hfresh.isStart_eq, hfresh.id_ne⟩) (by decide)
    rw [hgone] at hdisconnect
    exact ⟨m₁, m', hconnect, hdisconnect, hnode⟩
  · obtain ⟨m₁, gone, m', hconnect, hdisconnect, hgone, hnode, _⟩ :=
      disconnect_connect (e := ⟨0, .symbol "a", 0⟩) hcheck sound_loneStart.closed rfl hall
        (by decide) (Or.inl (by decide)) (by decide)
    rw [hgone] at hdisconnect
    exact ⟨m₁, m', hconnect, hdisconnect, hnode⟩

/-- A start state alone, and a state from outside that is noted as a current one. -/
def halfForgotten : Machine where
  graph := ⟨#[{ id := 0, isStart := true }, { id := 1 }]⟩
  automaton := { start := 0, states := {0}, alphabet := ∅, run := { current := .ofList [0, 1] } }

/-- The current states need not be as before: a state from outside can be one of them, and it goes
when the edge to it is taken away. -/
theorem not_current_restored : ¬∀ (m : Machine) (e : Edge),
    m.automaton.violation? m.graph = none → m.automaton.Closed m.graph →
      m.automaton.discarded = false →
      (∀ v ∈ m.automaton.states, v ∈ m.graph.reachable m.automaton.start) →
      e.source ∈ m.automaton.states →
      (e.target ∈ m.automaton.states ∨
        m.graph.Unconnected e.target ∧ (m.graph.node e.target).isStart = false ∧
          ∀ u ∈ m.automaton.states, (m.graph.node u).id ≠ (m.graph.node e.target).id) →
      e.target ∉ m.graph.destinations e.source e.label →
      ∃ m₁ gone m', Edit.connect e m = .ok () m₁ ∧ Edit.disconnect e m₁ = .ok gone m' ∧
        m'.automaton.run.current = m.automaton.run.current := by
  intro hall
  have hzero : ∀ v ∈ halfForgotten.automaton.states, v = 0 := fun v hv => OrdSet.mem_singleton.1 hv
  have hcheck : halfForgotten.automaton.violation? halfForgotten.graph = none := by cbv
  have hclosed : halfForgotten.automaton.Closed halfForgotten.graph := by
    intro v hv l u hu
    rw [hzero v hv] at hu
    exact absurd hu (OrdSet.not_mem_empty u)
  have hreached : ∀ v ∈ halfForgotten.automaton.states,
      v ∈ halfForgotten.graph.reachable halfForgotten.automaton.start := by
    intro v hv
    rw [hzero v hv]
    exact halfForgotten.graph.self_mem_reachable 0
  have hids : ∀ u ∈ halfForgotten.automaton.states,
      (halfForgotten.graph.node u).id ≠ (halfForgotten.graph.node 1).id := by
    intro u hu
    rw [hzero u hu]
    decide
  -- the edge leads to the state from outside, which is a current state already
  obtain ⟨m₁, gone, m', hconnect, hdisconnect, hcurrent⟩ :=
    hall halfForgotten ⟨0, .symbol "a", 1⟩ hcheck hclosed rfl hreached (by decide)
      (Or.inr ⟨⟨rfl, rfl, rfl⟩, rfl, hids⟩) (by decide)
  have hleft : (leftBy (Edit.disconnect ⟨0, .symbol "a", 1⟩ (leftBy
      (Edit.connect ⟨0, .symbol "a", 1⟩ halfForgotten)))).automaton.run.current = {0} := by cbv
  rw [hconnect, leftBy, hdisconnect, leftBy, hcurrent] at hleft
  exact absurd hleft (by decide)

end Edit

end PatternAutomata
