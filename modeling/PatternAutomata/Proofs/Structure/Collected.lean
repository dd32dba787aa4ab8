/-
What collecting takes out of any automaton that passes the check.

Collecting a state takes out the stranded states that hang together with it, each of them once
(`Machine.exists_collect`). The automaton that is left differs in this alone: it passes the check,
its states have their flags and the edges out of them as before, and each of them counts fewer
edges by just those that came from what went; at what went there is no edge left
(`Machine.Collects`). This is known of settled automata and carries over to all others. That the
automaton loses these states and nothing else is seen from the walk itself, whatever the graph
looks like (`Machine.automaton_collectFrom`).

If all states are reached before an edge is cut, then a state that is stranded afterwards is
reached from the target of the edge, through stranded states. So all stranded states hang together
with this target, and collecting it leaves the states that are reached without the edge
(`Edit.collects_exactly`).
-/
import Mathlib
import PatternAutomata.Proofs.Renaming.Settling
import PatternAutomata.Proofs.Structure.Outcomes
import PatternAutomata.Proofs.Structure.Stranded

set_option autoImplicit false

namespace PatternAutomata

/-! ## Counting what went -/

namespace Graph

variable {g h : Graph} {S T : VertexSet}

/-- The edges out of a state are those of its table in another order. -/
theorem outEdges_perm (g : Graph) (v : Vertex) : (g.outEdges v).Perm (g.node v).next.pairs := by
  apply List.Perm.flatMap_left _
  rintro ⟨l, vs⟩ _
  exact (List.mergeSort_perm ..).map _

/-- The edges out of different states are different edges. -/
theorem nodup_edgesFrom {vs : List Vertex} (hvs : vs.Nodup) : (g.edgesFrom vs).Nodup := by
  apply List.nodup_flatMap.2
  constructor
  · intro v _
    apply ((g.outEdges_perm v).nodup_iff.2 (Table.nodup_pairs _)).map
    rintro ⟨k, u⟩ ⟨l, w⟩ heq
    obtain ⟨_, rfl, rfl⟩ := Edge.mk.inj heq
    rfl
  · apply hvs.imp
    intro v w hne e hv hw
    obtain ⟨_, _, rfl⟩ := List.mem_map.1 hv
    obtain ⟨_, _, heq⟩ := List.mem_map.1 hw
    exact hne (Edge.mk.inj heq).1.symm

/-- What is noted at a state for the edges from some states. -/
def notedFor (g : Graph) (vs : List Vertex) (v : Vertex) : List (Label × Vertex) :=
  ((g.edgesFrom vs).filter fun e => e.target = v).map fun e => (e.label, e.source)

/-- What is noted for some states are the edges from them. -/
theorem mem_notedFor {vs : List Vertex} {u v : Vertex} {l : Label} :
    (l, u) ∈ g.notedFor vs v ↔ u ∈ vs ∧ v ∈ g.destinations u l := by
  rw [notedFor, List.mem_map]
  constructor
  · rintro ⟨⟨_, _, w⟩, he, heq⟩
    obtain ⟨rfl, rfl⟩ := Prod.mk.inj heq
    obtain ⟨hedge, hw⟩ := List.mem_filter.1 he
    rw [show w = v from of_decide_eq_true hw] at hedge
    exact mem_edgesFrom.1 hedge
  · intro hu
    exact ⟨⟨u, l, v⟩, List.mem_filter.2 ⟨mem_edgesFrom.2 hu, decide_eq_true rfl⟩, rfl⟩

/-- Nothing is noted twice. -/
theorem nodup_notedFor {vs : List Vertex} (hvs : vs.Nodup) (v : Vertex) :
    (g.notedFor vs v).Nodup := by
  apply List.Nodup.map_on ?_ ((nodup_edgesFrom hvs).filter _)
  rintro ⟨u, l, w⟩ he ⟨u', l', w'⟩ he' heq
  obtain ⟨rfl, rfl⟩ := Prod.mk.inj heq
  have hw := of_decide_eq_true (List.mem_filter.1 he).2
  have hw' := of_decide_eq_true (List.mem_filter.1 he').2
  rw [show w = v from hw, show w' = v from hw']

/-- The count of the edges that came from some states, read at the edges and at the target. -/
theorem length_notedFor (vs : List Vertex) (v : Vertex) :
    (g.notedFor vs v).length = (g.edgesFrom vs).countP fun e => e.target = v := by
  rw [notedFor, List.length_map, List.countP_eq_length_filter]

/-- Where some states go and the others keep the edges out of them, each of the others counts fewer
edges by those that came from the states that went. What was noted before is what is noted now and
what was noted for the states that went. -/
theorem indegree_eq_add (hg : g.Consistent S) (hh : h.Consistent T) {gone : List Vertex}
    (hnodup : gone.Nodup) (hgone : ∀ v ∈ gone, v ∈ S) (hT : ∀ v, v ∈ T ↔ v ∈ S ∧ v ∉ gone)
    (hkept : ∀ v ∈ T, ∀ l, h.destinations v l = g.destinations v l) {v : Vertex} (hv : v ∈ T) :
    (g.node v).indegree =
      (h.node v).indegree + (g.edgesFrom gone).countP fun e => e.target = v := by
  have hvS : v ∈ S := ((hT v).1 hv).1
  -- before and after, the pairs at a state are the edges from the states of that time
  have hold : ∀ l u, (l, u) ∈ (g.node v).previous.pairs ↔ u ∈ S ∧ v ∈ g.destinations u l := by
    intro l u
    rw [Table.mem_pairs]
    exact hg.mem_origins_iff hvS
  have hnew : ∀ l u, (l, u) ∈ (h.node v).previous.pairs ↔ u ∈ T ∧ v ∈ g.destinations u l := by
    intro l u
    rw [Table.mem_pairs]
    refine (hh.mem_origins_iff hv).trans (and_congr_right fun hu => ?_)
    rw [hkept u hu]
  have hperm : (g.node v).previous.pairs.Perm
      ((h.node v).previous.pairs ++ g.notedFor gone v) := by
    apply (List.perm_ext_iff_of_nodup (Table.nodup_pairs _) ?_).2
    · rintro ⟨l, u⟩
      rw [List.mem_append, hold, hnew, mem_notedFor, hT]
      have := hgone u
      tauto
    · refine List.nodup_append.2 ⟨Table.nodup_pairs _, nodup_notedFor hnodup v, ?_⟩
      rintro ⟨l, u⟩ hu _ hu' rfl
      exact ((hT u).1 ((hnew l u).1 hu).1).2 (mem_notedFor.1 hu').1
  rw [hg.indegree_eq v hvS, hh.indegree_eq v hv, hperm.length_eq, List.length_append,
    length_notedFor, Int.natCast_add]

end Graph

/-! ## The automaton itself -/

namespace Automaton

/-- Taking out nothing leaves an automaton as it is, its current states included. -/
theorem without_nil (a : Automaton) : a.without (.ofList []) = a := by
  have hnone : ∀ S : VertexSet, S \ .ofList [] = S := by
    intro S
    ext v
    rw [OrdSet.mem_sdiff, OrdSet.mem_ofList]
    exact ⟨And.left, fun hv => ⟨hv, List.not_mem_nil⟩⟩
  rw [without, hnone, hnone]

/-- States that are taken out one round after the other are taken out. The rounds of a walk add up
to one removal. -/
theorem without_without (a : Automaton) {g : Graph} (gone : VertexSet) (fresh : List Vertex) :
    (a.without gone).without (.ofList fresh) = a.without (.ofList (g.inOrder gone ++ fresh)) := by
  have hboth : ∀ S : VertexSet,
      (S \ gone) \ .ofList fresh = S \ .ofList (g.inOrder gone ++ fresh) := by
    intro S
    ext v
    simp only [OrdSet.mem_sdiff, OrdSet.mem_ofList, List.mem_append, g.mem_inOrder, not_or,
      and_assoc]
  simp only [without, hboth]

end Automaton

namespace Machine

variable {m m' : Machine}

/-- However the graph looks, a walk takes the states that it answers with out of the automaton and
changes nothing else about it; if there are none, it changes nothing at all. No structure is asked
for, because a failure is excluded by the hypothesis that the walk succeeds. -/
theorem automaton_collectFrom {candidates removed gone : List Vertex}
    (hcollect : m.collectFrom candidates removed = .ok gone m') :
    ∃ fresh, gone = removed ++ fresh ∧ m'.automaton = m.automaton.without (.ofList fresh) ∧
      (fresh = [] → m' = m) := by
  fun_induction collectFrom m candidates removed with
  | case1 m removed =>
    cases hcollect
    exact ⟨[], (List.append_nil _).symm, (Automaton.without_nil _).symm, fun _ => rfl⟩
  | case2 => cases hcollect
  | case3 m removed v rest doomed h order edges u g hcut next ih =>
    obtain ⟨fresh, hgone, hautomaton, _⟩ := ih hcollect
    refine ⟨order ++ fresh, ?_, ?_, ?_⟩
    · rw [hgone, List.append_assoc]
    · rw [hautomaton, Automaton.without_without]
    · -- the candidate is among the states of the round
      intro hnone
      have hv : v ∈ order := m.graph.mem_inOrder.2 h.2
      rw [(List.append_eq_nil_iff.1 hnone).1] at hv
      exact absurd hv List.not_mem_nil
  | case4 m removed v rest doomed h ih => exact ih hcollect

/-- The same for one candidate. What is noted of it is noted only if something has gone. -/
theorem automaton_collect {s : Vertex} {gone : List Vertex}
    (hcollect : m.collect s = .ok gone m') :
    m'.automaton = m.automaton.without (.ofList gone) ∧ (gone = [] → m' = m) := by
  rw [collect] at hcollect
  split at hcollect
  · next removed k hfrom =>
    cases hcollect
    obtain ⟨fresh, rfl, hautomaton, hsame⟩ := automaton_collectFrom hfrom
    cases gone with
    | nil => exact ⟨hautomaton, fun _ => hsame rfl⟩
    | cons v vs => exact ⟨hautomaton, fun h => absurd h (List.cons_ne_nil v vs)⟩
  · cases hcollect

/-! ## Collecting a state -/

/-- What is left after some states are collected. -/
structure Collects (m : Machine) (gone : List Vertex) (m' : Machine) : Prop where
  nodup : gone.Nodup
  gone_sub : ∀ v ∈ gone, v ∈ m.automaton.states
  automaton_eq : m'.automaton = m.automaton.without (.ofList gone)
  violation?_eq : m'.automaton.violation? m'.graph = none
  closed : m'.automaton.Closed m'.graph
  shell_eq : ∀ v, (m'.graph.node v).shell = (m.graph.node v).shell
  destinations_eq : ∀ v ∈ m'.automaton.states, ∀ l,
    m'.graph.destinations v l = m.graph.destinations v l
  indegree_eq : ∀ v ∈ m'.automaton.states, (m.graph.node v).indegree =
    (m'.graph.node v).indegree + (m.graph.edgesFrom gone).countP fun e => e.target = v
  unconnected : ∀ v ∈ gone, m'.graph.Unconnected v
  node_eq : ∀ v, v ∉ m.automaton.states → m'.graph.node v = m.graph.node v

/-- With one candidate, what goes is what hangs together with it, and nothing else. -/
theorem sheds_collect (hm : m.automaton.Framed m.graph) (s : Vertex) :
    ∃ m' gone, m.collect s = .ok gone m' ∧ m.Sheds gone m' ∧
      ∀ v, v ∈ gone ↔ m.automaton.DriftsWith m.graph s v := by
  obtain ⟨m', gone, hcollect, hsheds, hmem⟩ := sheds_collectFrom hm [s] []
  rw [List.nil_append] at hcollect
  have hone : ∀ v, v ∈ gone ↔ m.automaton.DriftsWith m.graph s v := by
    intro v
    rw [hmem]
    constructor
    · rintro ⟨c, hc, hv⟩
      rwa [List.mem_singleton.1 hc] at hv
    · intro hv
      exact ⟨s, List.mem_singleton.2 rfl, hv⟩
  rw [collect, hcollect]
  refine ⟨_, gone, rfl, ?_, hone⟩
  -- an event in the log changes nothing that is looked at
  split
  · exact hsheds
  · exact { hsheds with }

/-- What hangs together is a matter of the start state, the states and what these hold. So it is the
same in the settled automaton, about which everything else is known. -/
theorem driftsWith_settled {s v : Vertex} :
    m.settled.automaton.DriftsWith m.settled.graph s v ↔
      m.automaton.DriftsWith m.graph s v := by
  have hedge : ∀ u l, m.settled.graph.destinations u l = m.graph.destinations u l := by
    intro u l
    rw [Graph.destinations, Graph.destinations, settled, Graph.node_fill]
  have hjoined : ∀ u w, m.settled.graph.Joined u w ↔ m.graph.Joined u w := by
    intro u w
    simp only [Graph.Joined, hedge]
  have hstranded : ∀ u, m.settled.automaton.Stranded m.settled.graph u ↔
      m.automaton.Stranded m.graph u := by
    intro u
    apply and_congr_right'
    apply not_congr
    constructor
    · exact Graph.reachable_mono fun x l y hy => hedge x l ▸ hy
    · exact Graph.reachable_mono fun x l y hy => hedge x l ▸ hy
  constructor
  · exact Automaton.DriftsWith.mono (fun u w _ _ => (hjoined u w).1) fun u => (hstranded u).1
  · exact Automaton.DriftsWith.mono (fun u w _ _ => (hjoined u w).2) fun u => (hstranded u).2

/-- Collecting a state of any automaton that passes the check takes out what hangs together with it.
The walk is known for settled automata; that the two walks take the same steps is `mirrors_settled`,
and each part of the statement is carried back along it. -/
theorem exists_collect (hm : m.automaton.WellFormed m.graph ∧ m.automaton.Closed m.graph)
    (s : Vertex) :
    ∃ gone m', m.collect s = .ok gone m' ∧ m.Collects gone m' ∧
      ∀ v, v ∈ gone ↔ m.automaton.DriftsWith m.graph s v := by
  have hsound := sound_settled hm
  obtain ⟨n, gone, hrun, hsheds, hmem⟩ := sheds_collect hsound.framed s
  obtain ⟨m', hrun', hmirrors⟩ := m.mirrors_settled.collect hrun
  rw [List.map_id] at hrun'
  obtain ⟨hautomaton, _⟩ := automaton_collect hrun'
  -- the renaming is the identity, so places, states and contents are the same
  have hnode : ∀ v, m'.graph.node v = n.graph.node v := fun v =>
    (hmirrors.graph.node_eq v).trans (Graph.rename_id _)
  have hnode₀ : ∀ v, m.settled.graph.node v = m.graph.node v := Graph.node_fill _
  have hstates : m'.automaton.states = n.automaton.states :=
    hmirrors.states_eq.trans (OrdSet.image_id _)
  have hafter := Automaton.wellFormed_closed_congr
    (And.intro (hsheds.prunes hsound).sound.wellFormed (hsheds.prunes hsound).sound.closed)
    hmirrors.start_eq hstates hnode
  have hkept : ∀ v ∈ m'.automaton.states, ∀ l,
      m'.graph.destinations v l = m.graph.destinations v l := by
    intro v hv l
    rw [hstates] at hv
    have hold := hsheds.destinations_eq v hv l
    simp only [Graph.destinations, hnode₀] at hold
    rw [Graph.destinations, hnode, hold, Graph.destinations]
  refine ⟨gone, m', hrun', ?_, fun v => (hmem v).trans driftsWith_settled⟩
  exact {
    nodup := hsheds.nodup
    gone_sub := hsheds.gone_sub
    automaton_eq := hautomaton
    violation?_eq := Automaton.violation?_eq_none_iff.2 hafter.1
    closed := hafter.2
    shell_eq := fun v => by rw [hnode, hsheds.shell_eq, hnode₀]
    destinations_eq := hkept
    indegree_eq := by
      intro v hv
      refine Graph.indegree_eq_add (hm.1.consistent hm.2) (hafter.1.consistent hafter.2)
        hsheds.nodup hsheds.gone_sub ?_ hkept hv
      intro u
      rw [hstates]
      exact hsheds.mem_states_iff u
    unconnected := fun v hv =>
      Graph.SameTables.unconnected (.of_node_eq (hnode v)) (hsheds.unconnected v hv)
    node_eq := fun v hv => by rw [hnode, hsheds.node_eq v hv, hnode₀] }

/-! ## Cutting an edge -/

/-- An automaton that passes the check passes it in every graph in which its states have the same
flags and identifiers and tables that agree. -/
theorem wellFormed_closed_of_shell
    (hm : m.automaton.WellFormed m.graph ∧ m.automaton.Closed m.graph) {g : Graph}
    (hcons : g.Consistent m.automaton.states)
    (hshell : ∀ v, (g.node v).shell = (m.graph.node v).shell) :
    m.automaton.WellFormed g ∧ m.automaton.Closed g := by
  obtain ⟨hstart, hflag, hid, _⟩ := Automaton.wellFormed_closed_iff.1 hm
  refine Automaton.wellFormed_closed_iff.2 ⟨hstart, ?_, ?_, hcons⟩
  · intro v hv
    rw [Graph.isStart_eq_of_shell_eq (hshell v)]
    exact hflag v hv
  · intro v hv w hw heq
    rw [Graph.id_eq_of_shell_eq (hshell v), Graph.id_eq_of_shell_eq (hshell w)] at heq
    exact hid v hv w hw heq

/-- An edge can be cut if it is noted at its target, and nothing but the edge is missing afterwards.
The edge may be one outside of the automaton, where nothing else is known of it. -/
theorem exists_cut (hm : m.automaton.WellFormed m.graph ∧ m.automaton.Closed m.graph) {e : Edge}
    (hnoted : e.target ∈ m.graph.destinations e.source e.label →
      e.source ∈ m.graph.origins e.target e.label) :
    ∃ g, m.graph.cut e = .ok () g ∧ (m.automaton.WellFormed g ∧ m.automaton.Closed g) ∧
      (∀ v l w, w ∈ g.destinations v l ↔
        w ∈ m.graph.destinations v l ∧ (⟨v, l, w⟩ : Edge) ≠ e) ∧
      ∀ v, (g.node v).shell = (m.graph.node v).shell := by
  have hcons := hm.1.consistent hm.2
  by_cases hs : e.source ∈ m.automaton.states
  · obtain ⟨g, hcut, hcons', hdest, hshell, _⟩ := Graph.cut_spec hcons hs
    exact ⟨g, hcut, wellFormed_closed_of_shell hm hcons' hshell, hdest, hshell⟩
  rw [Graph.cut]
  by_cases hedge : m.graph.hasEdge e = true
  · -- neither end of the edge is a state of the automaton
    have hnote := hnoted (Graph.hasEdge_iff.1 hedge)
    have ht : e.target ∉ m.automaton.states := fun ht => hs (hcons.source_mem _ ht _ _ hnote)
    have hsame : ∀ v ∈ m.automaton.states, (m.graph.unlink e).node v = m.graph.node v := by
      intro v hv
      apply Graph.node_unlink_of_ne
      · exact fun heq => hs (heq ▸ hv)
      · exact fun heq => ht (heq ▸ hv)
    have hcons' := hcons.congr fun v hv => .of_node_eq (hsame v hv)
    rw [if_pos hedge, if_pos (Table.contains_of_mem_under hnote)]
    exact ⟨_, rfl, wellFormed_closed_of_shell hm hcons' (Graph.shell_unlink e),
      fun v l w => Graph.mem_destinations_unlink, Graph.shell_unlink e⟩
  · rw [if_neg hedge]
    -- an edge that is not there needs no cutting
    refine ⟨m.graph, rfl, hm, ?_, fun _ => rfl⟩
    intro v l w
    refine ⟨fun hw => ⟨hw, ?_⟩, And.left⟩
    rintro rfl
    exact hedge (Graph.hasEdge_iff.2 hw)

/-- Where everything is reached, what is stranded without an edge hangs together with its target. By
induction on what was reached: a state is still reached, or its way led across the edge and from
then on through stranded states. -/
theorem driftsWith_of_cut (hm : m.automaton.WellFormed m.graph)
    (hall : ∀ v ∈ m.automaton.states, v ∈ m.graph.reachable m.automaton.start) {e : Edge}
    {g : Graph} (hdest : ∀ v l w, w ∈ g.destinations v l ↔
      w ∈ m.graph.destinations v l ∧ (⟨v, l, w⟩ : Edge) ≠ e) {v : Vertex}
    (hv : m.automaton.Stranded g v) : m.automaton.DriftsWith g e.target v := by
  have hreach : ∀ u ∈ m.graph.reachable m.automaton.start, u ∈ m.automaton.states ∧
      (u ∈ g.reachable m.automaton.start ∨ m.automaton.DriftsWith g e.target u) := by
    apply Graph.forall_mem_reachable (p := fun u => u ∈ m.automaton.states ∧
      (u ∈ g.reachable m.automaton.start ∨ m.automaton.DriftsWith g e.target u))
    · exact ⟨hm.start_mem, Or.inl (g.self_mem_reachable _)⟩
    · rintro u ⟨hu, hor⟩ l w hw
      have hwmem := hm.target_mem u hu l w hw
      refine ⟨hwmem, ?_⟩
      by_cases hwreach : w ∈ g.reachable m.automaton.start
      · exact Or.inl hwreach
      · right
        by_cases hedge : (⟨u, l, w⟩ : Edge) = e
        · have htarget : e.target = w := (congrArg Edge.target hedge).symm
          rw [htarget]
          exact .self ⟨hwmem, hwreach⟩
        · -- the edge is still there, so its source was not reached either
          have hw' := (hdest u l w).2 ⟨hw, hedge⟩
          have hdrifts := hor.resolve_left fun hureach =>
            hwreach (Graph.mem_reachable_of_mem_destinations hureach hw')
          exact hdrifts.step (Or.inl ⟨l, hw'⟩) ⟨hwmem, hwreach⟩
  exact (hreach v (hall v hv.1)).2.resolve_left hv.2

end Machine

/-! ## The edits -/

/-- Three states of which the start state reaches only itself: the second one leads to itself and
to the start state, and the third one leads to the second. -/
def twoAdrift : Machine :=
  threeBare.connectAll [⟨1, .symbol "a", 1⟩, ⟨1, .symbol "a", 0⟩, ⟨2, .symbol "b", 1⟩]

/-- Adding the edges between the three states keeps them sound. -/
theorem sound_twoAdrift : twoAdrift.automaton.Sound twoAdrift.graph :=
  sound_threeBare.connectAll (by decide)

namespace Edit

/-- Collecting a state takes out what hangs together with it, which is nothing if the state is not
stranded. Where everything is reached, disconnecting two states leaves what is reached without the
edge; the edge must be noted at its target, which every edge out of a state of the automaton
is. -/
theorem collects_exactly {m : Machine} (check : m.automaton.violation? m.graph = none)
    (closed : m.automaton.Closed m.graph) (hlive : m.automaton.discarded = false) :
    (∀ s, ∃ gone m', Edit.collect s m = .ok gone m' ∧ m.Collects gone m' ∧
        (∀ v, v ∈ gone ↔ m.automaton.DriftsWith m.graph s v) ∧
        (s ∉ m.automaton.states ∨ s ∈ m.graph.reachable m.automaton.start →
          gone = [] ∧ m' = m)) ∧
      ((∀ v ∈ m.automaton.states, v ∈ m.graph.reachable m.automaton.start) →
        ∀ e : Edge, (e.target ∈ m.graph.destinations e.source e.label →
            e.source ∈ m.graph.origins e.target e.label) →
          ∃ g gone m', m.graph.cut e = .ok () g ∧
            (∀ v l w, w ∈ g.destinations v l ↔
              w ∈ m.graph.destinations v l ∧ (⟨v, l, w⟩ : Edge) ≠ e) ∧
            (∀ v, (g.node v).shell = (m.graph.node v).shell) ∧
            Edit.disconnect e m = .ok gone m' ∧ Machine.Collects { m with graph := g } gone m' ∧
            m'.automaton.states = g.reachable m.automaton.start) := by
  have hm := And.intro (Automaton.violation?_eq_none_iff.1 check) closed
  constructor
  · intro s
    obtain ⟨gone, m', hrun, hcollects, hmem⟩ := Machine.exists_collect hm s
    refine ⟨gone, m', ?_, hcollects, hmem, ?_⟩
    · simp only [Edit.collect, outcome_bind_fun, live_eq_ok hlive, hrun]
    · intro hs
      -- what hangs together with a state makes that state stranded, so there is nothing if it is
      -- not
      have hnone : gone = [] := by
        apply List.eq_nil_iff_forall_not_mem.2
        intro v hv
        have hstranded := ((hmem v).1 hv).candidate_stranded
        rcases hs with hs | hs
        · exact hs hstranded.1
        · exact hstranded.2 hs
      exact ⟨hnone, (Machine.automaton_collect hrun).2 hnone⟩
  · intro hall e hnoted
    obtain ⟨g, hcut, hafter, hdest, hshell⟩ := Machine.exists_cut hm hnoted
    obtain ⟨gone, m', hrun, hcollects, hmem⟩ :=
      Machine.exists_collect (m := { m with graph := g }) hafter e.target
    refine ⟨g, gone, m', hcut, hdest, hshell, ?_, hcollects, ?_⟩
    · simp only [Edit.disconnect, outcome_bind_fun, live_eq_ok hlive, Machine.disconnect, hcut,
        hrun]
    · ext v
      rw [hcollects.automaton_eq, Automaton.without, OrdSet.mem_sdiff, OrdSet.mem_ofList, hmem]
      constructor
      · rintro ⟨hv, hstays⟩
        by_contra hreach
        exact hstays (Machine.driftsWith_of_cut hm.1 hall hdest ⟨hv, hreach⟩)
      · intro hv
        refine ⟨?_, fun hdrifts => hdrifts.stranded.2 hv⟩
        exact Graph.forall_mem_reachable (p := (· ∈ m.automaton.states)) hafter.1.start_mem
          (fun u hu l w hw => hafter.1.target_mem u hu l w hw) v hv

/-- A state that leads to itself goes together with one that leads to it, and the start state
that it leads to stays. -/
theorem collects_exactly_twoAdrift :
    twoAdrift.automaton.violation? twoAdrift.graph = none ∧
      twoAdrift.automaton.Closed twoAdrift.graph ∧ twoAdrift.automaton.discarded = false ∧
        ∃ m', Edit.collect 2 twoAdrift = .ok [2, 1] m' ∧ twoAdrift.Collects [2, 1] m' ∧
          ∀ v, v ∈ [2, 1] ↔ twoAdrift.automaton.DriftsWith twoAdrift.graph 2 v := by
  have hcheck := Automaton.violation?_eq_none_iff.2 sound_twoAdrift.wellFormed
  have hclosed := sound_twoAdrift.closed
  refine ⟨hcheck, hclosed, rfl, ?_⟩
  obtain ⟨gone, m', hrun, hcollects, hmem, _⟩ := (collects_exactly hcheck hclosed rfl).1 2
  have hgone : EStateM.run' (Edit.collect 2) twoAdrift = some [2, 1] := by cbv
  rw [EStateM.run', EStateM.run, hrun, Option.some.injEq] at hgone
  rw [hgone] at hrun hcollects hmem
  exact ⟨m', hrun, hcollects, hmem⟩

end Edit

end PatternAutomata
