/-
Automata whose states can all be reached from the start state.

Collecting looks at single candidates, and yet nothing that cannot be reached may be left. What
makes this work is a statement about the candidates that are still to be looked at
(`Automaton.Rooted`): every state can be reached from the start state or from one of them. A
round of collecting keeps it, for what could be reached through a state that goes can be reached
from a target of the states that go, and these targets are the next candidates. A candidate that
stays has the start state among its ancestors, so it can be dropped. When no candidates are
left, the automaton consists of what its start state reaches (`Rooted.states_eq`).

An edit that cuts an edge, or that merges a state away, leaves an automaton which is rooted at
one candidate, and that is the one which is collected next. All other edits add edges, so what
could be reached before can be reached afterwards (`Rooted.grow`).
-/
import PatternAutomata.Proofs.Structure.Collecting
import PatternAutomata.Proofs.Structure.Joining

set_option autoImplicit false

namespace PatternAutomata

/-- What can be reached from something that can be reached can be reached. -/
theorem Graph.mem_reachable_trans {g : Graph} {u v w : Vertex} (hv : v ∈ g.reachable u)
    (hw : w ∈ g.reachable v) : w ∈ g.reachable u :=
  Graph.forall_mem_reachable (p := (· ∈ g.reachable u)) hv
    (fun _ hx _ _ hy => Graph.mem_reachable_of_mem_destinations hx hy) w hw

/-! ## What the start state and some candidates reach -/

namespace Automaton

variable {g h : Graph} {a b : Automaton} {cs ds : List Vertex} {v w : Vertex}

/-- A state can be reached from the start state or from a state among some candidates. -/
def Covers (g : Graph) (a : Automaton) (cs : List Vertex) (v : Vertex) : Prop :=
  v ∈ g.reachable a.start ∨ ∃ c ∈ cs, c ∈ a.states ∧ v ∈ g.reachable c

/-- Every state can be reached from the start state or from a state among some candidates. -/
structure Rooted (g : Graph) (a : Automaton) (cs : List Vertex) : Prop extends a.Framed g where
  covers : ∀ v ∈ a.states, a.Covers g cs v

/-- The start state is reached from itself, whatever the candidates are. -/
theorem covers_start : a.Covers g cs a.start := Or.inl (g.self_mem_reachable a.start)

/-- A candidate is reached from itself, if it is still one of the states. -/
theorem covers_candidate (hv : v ∈ cs) (hmem : v ∈ a.states) : a.Covers g cs v :=
  Or.inr ⟨v, hv, hmem, g.self_mem_reachable v⟩

/-- What an edge leads to is reached wherever its source is. -/
theorem Covers.step {l : Label} (hv : a.Covers g cs v) (hw : w ∈ g.destinations v l) :
    a.Covers g cs w := by
  rcases hv with hv | ⟨c, hc, hmem, hv⟩
  · exact Or.inl (Graph.mem_reachable_of_mem_destinations hv hw)
  · exact Or.inr ⟨c, hc, hmem, Graph.mem_reachable_of_mem_destinations hv hw⟩

/-- Edges do not lead out of the automaton, and neither do paths. -/
theorem Framed.mem_of_reachable (ha : a.Framed g) (hv : v ∈ a.states)
    (hw : w ∈ g.reachable v) : w ∈ a.states :=
  Graph.forall_mem_reachable (p := (· ∈ a.states)) hv
    (fun _ hu _ _ hx => ha.target_mem hu hx) w hw

/-- So everything that is reached from the start state or from a candidate is one of the states. -/
theorem Framed.mem_of_covers (ha : a.Framed g) (hv : a.Covers g cs v) : v ∈ a.states := by
  rcases hv with hv | ⟨c, _, hmem, hv⟩
  · exact ha.mem_of_reachable ha.start_mem hv
  · exact ha.mem_of_reachable hmem hv

namespace Rooted

/-- What holds of the start state and of the candidates and is handed on by every edge holds of all
states. Every statement below that compares what is reached before and after is proved with this. -/
theorem induct (hr : a.Rooted g cs) {p : Vertex → Prop} (start : p a.start)
    (candidate : ∀ c ∈ cs, c ∈ a.states → p c)
    (next : ∀ v ∈ a.states, p v → ∀ l, ∀ w ∈ g.destinations v l, p w) :
    ∀ v ∈ a.states, p v := by
  -- what is handed on is being a state that has the property
  have hreach : ∀ u ∈ a.states, p u → ∀ w ∈ g.reachable u, w ∈ a.states ∧ p w := by
    intro u hu hpu
    apply Graph.forall_mem_reachable (p := fun w => w ∈ a.states ∧ p w) ⟨hu, hpu⟩
    intro x ⟨hx, hpx⟩ l y hy
    exact ⟨hr.target_mem hx hy, next x hx hpx l y hy⟩
  intro v hv
  rcases hr.covers v hv with hv | ⟨c, hc, hmem, hv⟩
  · exact (hreach _ hr.start_mem start v hv).2
  · exact (hreach c hmem (candidate c hc hmem) v hv).2

/-- With no candidates left, the states are those that the start state reaches. Candidates are
looked at until none is left, so this is what collecting comes to. -/
theorem states_eq (hr : a.Rooted g []) : a.states = g.reachable a.start := by
  ext v
  constructor
  · intro hv
    rcases hr.covers v hv with hv | ⟨c, hc, _⟩
    · exact hv
    · nomatch hc
  · exact hr.mem_of_reachable hr.start_mem

/-- An automaton that passes the check and consists of what its start state reaches is rooted, so
work can begin on any automaton that was found to be in order. -/
theorem of_check (check : a.violation? g = none) (closed : a.Closed g)
    (placed : ∀ v ∈ a.states, v < g.size) (reached : a.states = g.reachable a.start) :
    a.Rooted g [] := by
  have hw : a.WellFormed g := violation?_eq_none_iff.1 check
  refine ⟨⟨hw.start_mem, hw.isStart_iff, hw.consistent closed, placed⟩, ?_⟩
  intro v hv
  exact Or.inl (reached ▸ hv)

/-- It does no harm to look at more candidates, nor to look at them in another order. -/
theorem mono (hr : a.Rooted g cs) (hsub : ∀ c ∈ cs, c ∈ ds) : a.Rooted g ds := by
  refine ⟨hr.toFramed, hr.induct covers_start ?_ fun _ _ hv _ _ hw => hv.step hw⟩
  intro c hc hmem
  exact covers_candidate (hsub c hc) hmem

theorem of_nil (hr : a.Rooted g []) (cs : List Vertex) : a.Rooted g cs :=
  hr.mono fun _ hc => absurd hc List.not_mem_nil

/-- Where every edge between the states is kept, what could be reached can be reached, also from
another start state if the old one can be reached from there. Edits that add edges, or that move the
start along an edge, are cases of this. -/
theorem grow (hr : a.Rooted g cs) (start : b.Covers h ds a.start)
    (candidate : ∀ c ∈ cs, c ∈ a.states → b.Covers h ds c)
    (kept : ∀ v ∈ a.states, ∀ l, ∀ w ∈ g.destinations v l, w ∈ h.destinations v l) :
    ∀ v ∈ a.states, b.Covers h ds v :=
  hr.induct start candidate fun v hmem hv l w hw => hv.step (kept v hmem l w hw)

/-- Being rooted is a matter of the tables and start flags of the states: reaching asks for nothing
else. -/
theorem congr (hr : a.Rooted g cs) (states_eq : b.states = a.states)
    (start_eq : b.start = a.start) (same : ∀ v ∈ a.states, g.SameTables h v)
    (isStart_eq : ∀ v ∈ a.states, (h.node v).isStart = (g.node v).isStart)
    (size_le : g.size ≤ h.size) : b.Rooted h cs := by
  refine ⟨hr.toFramed.congr states_eq start_eq same isStart_eq size_le, ?_⟩
  rw [states_eq]
  apply hr.grow
  · rw [← start_eq]
    exact covers_start
  · intro c hc hmem
    exact covers_candidate hc (states_eq ▸ hmem)
  · intro v hv l w hw
    rwa [(same v hv).destinations_eq]

theorem congr_nodes (hr : a.Rooted g cs) (node_eq : ∀ v ∈ a.states, h.node v = g.node v)
    (size_le : g.size ≤ h.size) : a.Rooted h cs :=
  hr.congr rfl rfl (fun v hv => .of_node_eq (node_eq v hv))
    (fun v hv => by rw [node_eq v hv]) size_le

end Rooted

end Automaton

open Automaton

namespace Machine

variable {m m' : Machine} {cs : List Vertex}

/-! ## Collecting -/

/-- A state that does not go has the start state among its ancestors, and so the start state reaches
it. It goes at once if it counts no edges, and otherwise if no ancestor is flagged as start. -/
theorem mem_doomedBy_or_reachable (hm : m.automaton.Framed m.graph) {v : Vertex}
    (hv : v ∈ m.automaton.states) :
    v ∈ m.graph.doomedBy v ∨ v ∈ m.graph.reachable m.automaton.start := by
  rw [Graph.doomedBy]
  split
  · exact Or.inl (OrdSet.mem_singleton.2 rfl)
  dsimp only
  split
  · next hany =>
    -- whatever is among the ancestors leads to the state
    have hleads : ∀ u ∈ m.graph.ancestors {v},
        u ∈ m.automaton.states ∧ v ∈ m.graph.reachable u := by
      apply Graph.forall_mem_ancestors
      · intro u hu
        rw [OrdSet.mem_singleton.1 hu]
        exact ⟨hv, m.graph.self_mem_reachable v⟩
      · rintro u ⟨hu, huv⟩ l w hw
        have hmem := hm.consistent.source_mem u hu l w hw
        have hedge := (hm.consistent.mirror w hmem u hu l).1 hw
        exact ⟨hmem, Graph.mem_reachable_trans
          (Graph.mem_reachable_of_mem_destinations (m.graph.self_mem_reachable w) hedge) huv⟩
    obtain ⟨u, hu, hflag⟩ := List.any_eq_true.1 hany
    obtain ⟨hmem, huv⟩ := hleads u hu
    rw [(hm.isStart_iff u hmem).1 hflag] at huv
    exact Or.inr huv
  · exact Or.inl (OrdSet.mem_ofList.2 (Graph.mem_ancestors_of_mem (OrdSet.mem_singleton.2 rfl)))

/-- A candidate that does not go can be dropped. What was reached from it is reached from the start
state, or it was no state of the automaton to begin with. -/
theorem rooted_drop {v : Vertex} {rest : List Vertex}
    (hr : m.automaton.Rooted m.graph (v :: rest))
    (hstays : ¬(m.isCandidate v = true ∧ v ∈ m.graph.doomedBy v)) :
    m.automaton.Rooted m.graph rest := by
  refine ⟨hr.toFramed, hr.induct covers_start ?_ fun _ _ hu _ _ hw => hu.step hw⟩
  intro c hc hmem
  rcases List.mem_cons.1 hc with rfl | hc
  · by_cases hstart : c = m.automaton.start
    · rw [hstart]
      exact covers_start
    · rcases mem_doomedBy_or_reachable hr.toFramed hmem with hgone | hreach
      · exact absurd ⟨(isCandidate_iff hr.toFramed).2 ⟨hmem, hstart⟩, hgone⟩ hstays
      · exact Or.inl hreach
  · exact covers_candidate hc hmem

/-- After a round, what was reached through the states that have gone is reached from their targets,
and those are the next candidates. By `Rooted.induct`, with the states that have gone excepted until
the end. -/
theorem rooted_round {v : Vertex} {rest next : List Vertex} {gone : VertexSet} {g : Graph}
    (hr : m.automaton.Rooted m.graph (v :: rest)) (hv : v ∈ gone)
    (htrims : m.Trims (m.afterRound gone g))
    (hnext : ∀ u ∈ gone, ∀ l, ∀ w ∈ m.graph.destinations u l, w ∉ gone → w ∈ next) :
    (m.afterRound gone g).automaton.Rooted g (next ++ rest) := by
  -- a state that was not given up is one of the states still
  have hkept : ∀ u, u ∈ m.automaton.states → u ∉ gone →
      u ∈ (m.afterRound gone g).automaton.states :=
    fun u hu hug => OrdSet.mem_sdiff.2 ⟨hu, hug⟩
  -- every state has gone or is reached from what is looked at next
  have hall : ∀ u ∈ m.automaton.states,
      u ∈ gone ∨ (m.afterRound gone g).automaton.Covers g (next ++ rest) u := by
    apply hr.induct
      (p := fun u => u ∈ gone ∨ (m.afterRound gone g).automaton.Covers g (next ++ rest) u)
    · exact Or.inr covers_start
    · intro c hc hmem
      by_cases hcg : c ∈ gone
      · exact Or.inl hcg
      · rcases List.mem_cons.1 hc with rfl | hc
        · exact absurd hv hcg
        · exact Or.inr (covers_candidate (List.mem_append_right _ hc) (hkept c hmem hcg))
    · intro u hu hor l w hw
      have hmem : w ∈ m.automaton.states := hr.target_mem hu hw
      by_cases hwg : w ∈ gone
      · exact Or.inl hwg
      · rcases hor with hug | hcov
        · exact Or.inr (covers_candidate (List.mem_append_left _ (hnext u hug l w hw hwg))
            (hkept w hmem hwg))
        · refine Or.inr (hcov.step (l := l) ?_)
          have hedges := htrims.destinations_eq u (htrims.framed.mem_of_covers hcov) l
          rw [show g.destinations u l = _ from hedges]
          exact hw
  refine ⟨htrims.framed, ?_⟩
  intro u hu
  obtain ⟨hmem, hug⟩ := OrdSet.mem_sdiff.1 hu
  exact (hall u hmem).resolve_left hug

/-- The walk through the candidates leaves nothing that cannot be reached, as long as everything can
be reached from the start state or from a candidate. The induction is the recursion of the walk: a
candidate is dropped, or a round takes place. -/
theorem rooted_collectFrom {candidates removed gone : List Vertex}
    (hr : m.automaton.Rooted m.graph candidates)
    (hcollect : m.collectFrom candidates removed = .ok gone m') :
    m'.automaton.Rooted m'.graph [] := by
  fun_induction collectFrom m candidates removed with
  | case1 m removed =>
    cases hcollect
    exact hr
  | case2 => cases hcollect
  | case3 m removed v rest doomed h order edges u g hcut next ih =>
    obtain ⟨g', hcut', hround⟩ := trims_candidate hr.toFramed h.1 h.2
    rw [show m.graph.cutAll edges = .ok () g' from hcut'] at hcut
    cases hcut
    refine ih (rooted_round hr h.2 hround ?_) hcollect
    intro u hu l w hw hwg
    exact Graph.mem_targets_kept.2 ⟨hwg, u, hu, l, hw⟩
  | case4 m removed v rest doomed h ih => exact ih (rooted_drop hr h) hcollect

/-- Collecting the only candidate leaves nothing that cannot be reached, and it does not fail. -/
theorem rooted_collect {v : Vertex} (hr : m.automaton.Rooted m.graph [v]) :
    ∃ m' gone, m.collect v = .ok gone m' ∧ m'.automaton.Rooted m'.graph [] ∧
      m'.automaton.discarded = m.automaton.discarded := by
  obtain ⟨m', gone, hcollect, htrims⟩ := trims_collectFrom hr.toFramed [v] []
  have hr' := rooted_collectFrom hr hcollect
  rw [collect, hcollect]
  refine ⟨_, gone, rfl, ?_⟩
  -- an event in the log changes nothing that is looked at
  split
  · exact ⟨hr', htrims.discarded_eq⟩
  · exact ⟨hr', htrims.discarded_eq⟩

/-- Disconnecting two states leaves nothing that cannot be reached, also if the target could be
reached in no other way before: it is the one candidate that is then looked at. -/
theorem rooted_disconnect {e : Edge} (hr : m.automaton.Rooted m.graph [e.target])
    (hs : e.source ∈ m.automaton.states) (ht : e.target ∈ m.automaton.states) :
    ∃ m' gone, m.disconnect e = .ok gone m' ∧ m'.automaton.Rooted m'.graph [] ∧
      m'.automaton.discarded = m.automaton.discarded := by
  obtain ⟨g, hcut, hframed, _, hdest, _⟩ := framed_cut hr.toFramed hs ht
  have hcandidate : m.automaton.Covers g [e.target] e.target :=
    covers_candidate (List.mem_singleton.2 rfl) ht
  -- only the target of the edge may be cut off
  have hr' : m.automaton.Rooted g [e.target] := by
    refine ⟨hframed, hr.induct covers_start ?_ ?_⟩
    · intro c hc _
      rw [List.mem_singleton.1 hc]
      exact hcandidate
    · intro v hmem hv l w hw
      by_cases he : (⟨v, l, w⟩ : Edge) = e
      · rw [show w = e.target from (congrArg Edge.target he : _)]
        exact hcandidate
      · exact hv.step ((hdest v l w).2 ⟨hw, he⟩)
  rw [disconnect_eq hcut]
  exact rooted_collect (m := { m with graph := g }) hr'

/-! ## Adding edges -/

/-- A new edge may lead to a state of the automaton or take a spare one in. Either way its target is
reached along it, and nothing else has to be. -/
theorem rooted_connect {e : Edge} (hr : m.automaton.Rooted m.graph cs)
    (hs : e.source ∈ m.automaton.states)
    (ht : e.target ∈ m.automaton.states ∨ m.graph.Spare e.target) :
    (m.connect e).automaton.Rooted (m.connect e).graph cs := by
  have hframed : (m.takeIn e.target).automaton.Framed (m.takeIn e.target).graph := by
    rcases ht with ht | ht
    · rw [takeIn_eq_self ht]
      exact hr.toFramed
    · exact framed_takeIn hr.toFramed ht
  have hconnect := hframed.connect (e := e) (mem_states_takeIn.2 (Or.inr hs))
    (mem_states_takeIn.2 (Or.inl rfl))
  rw [connect_takeIn (Or.inr rfl)] at hconnect
  -- what was reached before is reached along the same edges
  have hold : ∀ v ∈ m.automaton.states,
      (m.connect e).automaton.Covers (m.connect e).graph cs v := by
    apply hr.grow
    · exact covers_start (a := (m.connect e).automaton)
    · intro c hc hmem
      exact covers_candidate hc (mem_states_connect.2 (Or.inl hmem))
    · intro v _ l w hw
      rw [graph_connect]
      exact Graph.mem_destinations_link.2 (Or.inl hw)
  refine ⟨hconnect, ?_⟩
  intro v hv
  rcases mem_states_connect.1 hv with hv | rfl | rfl
  · exact hold v hv
  · exact hold _ hs
  · refine (hold _ hs).step (l := e.label) ?_
    rw [graph_connect]
    exact Graph.mem_destinations_link.2 (Or.inr rfl)

/-- Absorbing a state adds edges only, between states that are there. -/
theorem rooted_absorb {other target : Vertex} (hr : m.automaton.Rooted m.graph cs)
    (ho : other ∈ m.automaton.states) (ht : target ∈ m.automaton.states) :
    (m.absorb other target).automaton.Rooted (m.absorb other target).graph cs := by
  by_cases hne : other = target
  · rw [absorb, if_pos hne]
    exact hr
  have hstates := states_copyOnto (f := id) (hr.consistent.target_mem other ho) ht fun _ hw => hw
  rw [absorb_eq hne]
  refine ⟨hr.toFramed.copyOnto ho ht fun _ hw => hw, ?_⟩
  rw [hstates]
  apply hr.grow
  · rw [← start_copyOnto (m := m) (f := id)]
    exact covers_start
  · intro c hc hmem
    exact covers_candidate hc (hstates ▸ hmem)
  · intro v _ l w hw
    exact mem_destinations_copyOnto.2 (Or.inl hw)

/-- A state that is merged away is the only one that may be reached in no other way than from
itself: if it was the start state, the start has moved to the target. -/
theorem rooted_merged {other target : Vertex} (hr : m.automaton.Rooted m.graph [])
    (ho : other ∈ m.automaton.states) (ht : target ∈ m.automaton.states) :
    (m.merged other target).automaton.Rooted (m.merged other target).graph [other] := by
  have hstates := states_merged (hr.consistent.target_mem other ho) ht
  refine ⟨framed_merged hr.toFramed ho ht, ?_⟩
  rw [hstates]
  apply hr.grow
  · have hstart := start_merged (m := m) other target
    by_cases hmoved : other = m.automaton.start
    · rw [← hmoved]
      exact covers_candidate (List.mem_singleton.2 rfl) (hstates ▸ ho)
    · rw [if_neg hmoved] at hstart
      rw [← hstart]
      exact covers_start
  · intro c hc _
    nomatch hc
  · intro v _ l w hw
    exact mem_destinations_merged.2 (Or.inl hw)

/-- Merging succeeds, whether the start has to move or not, and leaves the state that was merged
away as the one candidate. -/
theorem rooted_merge {other target : Vertex} (hr : m.automaton.Rooted m.graph [])
    (ho : other ∈ m.automaton.states) (ht : target ∈ m.automaton.states) :
    ∃ m', m.merge other target = .ok () m' ∧ m'.automaton.Rooted m'.graph [other] ∧
      m'.automaton.states = m.automaton.states ∧
      m'.automaton.discarded = m.automaton.discarded := by
  by_cases hne : other = target
  · refine ⟨m, ?_, hr.of_nil _, rfl, rfl⟩
    rw [merge, if_pos hne]
  · exact ⟨m.merged other target, merge_eq_ok (hr.isStart_iff other ho) hne, rooted_merged hr ho ht,
      states_merged (hr.consistent.target_mem other ho) ht, discarded_merged⟩

/-- Completing an automaton with a trap: some step was missing, and it leads to the trap. If none
was, nothing is done. -/
theorem rooted_addTrap (hr : m.automaton.Rooted m.graph cs) :
    m.addTrap.2.automaton.Rooted m.addTrap.2.graph cs := by
  by_cases hmissing : m.missingSteps = []
  · rw [addTrap_eq, if_pos hmissing]
    exact hr
  -- some state misses a step, and the edge that is made for it leads to the trap
  obtain ⟨⟨u, k⟩, huk⟩ := List.exists_mem_of_ne_nil _ hmissing
  have hgrown : m.withTrap.automaton.Rooted m.withTrap.graph cs :=
    hr.congr_nodes (fun v hv => node_withTrap hr.toFramed hv) size_le_withTrap
  have hstates := states_connectAll (m := m.withTrap.takeIn m.graph.size) ends_trapEdges
  rw [← addTrap_takeIn hmissing] at hstates
  have hold : ∀ v ∈ m.automaton.states,
      m.addTrap.2.automaton.Covers m.addTrap.2.graph cs v := by
    apply hr.grow
    · have hstart : m.addTrap.2.automaton.start = m.automaton.start := by
        rw [addTrap_takeIn hmissing, start_connectAll, start_takeIn, withTrap]
      rw [← hstart]
      exact covers_start
    · intro c hc hmem
      refine covers_candidate hc ?_
      rw [hstates]
      exact mem_states_takeIn.2 (Or.inr hmem)
    · intro v _ l w hw
      exact (mem_destinations_addTrap hmissing).2 (Or.inl hw)
  refine ⟨?_, ?_⟩
  · rw [addTrap_takeIn hmissing]
    exact (framed_takeIn hgrown.toFramed spare_trap).connectAll ends_trapEdges
  · intro v hv
    rw [hstates] at hv
    rcases mem_states_takeIn.1 hv with rfl | hv
    · have hedge : ⟨u, k, m.graph.size⟩ ∈ m.trapEdges m.graph.size :=
        List.mem_append_left _ (List.mem_map.2 ⟨(u, k), huk, rfl⟩)
      exact (hold u (mem_missingSteps.1 huk).1).step
        ((mem_destinations_addTrap hmissing).2 (Or.inr hedge))
    · exact hold v hv

/-- Reading on in another automaton: its start state is reached from a state that accepted. If no
state accepts, no edge is made, and the states taken over would not be reached; so one is asked
for. -/
theorem rooted_append {other : Automaton} {v : Vertex} (hr : m.automaton.Rooted m.graph cs)
    (ho : other.Rooted m.graph []) (hapart : ∀ v ∈ m.automaton.states, v ∉ other.states)
    (hv : v ∈ m.automaton.states) (hacc : (m.graph.node v).isAccepting = true) :
    (m.append other).automaton.Rooted (m.append other).graph cs := by
  have hautomaton := automaton_append (m := m) ho.start_mem
  have hstates : (m.append other).automaton.states = m.automaton.states ∪ other.states := by
    rw [hautomaton]
  have hkept : ∀ u l, ∀ w ∈ m.graph.destinations u l,
      w ∈ (m.append other).graph.destinations u l :=
    fun u l w hw => mem_destinations_append.2 (Or.inl hw)
  have hfirst : ∀ u ∈ m.automaton.states,
      (m.append other).automaton.Covers (m.append other).graph cs u := by
    apply hr.grow
    · have hstart : (m.append other).automaton.start = m.automaton.start := by rw [hautomaton]
      rw [← hstart]
      exact covers_start
    · intro c hc hmem
      refine covers_candidate hc ?_
      rw [hstates]
      exact OrdSet.mem_union.2 (Or.inl hmem)
    · exact fun u _ l w hw => hkept u l w hw
  -- across the new edge, and from there as before in the other automaton
  have hbridge : (m.append other).automaton.Covers (m.append other).graph cs other.start :=
    (hfirst v hv).step (mem_destinations_append.2 (Or.inr ⟨⟨hv, hacc⟩, rfl, rfl⟩))
  refine ⟨framed_append hr.toFramed ho.toFramed hapart, ?_⟩
  intro u hu
  rw [hstates] at hu
  rcases OrdSet.mem_union.1 hu with hu | hu
  · exact hfirst u hu
  · refine ho.grow hbridge ?_ (fun u _ l w hw => hkept u l w hw) u hu
    intro c hc _
    nomatch hc

end Machine

end PatternAutomata
