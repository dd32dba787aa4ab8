/-
What a walk through candidates collects.

A state that the start state does not reach is stranded (`Automaton.Stranded`). Collecting does
not take out all stranded states: it takes out those that hang together with a candidate, that is,
those that a chain of edges connects to it, each edge followed in either direction, through
stranded states only (`Automaton.DriftsWith`).

One round takes out a candidate with all that leads to it. Of what hangs together with the
candidate there is left what hangs together with a target of the states that went, and these
targets are the next candidates; so what hangs together with a candidate is what goes in a round
and what hangs together with a candidate afterwards (`Machine.drifts_round`). By induction on the
rounds, these states are the ones that go (`Machine.sheds_collectFrom`), each of them once, and no
edge is left at any of them (`Machine.Sheds`).
-/
import PatternAutomata.Proofs.Structure.Rooted

set_option autoImplicit false

namespace PatternAutomata

namespace Graph

variable {g h : Graph}

/-- An edge leads from one of two states to the other. -/
def Joined (g : Graph) (v w : Vertex) : Prop :=
  (∃ l, w ∈ g.destinations v l) ∨ ∃ l, v ∈ g.destinations w l

/-- With more edges, no less is reached. -/
theorem reachable_mono (sub : ∀ v l, ∀ w ∈ g.destinations v l, w ∈ h.destinations v l)
    {v w : Vertex} (hw : w ∈ g.reachable v) : w ∈ h.reachable v :=
  forall_mem_reachable (p := (· ∈ h.reachable v)) (h.self_mem_reachable v)
    (fun u hu l x hx => mem_reachable_of_mem_destinations hu (sub u l x hx)) w hw

end Graph

namespace Automaton

variable {g h : Graph} {a b : Automaton} {s v w : Vertex}

/-! ## What hangs together -/

/-- A state of the automaton that its start state does not reach. -/
def Stranded (g : Graph) (a : Automaton) (v : Vertex) : Prop :=
  v ∈ a.states ∧ v ∉ g.reachable a.start

/-- A chain of edges, each followed in either direction, leads from one state to another through
stranded states only. -/
inductive DriftsWith (g : Graph) (a : Automaton) (s : Vertex) : Vertex → Prop
  | self (stranded : a.Stranded g s) : a.DriftsWith g s s
  | step {v w : Vertex} (drifts : a.DriftsWith g s v) (joined : g.Joined v w)
      (stranded : a.Stranded g w) : a.DriftsWith g s w

/-- A state hangs together with one of some candidates. -/
def Drifts (g : Graph) (a : Automaton) (cs : List Vertex) (v : Vertex) : Prop :=
  ∃ c ∈ cs, a.DriftsWith g c v

namespace DriftsWith

/-- Whatever hangs together with a state is itself stranded, for the chain goes through stranded
states only, its end included. -/
theorem stranded (hv : a.DriftsWith g s v) : a.Stranded g v := by
  cases hv with
  | self h => exact h
  | step _ _ h => exact h

/-- So is the state at which the chain begins. -/
theorem candidate_stranded (hv : a.DriftsWith g s v) : a.Stranded g s := by
  induction hv with
  | self h => exact h
  | step _ _ _ ih => exact ih

/-- Chains can be put one after the other. -/
theorem trans (hv : a.DriftsWith g s v) (hw : a.DriftsWith g v w) : a.DriftsWith g s w := by
  induction hw with
  | self => exact hv
  | step _ joined stranded ih => exact ih.step joined stranded

/-- Where more edges lead between more stranded states, no less hangs together. Used with the
automaton after a round on one side and the automaton before it on the other. -/
theorem mono (hjoined : ∀ v w, b.Stranded h v → b.Stranded h w → h.Joined v w → g.Joined v w)
    (hstranded : ∀ v, b.Stranded h v → a.Stranded g v) (hv : b.DriftsWith h s v) :
    a.DriftsWith g s v := by
  induction hv with
  | self stranded => exact .self (hstranded _ stranded)
  | step drifts joined stranded ih =>
    exact ih.step (hjoined _ _ drifts.stranded stranded joined) (hstranded _ stranded)

end DriftsWith

end Automaton

open Automaton

/-! ## What goes in a round -/

namespace Graph

variable {g : Graph} {a : Automaton} {gone : VertexSet} {v u : Vertex}

/-- States that may go are stranded: were one of them reached from the start state, the last state
on the way that does not go would lead to one that does, and it would have to go as well. -/
theorem Doomed.stranded (hd : g.Doomed a gone) (ha : a.Framed g) (hv : v ∈ gone) :
    a.Stranded g v := by
  refine ⟨hd.mem_states v hv, fun hreach => ?_⟩
  -- the start state does not go, and edges do not lead to what goes
  have hstay : ∀ w ∈ g.reachable a.start, w ∈ a.states ∧ w ∉ gone := by
    apply forall_mem_reachable (p := fun w => w ∈ a.states ∧ w ∉ gone)
      ⟨ha.start_mem, hd.start_not_mem⟩
    rintro w ⟨hw, hwg⟩ l x hx
    have hxmem := ha.target_mem hw hx
    refine ⟨hxmem, fun hxg => hwg (hd.source_mem x hxg l w ?_)⟩
    exact (ha.consistent.mem_origins_iff hxmem).2 ⟨hw, hx⟩
  exact (hstay v hreach).2 hv

/-- All that goes with a candidate hangs together with it, since it was found by following edges
backwards from there. -/
theorem driftsWith_doomedBy (ha : a.Framed g) (hd : g.Doomed a (g.doomedBy v))
    (hv : v ∈ g.doomedBy v) (hu : u ∈ g.doomedBy v) : a.DriftsWith g v u := by
  have hself : a.DriftsWith g v v := .self (hd.stranded ha hv)
  by_cases hzero : (g.node v).indegree = 0
  · rw [doomedBy, if_pos hzero] at hu
    rw [OrdSet.mem_singleton.1 hu]
    exact hself
  · -- ancestors are joined to one another against the direction of edges
    have hall : ∀ w ∈ g.ancestors {v}, w ∈ g.doomedBy v ∧ a.DriftsWith g v w := by
      apply forall_mem_ancestors
      · intro w hw
        rw [OrdSet.mem_singleton.1 hw]
        exact ⟨hv, hself⟩
      · rintro w ⟨hw, hdrifts⟩ l x hx
        have hxg := hd.source_mem w hw l x hx
        obtain ⟨_, hedge⟩ := (ha.consistent.mem_origins_iff (hd.mem_states w hw)).1 hx
        exact ⟨hxg, hdrifts.step (Or.inr ⟨l, hedge⟩) (hd.stranded ha hxg)⟩
    apply (hall u ?_).2
    rw [doomedBy, if_neg hzero] at hu
    dsimp only at hu
    split at hu
    · exact absurd hu (OrdSet.not_mem_empty u)
    · exact OrdSet.mem_ofList.1 hu

end Graph

namespace Machine

variable {m m' m'' : Machine}

namespace Trims

/-- The start state reaches what it reached before. Edges have gone only where a state went, and
none of those was reached. -/
theorem mem_reachable_iff (h : m.Trims m') {v : Vertex} :
    v ∈ m'.graph.reachable m'.automaton.start ↔ v ∈ m.graph.reachable m.automaton.start := by
  constructor
  · intro hv
    have hall : ∀ w ∈ m'.graph.reachable m'.automaton.start,
        w ∈ m'.automaton.states ∧ w ∈ m.graph.reachable m.automaton.start := by
      apply Graph.forall_mem_reachable
      · exact ⟨h.framed.start_mem, h.start_eq ▸ m.graph.self_mem_reachable _⟩
      · rintro w ⟨hw, hreach⟩ l x hx
        refine ⟨h.framed.target_mem hw hx, ?_⟩
        rw [h.destinations_eq w hw] at hx
        exact Graph.mem_reachable_of_mem_destinations hreach hx
    exact (hall v hv).2
  · intro hv
    have hall : ∀ w ∈ m.graph.reachable m.automaton.start,
        w ∈ m'.graph.reachable m'.automaton.start := by
      apply Graph.forall_mem_reachable
      · rw [h.start_eq]
        exact m'.graph.self_mem_reachable _
      · intro w hw l x hx
        have hmem := h.framed.mem_of_reachable h.framed.start_mem hw
        rw [← h.destinations_eq w hmem] at hx
        exact Graph.mem_reachable_of_mem_destinations hw hx
    exact hall v hv

/-- What is kept is stranded if it was stranded before, and no state becomes stranded by what has
gone. -/
theorem stranded_iff (h : m.Trims m') {v : Vertex} :
    m'.automaton.Stranded m'.graph v ↔
      m.automaton.Stranded m.graph v ∧ v ∈ m'.automaton.states := by
  rw [Stranded, Stranded, h.mem_reachable_iff]
  constructor
  · rintro ⟨hv, hreach⟩
    exact ⟨⟨h.states_sub v hv, hreach⟩, hv⟩
  · rintro ⟨⟨_, hreach⟩, hv⟩
    exact ⟨hv, hreach⟩

/-- Between states that are kept the same edges lead as before. -/
theorem joined_iff (h : m.Trims m') {v w : Vertex} (hv : v ∈ m'.automaton.states)
    (hw : w ∈ m'.automaton.states) : m'.graph.Joined v w ↔ m.graph.Joined v w := by
  simp only [Graph.Joined, h.destinations_eq v hv, h.destinations_eq w hw]

/-- What hangs together afterwards did so before. -/
theorem driftsWith (h : m.Trims m') {s v : Vertex}
    (hv : m'.automaton.DriftsWith m'.graph s v) : m.automaton.DriftsWith m.graph s v := by
  apply hv.mono
  · intro u w hu hw
    exact (h.joined_iff hu.1 hw.1).1
  · intro u hu
    exact (h.stranded_iff.1 hu).1

end Trims

/-- What hangs together with a candidate is what goes with it and what hangs together with a
candidate afterwards. The direction from before to after is by induction on the chain: as long as it
runs through what goes it needs no candidate, and where it leaves that, it enters a target of it. -/
theorem drifts_round (hm : m.automaton.Framed m.graph) {v : Vertex} {rest next : List Vertex}
    {gone : VertexSet} {g : Graph} (hgone : m.graph.Doomed m.automaton gone) (hv : v ∈ gone)
    (hdrifts : ∀ u ∈ gone, m.automaton.DriftsWith m.graph v u)
    (htrims : m.Trims (m.afterRound gone g))
    (hnext : ∀ w, w ∈ next ↔ w ∉ gone ∧ ∃ u ∈ gone, ∃ l, w ∈ m.graph.destinations u l)
    (u : Vertex) :
    m.automaton.Drifts m.graph (v :: rest) u ↔
      u ∈ gone ∨ (m.afterRound gone g).automaton.Drifts g (next ++ rest) u := by
  have hkept : ∀ w, w ∈ m.automaton.states → w ∉ gone →
      w ∈ (m.afterRound gone g).automaton.states :=
    fun w hw hwg => OrdSet.mem_sdiff.2 ⟨hw, hwg⟩
  have hstranded : ∀ w, m.automaton.Stranded m.graph w → w ∉ gone →
      (m.afterRound gone g).automaton.Stranded g w :=
    fun w hw hwg => htrims.stranded_iff.2 ⟨hw, hkept w hw.1 hwg⟩
  constructor
  · rintro ⟨c, hc, hu⟩
    induction hu with
    | self hcs =>
      by_cases hcg : c ∈ gone
      · exact Or.inl hcg
      · -- the first candidate has gone, so it is another one
        have hrest : c ∈ rest := by
          rcases List.mem_cons.1 hc with rfl | hrest
          · exact absurd hv hcg
          · exact hrest
        exact Or.inr ⟨c, List.mem_append_right next hrest, .self (hstranded c hcs hcg)⟩
    | @step w x hw hjoined hx ih =>
      by_cases hxg : x ∈ gone
      · exact Or.inl hxg
      -- either the chain has only passed what goes, or it hangs on a candidate already
      · rcases ih with hwg | ⟨d, hd, hdw⟩
        · -- edges lead from what goes to what stays and not back
          rcases hjoined with ⟨l, hedge⟩ | ⟨l, hedge⟩
          · have hxnext : x ∈ next := (hnext x).2 ⟨hxg, w, hwg, l, hedge⟩
            exact Or.inr ⟨x, List.mem_append_left rest hxnext, .self (hstranded x hx hxg)⟩
          · have hnoted := (hm.consistent.mem_origins_iff hw.stranded.1).2 ⟨hx.1, hedge⟩
            exact absurd (hgone.source_mem w hwg l x hnoted) hxg
        · have hjoined' := (htrims.joined_iff hdw.stranded.1 (hkept x hx.1 hxg)).2 hjoined
          exact Or.inr ⟨d, hd, hdw.step hjoined' (hstranded x hx hxg)⟩
  · rintro (hu | ⟨c, hc, hu⟩)
    · exact ⟨v, List.mem_cons_self, hdrifts u hu⟩
    · have hu' := htrims.driftsWith hu
      rcases List.mem_append.1 hc with hc | hc
      · -- a target of what went hangs together with the first candidate
        obtain ⟨_, w, hw, l, hedge⟩ := (hnext c).1 hc
        have hvc := (hdrifts w hw).step (Or.inl ⟨l, hedge⟩) hu'.candidate_stranded
        exact ⟨v, List.mem_cons_self, hvc.trans hu'⟩
      · exact ⟨c, List.mem_cons_of_mem v hc, hu'⟩

/-- A candidate that stays hangs together with nothing, so it can be dropped: it is reached from the
start state, or it has left the automaton before. -/
theorem drifts_drop (hm : m.automaton.Framed m.graph) {v : Vertex} {rest : List Vertex}
    (hstays : ¬(m.isCandidate v = true ∧ v ∈ m.graph.doomedBy v)) (u : Vertex) :
    m.automaton.Drifts m.graph (v :: rest) u ↔ m.automaton.Drifts m.graph rest u := by
  have hnot : ¬m.automaton.Stranded m.graph v := by
    rintro ⟨hv, hreach⟩
    have hstart : v ≠ m.automaton.start := by
      rintro rfl
      exact hreach (m.graph.self_mem_reachable _)
    have hgone := (mem_doomedBy_or_reachable hm hv).resolve_right hreach
    exact hstays ⟨(isCandidate_iff hm).2 ⟨hv, hstart⟩, hgone⟩
  constructor
  · rintro ⟨c, hc, hu⟩
    rcases List.mem_cons.1 hc with rfl | hc
    · exact absurd hu.candidate_stranded hnot
    · exact ⟨c, hc, hu⟩
  · rintro ⟨c, hc, hu⟩
    exact ⟨c, List.mem_cons_of_mem v hc, hu⟩

/-! ## What is left of what went -/

/-- Taking some states out, each once: what is kept loses nothing but edges from them, and no
edge is left at any of them. -/
structure Sheds (m : Machine) (gone : List Vertex) (m' : Machine) : Prop extends m.Trims m' where
  nodup : gone.Nodup
  gone_sub : ∀ v ∈ gone, v ∈ m.automaton.states
  mem_states_iff : ∀ v, v ∈ m'.automaton.states ↔ v ∈ m.automaton.states ∧ v ∉ gone
  unconnected : ∀ v ∈ gone, m'.graph.Unconnected v

/-- At first nothing has gone. -/
theorem Sheds.nil (hm : m.automaton.Framed m.graph) : m.Sheds [] m where
  toTrims := .refl hm
  nodup := List.nodup_nil
  gone_sub _ hv := absurd hv List.not_mem_nil
  mem_states_iff _ := ⟨fun hv => ⟨hv, List.not_mem_nil⟩, And.left⟩
  unconnected _ hv := absurd hv List.not_mem_nil

/-- What went before stays out and without edges, because later rounds take edges away only between
states that were still there. -/
theorem Sheds.append {gone gone' : List Vertex} (h : m.Sheds gone m') (h' : m'.Sheds gone' m'') :
    m.Sheds (gone ++ gone') m'' where
  toTrims := h.toTrims.trans h'.toTrims
  nodup := by
    refine List.nodup_append.2 ⟨h.nodup, h'.nodup, ?_⟩
    rintro v hv w hw rfl
    exact ((h.mem_states_iff v).1 (h'.gone_sub v hw)).2 hv
  gone_sub v hv := by
    rcases List.mem_append.1 hv with hv | hv
    · exact h.gone_sub v hv
    · exact h.states_sub v (h'.gone_sub v hv)
  mem_states_iff v := by
    rw [h'.mem_states_iff, h.mem_states_iff, List.mem_append, not_or, and_assoc]
  unconnected v hv := by
    by_cases hv' : v ∈ gone'
    · exact h'.unconnected v hv'
    · have hgone := (List.mem_append.1 hv).resolve_right hv'
      have hout : v ∉ m'.automaton.states := fun hmem => ((h.mem_states_iff v).1 hmem).2 hgone
      exact Graph.SameTables.unconnected (.of_node_eq (h'.node_eq v hout)) (h.unconnected v hgone)

/-- No edge is left at the states that have gone in a round. The edges out of them were cut; an edge
into one of them came from a state that went too, so it was cut as an edge out of that one. -/
theorem unconnected_round (hm : m.automaton.Framed m.graph) {gone : VertexSet}
    (hgone : m.graph.Doomed m.automaton gone) {g : Graph}
    (hcut : m.graph.cutAll (m.graph.edgesFrom (m.graph.inOrder gone)) = .ok () g) :
    ∀ v ∈ gone, g.Unconnected v := by
  have hsources : ∀ e ∈ m.graph.edgesFrom (m.graph.inOrder gone),
      e.source ∈ m.automaton.states := by
    rintro ⟨v, l, w⟩ he
    exact hgone.mem_states v (m.graph.mem_inOrder.1 (Graph.mem_edgesFrom.1 he).1)
  obtain ⟨g', hcut', hcons, hdest, _⟩ := Graph.cutAll_spec hm.consistent hsources
  rw [hcut'] at hcut
  cases hcut
  have hnext : ∀ v ∈ gone, ∀ l, g.destinations v l = ∅ := by
    intro v hv l
    rw [OrdSet.eq_empty_iff]
    intro w hw
    rw [hdest, Graph.mem_edgesFrom, Graph.mem_inOrder] at hw
    exact hw.2 ⟨hv, hw.1⟩
  -- whatever led to a state that has gone has gone itself
  have hprevious : ∀ v ∈ gone, ∀ l, g.origins v l = ∅ := by
    intro v hv l
    have hmem := hgone.mem_states v hv
    rw [OrdSet.eq_empty_iff]
    intro u hu
    obtain ⟨humem, hedge⟩ := (hcons.mem_origins_iff hmem).1 hu
    have hold := (hm.consistent.mem_origins_iff hmem).2 ⟨humem, ((hdest u l v).1 hedge).1⟩
    have hug := hgone.source_mem v hv l u hold
    rw [hnext u hug l] at hedge
    exact OrdSet.not_mem_empty v hedge
  intro v hv
  have hmem := hgone.mem_states v hv
  -- both tables are without entries, and the count agrees with the table
  have htable : (g.node v).previous = ∅ :=
    Table.eq_empty (hcons.previous_ne_empty v hmem) (hprevious v hv)
  refine ⟨Table.eq_empty (hcons.next_ne_empty v hmem) (hnext v hv), htable, ?_⟩
  rw [hcons.indegree_eq v hmem, htable]
  rfl

/-- A round takes out a candidate with all that leads to it, each of these states once, and leaves
no edge at any of them. -/
theorem sheds_round (hm : m.automaton.Framed m.graph) {gone : VertexSet}
    (hgone : m.graph.Doomed m.automaton gone) {g : Graph}
    (hcut : m.graph.cutAll (m.graph.edgesFrom (m.graph.inOrder gone)) = .ok () g) :
    m.Sheds (m.graph.inOrder gone) (m.afterRound gone g) := by
  obtain ⟨g', hcut', htrims⟩ := trims_round hm hgone
  rw [hcut'] at hcut
  cases hcut
  refine ⟨htrims, m.graph.nodup_inOrder gone, ?_, ?_, ?_⟩
  · intro v hv
    exact hgone.mem_states v (m.graph.mem_inOrder.1 hv)
  · intro v
    rw [m.graph.mem_inOrder]
    exact OrdSet.mem_sdiff
  · intro v hv
    exact unconnected_round hm hgone hcut' v (m.graph.mem_inOrder.1 hv)

/-! ## The walk through the candidates -/

/-- What goes, and goes once, is what hangs together with a candidate. The induction is the
recursion of the walk, with one case for a round and one for a candidate that is dropped. -/
theorem sheds_collectFrom (hm : m.automaton.Framed m.graph) (candidates removed : List Vertex) :
    ∃ m' gone, m.collectFrom candidates removed = .ok (removed ++ gone) m' ∧ m.Sheds gone m' ∧
      ∀ v, v ∈ gone ↔ m.automaton.Drifts m.graph candidates v := by
  fun_induction collectFrom m candidates removed with
  | case1 m removed =>
    refine ⟨m, [], ?_, .nil hm, ?_⟩
    · rw [List.append_nil]
    · intro v
      apply iff_of_false List.not_mem_nil
      rintro ⟨c, hc, _⟩
      exact List.not_mem_nil hc
  -- the edges to be cut are all there and noted, so cutting them does not fail
  | case2 m removed v rest doomed h order edges f g hcut =>
    obtain ⟨g', hcut', _⟩ := trims_candidate hm h.1 h.2
    rw [show m.graph.cutAll edges = .ok () g' from hcut'] at hcut
    cases hcut
  | case3 m removed v rest doomed h order edges u g hcut next ih =>
    obtain ⟨hv, hstart⟩ := (isCandidate_iff hm).1 h.1
    have hdoomed : m.graph.Doomed m.automaton doomed := Graph.doomed_doomedBy hm hv hstart h.2
    have hround : m.Sheds order (m.afterRound doomed g) := sheds_round hm hdoomed hcut
    obtain ⟨m', gone, hrest, hsheds, hmem⟩ := ih hround.framed
    refine ⟨m', order ++ gone, ?_, hround.append hsheds, ?_⟩
    · rw [hrest, List.append_assoc]
    · intro w
      rw [List.mem_append, m.graph.mem_inOrder, hmem]
      exact (drifts_round hm hdoomed h.2 (fun u hu => Graph.driftsWith_doomedBy hm hdoomed h.2 hu)
        hround.toTrims (fun x => Graph.mem_targets_kept) w).symm
  | case4 m removed v rest doomed h ih =>
    obtain ⟨m', gone, hrest, hsheds, hmem⟩ := ih hm
    refine ⟨m', gone, hrest, hsheds, ?_⟩
    intro w
    rw [hmem, drifts_drop hm h]

end Machine

end PatternAutomata
