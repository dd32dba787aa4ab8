/-
What collecting leaves behind.

A round of collecting takes out a set of states that is closed against the direction of
edges and does not hold the start state (`Graph.Doomed`). No edge leads from what is kept
into such a set, so what is kept loses only edges that came from the set: the edges out of
every kept state are as before. This holds of the whole walk through the candidates by
induction on its rounds, and the walk never meets an edge that is not noted.
-/
import PatternAutomata.Proofs.Structure.Editing

set_option autoImplicit false

namespace PatternAutomata

namespace Graph

variable {g : Graph} {S : VertexSet}

/-! ## Taking edges away -/

/-- Among states whose tables agree, an edge can be taken away. It does not matter whether it is
there: cutting an edge that is not leaves the graph as it is. Flags stay, and so does all that is
outside of the set. -/
theorem cut_spec (hc : g.Consistent S) {e : Edge} (hs : e.source ∈ S) :
    ∃ h, g.cut e = .ok () h ∧ h.Consistent S ∧
      (∀ v l w, w ∈ h.destinations v l ↔ w ∈ g.destinations v l ∧ (⟨v, l, w⟩ : Edge) ≠ e) ∧
      (∀ v, (h.node v).shell = (g.node v).shell) ∧
      (∀ v, v ∉ S → h.node v = g.node v) := by
  rw [cut]
  by_cases hedge : g.hasEdge e = true
  · have htarget : e.target ∈ g.destinations e.source e.label := hasEdge_iff.1 hedge
    have ht : e.target ∈ S := hc.target_mem _ hs _ _ htarget
    -- the target notes the edge, so taking it off there meets no missing entry
    have hnoted : (g.node e.target).previous.contains e.label = true :=
      Table.contains_of_mem_under ((hc.mirror _ hs _ ht _).2 htarget)
    rw [if_pos hedge, if_pos hnoted]
    refine ⟨_, rfl, hc.unlink hs hedge, fun v l w => mem_destinations_unlink, shell_unlink e, ?_⟩
    intro v hv
    apply node_unlink_of_ne
    · rintro rfl
      exact hv hs
    · rintro rfl
      exact hv ht
  · rw [if_neg hedge]
    refine ⟨g, rfl, hc, ?_, fun _ => rfl, fun _ _ => rfl⟩
    intro v l w
    constructor
    · intro hw
      refine ⟨hw, ?_⟩
      rintro rfl
      exact hedge (hasEdge_iff.2 hw)
    · exact And.left

/-- Cutting fills no place, for both ends of an edge are filled. -/
theorem size_cut {e : Edge} {h : Graph} (hs : e.source < g.size) (ht : e.target < g.size)
    (hcut : g.cut e = .ok () h) : h.size = g.size := by
  rw [cut] at hcut
  split at hcut
  · split at hcut
    · cases hcut
      rw [size_unlink, Nat.max_eq_left hs, Nat.max_eq_left ht]
    · nomatch hcut
  · cases hcut
    rfl

/-- Several edges can be taken away one after the other; all others stay. By induction on the list:
what is said of one cut holds of the rest in the graph that it leaves. -/
theorem cutAll_spec (hc : g.Consistent S) {es : List Edge} (hes : ∀ e ∈ es, e.source ∈ S) :
    ∃ h, g.cutAll es = .ok () h ∧ h.Consistent S ∧
      (∀ v l w, w ∈ h.destinations v l ↔ w ∈ g.destinations v l ∧ (⟨v, l, w⟩ : Edge) ∉ es) ∧
      (∀ v, (h.node v).shell = (g.node v).shell) ∧
      (∀ v, v ∉ S → h.node v = g.node v) := by
  induction es generalizing g with
  | nil => exact ⟨g, rfl, hc, by simp, fun _ => rfl, fun _ _ => rfl⟩
  | cons e es ih =>
    obtain ⟨k, hcut, hk, hdest, hshell, hnode⟩ := cut_spec hc (hes e List.mem_cons_self)
    obtain ⟨h, hcuts, hh, hdest', hshell', hnode'⟩ :=
      ih hk fun e' he' => hes e' (List.mem_cons_of_mem _ he')
    refine ⟨h, ?_, hh, ?_, ?_, ?_⟩
    · rw [cutAll, hcut]
      exact hcuts
    · intro v l w
      rw [hdest', hdest, List.mem_cons, not_or, and_assoc]
    · intro v
      rw [hshell', hshell]
    · intro v hv
      rw [hnode' v hv, hnode v hv]

/-- So cutting several edges fills no place either. -/
theorem size_cutAll {es : List Edge} {h : Graph}
    (hes : ∀ e ∈ es, e.source < g.size ∧ e.target < g.size) (hcut : g.cutAll es = .ok () h) :
    h.size = g.size := by
  induction es generalizing g with
  | nil =>
    cases hcut
    rfl
  | cons e es ih =>
    rw [cutAll] at hcut
    split at hcut
    · next k hk =>
      obtain ⟨hs, ht⟩ := hes e List.mem_cons_self
      have hsize := size_cut hs ht hk
      -- the places of the other edges are still there after the first is cut
      rw [ih ?_ hcut, hsize]
      intro e' he'
      rw [hsize]
      exact hes e' (List.mem_cons_of_mem _ he')
    · nomatch hcut

/-- The edges out of some states, state by state. -/
theorem mem_edgesFrom {vs : List Vertex} {v w : Vertex} {l : Label} :
    ⟨v, l, w⟩ ∈ g.edgesFrom vs ↔ v ∈ vs ∧ w ∈ g.destinations v l := by
  rw [edgesFrom, List.mem_flatMap]
  constructor
  · rintro ⟨u, hu, hmem⟩
    obtain ⟨⟨k, x⟩, hx, heq⟩ := List.mem_map.1 hmem
    obtain ⟨rfl, rfl, rfl⟩ := Edge.mk.inj heq
    exact ⟨hu, mem_outEdges.1 hx⟩
  · rintro ⟨hv, hw⟩
    exact ⟨v, hv, List.mem_map.2 ⟨(l, w), mem_outEdges.2 hw, rfl⟩⟩

/-- What is looked at after a round: the targets of the states that went, as far as they have not
gone themselves. In which order they are looked at does not show here. -/
theorem mem_targets_kept {gone : VertexSet} {w : Vertex} :
    w ∈ (((g.edgesFrom (g.inOrder gone)).map (·.target)).filter fun x => x ∉ gone).reverse ↔
      w ∉ gone ∧ ∃ u ∈ gone, ∃ l, w ∈ g.destinations u l := by
  rw [List.mem_reverse, List.mem_filter, decide_eq_true_eq, and_comm, List.mem_map]
  apply and_congr_right'
  constructor
  · rintro ⟨⟨u, l, _⟩, hedge, rfl⟩
    obtain ⟨hu, hw⟩ := mem_edgesFrom.1 hedge
    exact ⟨u, g.mem_inOrder.1 hu, l, hw⟩
  · rintro ⟨u, hu, l, hw⟩
    exact ⟨⟨u, l, w⟩, mem_edgesFrom.2 ⟨g.mem_inOrder.2 hu, hw⟩, rfl⟩

/-! ## What goes together -/

/-- A set of states that may go: it is a part of an automaton without the start state, and
all that leads to it is in it. -/
structure Doomed (g : Graph) (a : Automaton) (gone : VertexSet) : Prop where
  mem_states : ∀ v ∈ gone, v ∈ a.states
  start_not_mem : a.start ∉ gone
  source_mem : ∀ v ∈ gone, ∀ l, ∀ u ∈ g.origins v l, u ∈ gone

/-- A state that nothing leads to may go alone, unless it is the start state. -/
theorem doomed_singleton {a : Automaton} (ha : a.Framed g) {v : Vertex} (hv : v ∈ a.states)
    (hstart : v ≠ a.start) (hzero : (g.node v).indegree = 0) : g.Doomed a {v} where
  mem_states u hu := by
    rw [OrdSet.mem_singleton.1 hu]
    exact hv
  start_not_mem h := hstart (OrdSet.mem_singleton.1 h).symm
  source_mem u hu l w hw := by
    rw [OrdSet.mem_singleton.1 hu] at hw
    exact absurd hw (ha.consistent.not_mem_origins_of_indegree hv (Int.le_of_eq hzero) l)

/-- The ancestors of a state may go together, unless the start state is one of them. -/
theorem doomed_ancestors {a : Automaton} (ha : a.Framed g) {v : Vertex} (hv : v ∈ a.states)
    (hstart : a.start ∉ g.ancestors {v}) : g.Doomed a (.ofList (g.ancestors {v})) where
  mem_states u hu := by
    -- whatever leads to a state of the automaton is one
    apply forall_mem_ancestors (p := (· ∈ a.states)) _ _ u (OrdSet.mem_ofList.1 hu)
    · intro u hu
      rw [OrdSet.mem_singleton.1 hu]
      exact hv
    · exact fun u hu l w hw => ha.consistent.source_mem u hu l w hw
  start_not_mem h := hstart (OrdSet.mem_ofList.1 h)
  source_mem u hu l w hw :=
    OrdSet.mem_ofList.2 (mem_ancestors_of_mem_origins (OrdSet.mem_ofList.1 hu) hw)

/-- A candidate whose turn it is goes with a set of states that may go: itself alone if nothing
leads to it, and otherwise all its ancestors, which were found not to hold the start state. -/
theorem doomed_doomedBy {a : Automaton} (ha : a.Framed g) {v : Vertex} (hv : v ∈ a.states)
    (hstart : v ≠ a.start) (hgone : v ∈ g.doomedBy v) : g.Doomed a (g.doomedBy v) := by
  rw [doomedBy] at hgone ⊢
  by_cases hzero : (g.node v).indegree = 0
  · rw [if_pos hzero]
    exact doomed_singleton ha hv hstart hzero
  · rw [if_neg hzero] at hgone ⊢
    dsimp only at hgone ⊢
    -- a state with the start among its ancestors is left, so it is not such a candidate
    by_cases hany : (g.ancestors {v}).any (fun w => (g.node w).isStart) = true
    · rw [if_pos hany] at hgone
      exact absurd hgone (OrdSet.not_mem_empty v)
    · rw [if_neg hany]
      apply doomed_ancestors ha hv
      intro h
      apply hany
      rw [List.any_eq_true]
      exact ⟨a.start, h, (ha.isStart_iff _ ha.start_mem).2 rfl⟩

end Graph

namespace Machine

open Automaton

variable {m : Machine}

/-! ## One round -/

/-- What taking states out of an automaton leaves behind: what is kept has the same edges
and flags as before, and so the start state. -/
structure Trims (m m' : Machine) : Prop where
  framed : m'.automaton.Framed m'.graph
  states_sub : ∀ v ∈ m'.automaton.states, v ∈ m.automaton.states
  current_mem : ∀ v ∈ m'.automaton.run.current, v ∈ m.automaton.run.current ∧
    (v ∈ m.automaton.states → v ∈ m'.automaton.states)
  alphabet_eq : m'.automaton.alphabet = m.automaton.alphabet
  strict_eq : m'.automaton.strict = m.automaton.strict
  discarded_eq : m'.automaton.discarded = m.automaton.discarded
  start_eq : m'.automaton.start = m.automaton.start
  destinations_eq : ∀ v ∈ m'.automaton.states, ∀ l,
    m'.graph.destinations v l = m.graph.destinations v l
  shell_eq : ∀ v, (m'.graph.node v).shell = (m.graph.node v).shell
  node_eq : ∀ v, v ∉ m.automaton.states → m'.graph.node v = m.graph.node v
  size_eq : m'.graph.size = m.graph.size

/-- Taking nothing out takes states out. -/
theorem Trims.refl (hm : m.automaton.Framed m.graph) : m.Trims m :=
  ⟨hm, fun _ hv => hv, fun _ hv => ⟨hv, id⟩, rfl, rfl, rfl, rfl, fun _ _ _ => rfl, fun _ => rfl,
    fun _ _ => rfl, rfl⟩

/-- One round after the other takes states out. -/
theorem Trims.trans {m' m'' : Machine} (h : m.Trims m') (h' : m'.Trims m'') : m.Trims m'' where
  framed := h'.framed
  states_sub v hv := h.states_sub v (h'.states_sub v hv)
  current_mem v hv := by
    obtain ⟨hv', hkept'⟩ := h'.current_mem v hv
    obtain ⟨hv'', hkept⟩ := h.current_mem v hv'
    exact ⟨hv'', fun hmem => hkept' (hkept hmem)⟩
  alphabet_eq := h'.alphabet_eq.trans h.alphabet_eq
  strict_eq := h'.strict_eq.trans h.strict_eq
  discarded_eq := h'.discarded_eq.trans h.discarded_eq
  start_eq := h'.start_eq.trans h.start_eq
  destinations_eq v hv l :=
    (h'.destinations_eq v hv l).trans (h.destinations_eq v (h'.states_sub v hv) l)
  shell_eq v := (h'.shell_eq v).trans (h.shell_eq v)
  node_eq v hv := (h'.node_eq v fun hv' => hv (h.states_sub v hv')).trans (h.node_eq v hv)
  size_eq := h'.size_eq.trans h.size_eq

/-- The machine after a round in which some states have gone. -/
def afterRound (m : Machine) (gone : VertexSet) (g : Graph) : Machine :=
  { m with graph := g, automaton := m.automaton.without gone }

/-- What is kept when states that may go are taken out, with all edges out of them. The tables still
agree, because no edge leads from what is kept into what goes, nor, any more, the other way. -/
theorem framed_without (hm : m.automaton.Framed m.graph) {gone : VertexSet}
    (hgone : m.graph.Doomed m.automaton gone) {g : Graph} (hsize : g.size = m.graph.size)
    (hcons : g.Consistent m.automaton.states)
    (hedge : ∀ v l w, w ∈ g.destinations v l ↔ w ∈ m.graph.destinations v l ∧ v ∉ gone)
    (hshell : ∀ v, (g.node v).shell = (m.graph.node v).shell) :
    (m.automaton.without gone).Framed g := by
  have hkept : ∀ v, v ∈ (m.automaton.without gone).states ↔ v ∈ m.automaton.states ∧ v ∉ gone :=
    fun v => OrdSet.mem_sdiff
  -- an edge into a state that goes comes from a state that goes
  have htarget : ∀ v, v ∈ m.automaton.states → v ∉ gone → ∀ l, ∀ w ∈ m.graph.destinations v l,
      w ∉ gone := by
    intro v hv hvg l w hw hwg
    exact hvg (hgone.source_mem w hwg l v
      ((hm.consistent.mirror v hv w (hm.target_mem hv hw) l).2 hw))
  constructor
  · exact (hkept _).2 ⟨hm.start_mem, hgone.start_not_mem⟩
  · intro v hv
    rw [Graph.isStart_eq_of_shell_eq (hshell v)]
    exact hm.isStart_iff v ((hkept v).1 hv).1
  · apply hcons.restrict
    · intro v hv
      exact ((hkept v).1 hv).1
    · intro v hv l w hw
      obtain ⟨hmem, hvg⟩ := (hkept v).1 hv
      have hold := ((hedge v l w).1 hw).1
      exact (hkept w).2 ⟨hm.target_mem hmem hold, htarget v hmem hvg l w hold⟩
    · intro v hv l u hu
      obtain ⟨hmem, hvg⟩ := (hkept v).1 hv
      have humem := hcons.source_mem v hmem l u hu
      exact (hkept u).2 ⟨humem, ((hedge u l v).1 ((hcons.mirror u humem v hmem l).1 hu)).2⟩
  · intro v hv
    rw [hsize]
    exact hm.placed v ((hkept v).1 hv).1

/-- A round takes out states that may go, with all edges out of them, and leaves the rest as it was.
It cannot fail: every edge that is cut leads between states of the automaton, whose tables agree. -/
theorem trims_round (hm : m.automaton.Framed m.graph) {gone : VertexSet}
    (hgone : m.graph.Doomed m.automaton gone) :
    ∃ g, m.graph.cutAll (m.graph.edgesFrom (m.graph.inOrder gone)) = .ok () g ∧
      m.Trims (m.afterRound gone g) := by
  have hsources : ∀ e ∈ m.graph.edgesFrom (m.graph.inOrder gone),
      e.source ∈ m.automaton.states := by
    rintro ⟨v, l, w⟩ he
    exact hgone.mem_states v (m.graph.mem_inOrder.1 (Graph.mem_edgesFrom.1 he).1)
  obtain ⟨g, hcut, hcons, hdest, hshell, hnode⟩ := Graph.cutAll_spec hm.consistent hsources
  -- both ends of each edge are filled places
  have hsize : g.size = m.graph.size := by
    apply Graph.size_cutAll ?_ hcut
    rintro ⟨u, l, w⟩ he
    have hu := hsources _ he
    exact ⟨hm.placed _ hu, hm.placed _ (hm.target_mem hu (Graph.mem_edgesFrom.1 he).2)⟩
  -- the edges that are left are those out of the states that are kept
  have hedge : ∀ v l w, w ∈ g.destinations v l ↔ w ∈ m.graph.destinations v l ∧ v ∉ gone := by
    intro v l w
    rw [hdest, Graph.mem_edgesFrom, Graph.mem_inOrder]
    tauto
  exact ⟨g, hcut, {
    framed := framed_without hm hgone hsize hcons hedge hshell
    states_sub := fun v hv => (OrdSet.mem_sdiff.1 hv).1
    current_mem := by
      intro v hv
      obtain ⟨hcur, hvg⟩ := OrdSet.mem_sdiff.1 hv
      exact ⟨hcur, fun hmem => OrdSet.mem_sdiff.2 ⟨hmem, hvg⟩⟩
    alphabet_eq := rfl
    strict_eq := rfl
    discarded_eq := rfl
    start_eq := rfl
    destinations_eq := by
      intro v hv l
      ext w
      rw [show (m.afterRound gone g).graph = g from rfl, hedge]
      have hvg := (OrdSet.mem_sdiff.1 hv).2
      tauto
    shell_eq := hshell
    node_eq := hnode
    size_eq := hsize }⟩

/-! ## The walk through the candidates -/

/-- A candidate is a state of the automaton other than the start state. The walk asks for the flag,
and in a framed automaton only the start state has it. -/
theorem isCandidate_iff (hm : m.automaton.Framed m.graph) {v : Vertex} :
    m.isCandidate v = true ↔ v ∈ m.automaton.states ∧ v ≠ m.automaton.start := by
  rw [isCandidate, Bool.and_eq_true, decide_eq_true_eq]
  apply and_congr_right
  intro hv
  rw [Bool.not_eq_true', ← Bool.not_eq_true, hm.isStart_iff v hv]

/-- A round for a candidate that may go can be carried out. With this the case of a failed cut is
excluded wherever the recursion of the walk is followed. -/
theorem trims_candidate (hm : m.automaton.Framed m.graph) {v : Vertex}
    (hcand : m.isCandidate v = true) (hgone : v ∈ m.graph.doomedBy v) :
    ∃ g, m.graph.cutAll (m.graph.edgesFrom (m.graph.inOrder (m.graph.doomedBy v))) = .ok () g ∧
      m.Trims (m.afterRound (m.graph.doomedBy v) g) := by
  obtain ⟨hv, hstart⟩ := (isCandidate_iff hm).1 hcand
  exact trims_round hm (Graph.doomed_doomedBy hm hv hstart hgone)

/-- Collecting succeeds and only takes states out. By the recursion of the walk; the candidates may
be any places at all. -/
theorem trims_collectFrom (hm : m.automaton.Framed m.graph) (candidates removed : List Vertex) :
    ∃ m' gone, m.collectFrom candidates removed = .ok gone m' ∧ m.Trims m' := by
  fun_induction collectFrom m candidates removed with
  | case1 m removed => exact ⟨m, removed, rfl, .refl hm⟩
  | case2 m removed v rest gone h order edges f g hcut =>
    -- cutting the edges of a round meets no fault
    obtain ⟨g', hcut', _⟩ := trims_candidate hm h.1 h.2
    rw [show m.graph.cutAll edges = .ok () g' from hcut'] at hcut
    nomatch hcut
  | case3 m removed v rest gone h order edges u g hcut next ih =>
    obtain ⟨g', hcut', hround⟩ := trims_candidate hm h.1 h.2
    rw [show m.graph.cutAll edges = .ok () g' from hcut'] at hcut
    cases hcut
    obtain ⟨m', gone', hrest, htrims⟩ := ih hround.framed
    exact ⟨m', gone', hrest, hround.trans htrims⟩
  | case4 m removed v rest gone h ih => exact ih hm

/-- The same for one candidate, with what is noted of it. -/
theorem trims_collect (hm : m.automaton.Framed m.graph) (v : Vertex) :
    ∃ m' gone, m.collect v = .ok gone m' ∧ m.Trims m' := by
  obtain ⟨m', gone, hcollect, htrims⟩ := trims_collectFrom hm [v] []
  rw [collect, hcollect]
  refine ⟨_, gone, rfl, ?_⟩
  split
  · exact htrims
  · -- an event in the log changes nothing that is looked at
    exact { htrims with }

/-! ## Collecting from a sound automaton -/

/-- Taking states out of a sound automaton is work inside it that leaves the edges and flags
of what is kept as they were, and so the start state. -/
structure Prunes (m m' : Machine) : Prop extends m.Reworks m' where
  start_eq : m'.automaton.start = m.automaton.start
  destinations_eq : ∀ v ∈ m'.automaton.states, ∀ l,
    m'.graph.destinations v l = m.graph.destinations v l
  shell_eq : ∀ v, (m'.graph.node v).shell = (m.graph.node v).shell

/-- What is kept of a sound automaton is sound. Identifiers, symbols and current states can only
have become fewer. -/
theorem Trims.prunes {m' : Machine} (h : m.Trims m') (hm : m.automaton.Sound m.graph) :
    m.Prunes m' where
  sound := by
    apply Sound.of_framed h.framed
    · intro v hv w hw e
      rw [Graph.id_eq_of_shell_eq (h.shell_eq v), Graph.id_eq_of_shell_eq (h.shell_eq w)] at e
      exact hm.id_injective (h.states_sub v hv) (h.states_sub w hw) e
    · intro v hv l w hw hl
      rw [h.destinations_eq v hv] at hw
      rw [h.alphabet_eq]
      exact hm.label_mem v (h.states_sub v hv) l w hw hl
    · rw [h.alphabet_eq]
      exact hm.epsilon_not_mem
    · intro v hv
      obtain ⟨hcur, hkept⟩ := h.current_mem v hv
      exact hkept (hm.current_mem v hcur)
  states_sub := h.states_sub
  alphabet_eq := h.alphabet_eq
  strict_eq := h.strict_eq
  discarded_eq := h.discarded_eq
  node_eq := h.node_eq
  id_eq v := Graph.id_eq_of_shell_eq (h.shell_eq v)
  size_eq := h.size_eq
  start_eq := h.start_eq
  destinations_eq := h.destinations_eq
  shell_eq := h.shell_eq

/-- Collecting from a sound automaton: it succeeds, and what it leaves is sound. -/
theorem collect_spec (hm : m.automaton.Sound m.graph) (v : Vertex) :
    ∃ m' gone, m.collect v = .ok gone m' ∧ m.Prunes m' := by
  obtain ⟨m', gone, hcollect, htrims⟩ := trims_collect hm.framed v
  exact ⟨m', gone, hcollect, htrims.prunes hm⟩

/-! ## Disconnecting -/

/-- An edge between states of the automaton can be cut, and nothing but the edge is missing
afterwards. The automaton stays framed, but it may now have states that it does not reach. -/
theorem framed_cut (hm : m.automaton.Framed m.graph) {e : Edge}
    (hs : e.source ∈ m.automaton.states) (ht : e.target ∈ m.automaton.states) :
    ∃ g, m.graph.cut e = .ok () g ∧ m.automaton.Framed g ∧ g.size = m.graph.size ∧
      (∀ v l w, w ∈ g.destinations v l ↔
        w ∈ m.graph.destinations v l ∧ (⟨v, l, w⟩ : Edge) ≠ e) ∧
      (∀ v, (g.node v).shell = (m.graph.node v).shell) ∧
      ∀ v, v ∉ m.automaton.states → g.node v = m.graph.node v := by
  obtain ⟨g, hcut, hcons, hdest, hshell, hnode⟩ := Graph.cut_spec hm.consistent hs
  have hsize : g.size = m.graph.size :=
    Graph.size_cut (hm.placed _ hs) (hm.placed _ ht) hcut
  refine ⟨g, hcut, ⟨hm.start_mem, ?_, hcons, ?_⟩, hsize, hdest, hshell, hnode⟩
  · intro v hv
    rw [Graph.isStart_eq_of_shell_eq (hshell v)]
    exact hm.isStart_iff v hv
  · rw [hsize]
    exact hm.placed

/-- After an edge is cut, its target is looked at, for that is all that may have come to be
unreached. -/
theorem disconnect_eq {e : Edge} {g : Graph} (hcut : m.graph.cut e = .ok () g) :
    m.disconnect e = collect { m with graph := g } e.target := by
  rw [disconnect, hcut]

/-- Disconnecting states of a sound automaton: the machine without the edge, and then without what
is collected. The graph in between is named, because statements about words compare with it. -/
theorem disconnect_spec (hm : m.automaton.Sound m.graph) {e : Edge}
    (hs : e.source ∈ m.automaton.states) (ht : e.target ∈ m.automaton.states) :
    ∃ g m' gone, m.disconnect e = .ok gone m' ∧
      m.Reworks { m with graph := g } ∧ Prunes { m with graph := g } m' ∧
      (∀ v l w, w ∈ g.destinations v l ↔
        w ∈ m.graph.destinations v l ∧ (⟨v, l, w⟩ : Edge) ≠ e) ∧
      ∀ v, (g.node v).shell = (m.graph.node v).shell := by
  obtain ⟨g, hcut, hframed, hsize, hdest, hshell, hnode⟩ := framed_cut hm.framed hs ht
  -- the edge is cut before anything is collected, which needs a sound automaton
  have hsound : m.automaton.Sound g := by
    apply Sound.of_framed hframed
    · intro v hv w hw h
      rw [Graph.id_eq_of_shell_eq (hshell v), Graph.id_eq_of_shell_eq (hshell w)] at h
      exact hm.id_injective hv hw h
    · intro v hv l w hw hl
      exact hm.label_mem v hv l w ((hdest v l w).1 hw).1 hl
    · exact hm.epsilon_not_mem
    · exact hm.current_mem
  obtain ⟨m', gone, hcollect, hprunes⟩ := collect_spec (m := { m with graph := g }) hsound e.target
  refine ⟨g, m', gone, (disconnect_eq hcut).trans hcollect, ?_, hprunes, hdest, hshell⟩
  exact {
    sound := hsound
    states_sub := fun _ hv => hv
    alphabet_eq := rfl
    strict_eq := rfl
    discarded_eq := rfl
    node_eq := hnode
    id_eq := fun v => Graph.id_eq_of_shell_eq (hshell v)
    size_eq := hsize }

end Machine

end PatternAutomata
