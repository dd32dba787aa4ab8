/-
Edits of machines that mirror each other.

An edit that succeeds on the first of two machines succeeds on the second one as well, if it
is made there at the new names of the places, and leaves machines that mirror each other
(`Machine.Mirrors`). Which states are visited, and in which order, is decided by identifiers
and by tables, which are the same in both.

How far the automata have read makes no difference to any edit, so it is not compared.
-/
import PatternAutomata.Automaton.Epsilon
import PatternAutomata.Automaton.Snapshot
import PatternAutomata.Proofs.Renaming.Changes

set_option autoImplicit false

namespace PatternAutomata

variable {whole : Prop} {ρ : Vertex → Vertex}

/-! ## Mirrored machines

The automata have the same flags and, if the graphs are mirrored as a whole, the same alphabet. The
runs and the log are left out. -/

/-- The second automaton has the states of the first one under their new names. -/
structure Automaton.Mirrors (whole : Prop) (ρ : Vertex → Vertex) (a b : Automaton) : Prop where
  start_eq : b.start = ρ a.start
  states_eq : b.states = a.states.image ρ
  alphabet_eq : whole → b.alphabet = a.alphabet
  strict_eq : b.strict = a.strict
  discarded_eq : b.discarded = a.discarded

/-- The second machine has the states of the first one under their new names, and these look
the same. -/
structure Machine.Mirrors (whole : Prop) (ρ : Vertex → Vertex) (m m' : Machine) : Prop where
  graph : m.graph.Mirrors whole ρ m'.graph
  automaton : m.automaton.Mirrors whole ρ m'.automaton

/-! ## Cutting edges

Cutting fails if an edge is not there. Both graphs have corresponding edges, so it fails in both or
in neither; only the case that it succeeds is needed. -/

namespace Graph.Mirrors

variable {g h k : Graph}

/-- Cutting an edge goes alike. -/
theorem cut (hm : g.Mirrors whole ρ h) {e : Edge} (hcut : g.cut e = .ok () k) :
    ∃ k', h.cut (e.rename ρ) = .ok () k' ∧ k.Mirrors whole ρ k' := by
  have hnoted : (h.node (ρ e.target)).previous.contains e.label =
      (g.node e.target).previous.contains e.label := by
    rw [hm.node_eq]
    exact Table.contains_rename ..
  rw [Graph.cut] at hcut ⊢
  rw [hm.hasEdge_eq]
  by_cases hedge : g.hasEdge e = true
  · rw [if_pos hedge] at hcut ⊢
    show ∃ k', (if (h.node (ρ e.target)).previous.contains e.label then _ else _) = _ ∧ _
    rw [hnoted]
    split at hcut
    · next hprevious =>
      cases hcut
      rw [if_pos hprevious]
      exact ⟨_, rfl, hm.unlink e⟩
    · cases hcut
  · rw [if_neg hedge] at hcut ⊢
    cases hcut
    exact ⟨h, rfl, hm⟩

/-- Cutting several edges one after the other goes alike, by induction on the list. -/
theorem cutAll (hm : g.Mirrors whole ρ h) {es : List Edge} (hcut : g.cutAll es = .ok () k) :
    ∃ k', h.cutAll (es.map (Edge.rename ρ)) = .ok () k' ∧ k.Mirrors whole ρ k' := by
  induction es generalizing g h with
  | nil =>
    cases hcut
    exact ⟨h, rfl, hm⟩
  | cons e es ih =>
    rw [Graph.cutAll] at hcut
    split at hcut
    · next g' hfirst =>
      obtain ⟨h', hfirst', hm'⟩ := hm.cut hfirst
      obtain ⟨k', hrest, hk⟩ := ih hm' hcut
      refine ⟨k', ?_, hk⟩
      rw [List.map_cons, Graph.cutAll, hfirst']
      exact hrest
    · cases hcut

/-- The same states are doomed. What is doomed depends on searching backwards and on start flags
only. -/
theorem doomedBy_eq (hm : g.Mirrors whole ρ h) (v : Vertex) :
    h.doomedBy (ρ v) = (g.doomedBy v).image ρ := by
  have hsources : ∀ w, w ∈ h.ancestors {ρ v} ↔ ∃ u ∈ g.ancestors {v}, ρ u = w := fun w => by
    rw [← OrdSet.image_singleton, hm.mem_ancestors_iff]
  have hstart : (h.ancestors {ρ v}).any (fun w => (h.node w).isStart) =
      (g.ancestors {v}).any fun w => (g.node w).isStart := by
    rw [Bool.eq_iff_iff, List.any_eq_true, List.any_eq_true]
    constructor
    · rintro ⟨w, hw, hflag⟩
      obtain ⟨u, hu, rfl⟩ := (hsources w).1 hw
      exact ⟨u, hu, hm.isStart_eq u ▸ hflag⟩
    · rintro ⟨u, hu, hflag⟩
      exact ⟨ρ u, (hsources _).2 ⟨u, hu, rfl⟩, (hm.isStart_eq u).trans hflag⟩
  simp only [doomedBy, hm.indegree_eq, hstart]
  split
  · rfl
  · split
    · rfl
    · ext w
      rw [OrdSet.mem_ofList, hsources, OrdSet.mem_image]
      simp only [OrdSet.mem_ofList]

end Graph.Mirrors

namespace Machine.Mirrors

variable {m m' s : Machine}

/-! ## Changing edges and flags -/

/-- The start state is the new name of the old start state. -/
theorem start_eq (hm : m.Mirrors whole ρ m') : m'.automaton.start = ρ m.automaton.start :=
  hm.automaton.start_eq

/-- The states are the new names of the old states. -/
theorem states_eq (hm : m.Mirrors whole ρ m') :
    m'.automaton.states = m.automaton.states.image ρ :=
  hm.automaton.states_eq

/-- A place belongs to the first automaton if its new name belongs to the second one. -/
theorem mem_states_iff (hm : m.Mirrors whole ρ m') {v : Vertex} :
    ρ v ∈ m'.automaton.states ↔ v ∈ m.automaton.states := by
  rw [hm.states_eq]
  exact OrdSet.mem_image_iff hm.graph.strictMono

/-- An edge that is added in both machines, between corresponding places, is the same change. -/
theorem connect (hm : m.Mirrors whole ρ m') (e : Edge) :
    (m.connect e).Mirrors whole ρ (m'.connect (e.rename ρ)) := by
  have hgraph := hm.graph.link e
  rw [← graph_connect, ← graph_connect] at hgraph
  refine ⟨hgraph, ?_⟩
  rw [Machine.connect, Machine.connect]
  constructor
  · exact hm.start_eq
  · simp only [OrdSet.image_insert, hm.states_eq, Edge.rename]
  · intro hwhole
    simp only [hm.automaton.alphabet_eq hwhole, Edge.rename]
  · exact hm.automaton.strict_eq
  · exact hm.automaton.discarded_eq

/-- Several edges are added one after the other, by induction on the list. -/
theorem connectAll (hm : m.Mirrors whole ρ m') (es : List Edge) :
    (m.connectAll es).Mirrors whole ρ (m'.connectAll (es.map (Edge.rename ρ))) := by
  induction es generalizing m m' with
  | nil => exact hm
  | cons e es ih =>
    rw [List.map_cons, connectAll_cons, connectAll_cons]
    exact ih (hm.connect e)

/-- Setting a start flag goes alike. -/
theorem flagStart (hm : m.Mirrors whole ρ m') (v : Vertex) (flag : Bool) :
    (m.flagStart v flag).Mirrors whole ρ (m'.flagStart (ρ v) flag) :=
  ⟨hm.graph.flagStart v flag, hm.automaton⟩

/-- Setting an accepting flag goes alike. -/
theorem flagAccepting (hm : m.Mirrors whole ρ m') (v : Vertex) (flag : Bool) :
    (m.flagAccepting v flag).Mirrors whole ρ (m'.flagAccepting (ρ v) flag) :=
  ⟨hm.graph.flagAccepting v flag, hm.automaton⟩

/-- The start is moved from one place to another by two start flags and the start of the
automaton. -/
theorem shiftStart (hm : m.Mirrors whole ρ m') (former new : Vertex) :
    (m.shiftStart former new).Mirrors whole ρ (m'.shiftStart (ρ former) (ρ new)) where
  graph := (hm.graph.flagStart former false).flagStart new true
  automaton := { hm.automaton with
    start_eq := rfl
    states_eq := by
      show m'.automaton.states.insert (ρ new) = _
      rw [hm.states_eq, ← OrdSet.image_insert]
      rfl }

/-- Moving the start succeeds at the same places: it asks whether the former place is the start
state and is flagged as one. -/
theorem moveStart (hm : m.Mirrors whole ρ m') {former new : Vertex}
    (hmove : m.moveStart former new = .ok () s) :
    ∃ s', m'.moveStart (ρ former) (ρ new) = .ok () s' ∧ s.Mirrors whole ρ s' := by
  rw [Machine.moveStart] at hmove
  split at hmove
  · next hformer =>
    cases hmove
    refine ⟨_, ?_, hm.shiftStart former new⟩
    rw [Machine.moveStart, if_pos]
    exact ⟨(hm.graph.isStart_eq former).trans hformer.1, by rw [hm.start_eq, ← hformer.2]⟩
  · cases hmove

/-- A state accepts in addition where another one does. -/
theorem acceptLike (hm : m.Mirrors whole ρ m') (other target : Vertex) :
    (m.acceptLike other target).Mirrors whole ρ (m'.acceptLike (ρ other) (ρ target)) := by
  rw [Machine.acceptLike, Machine.acceptLike, hm.graph.isAccepting_eq]
  split
  · exact hm.flagAccepting target true
  · exact hm

/-- The edges of one state are copied onto another one. Targets may be exchanged on the way, as long
as this commutes with renaming; merging does so and absorbing does not. -/
theorem copyEdges (hm : m.Mirrors whole ρ m') (other target : Vertex) {f k : Vertex → Vertex}
    (hf : ∀ w, k (ρ w) = ρ (f w)) :
    ((m.acceptLike other target).connectAll
      ((m.graph.outEdges other).map fun (l, w) => ⟨target, l, f w⟩)).Mirrors whole ρ
    ((m'.acceptLike (ρ other) (ρ target)).connectAll
      ((m'.graph.outEdges (ρ other)).map fun (l, w) => ⟨ρ target, l, k w⟩)) := by
  have hcopies : (m'.graph.outEdges (ρ other)).map (fun (l, w) => (⟨ρ target, l, k w⟩ : Edge)) =
      ((m.graph.outEdges other).map fun (l, w) => ⟨target, l, f w⟩).map (Edge.rename ρ) := by
    rw [hm.graph.outEdges_eq, List.map_map, List.map_map]
    apply List.map_congr_left
    intro e _
    simp only [Function.comp_apply, Edge.rename, hf]
  rw [hcopies]
  exact (hm.acceptLike other target).connectAll _

/-- Absorbing a state goes alike. -/
theorem absorb (hm : m.Mirrors whole ρ m') (other target : Vertex) :
    (m.absorb other target).Mirrors whole ρ (m'.absorb (ρ other) (ρ target)) := by
  rw [Machine.absorb, Machine.absorb]
  by_cases heq : other = target
  · rw [if_pos heq, if_pos (congrArg ρ heq)]
    exact hm
  · rw [if_neg heq, if_neg fun h => heq (hm.graph.strictMono.injective h)]
    exact hm.copyEdges (f := fun w => w) (k := fun w => w) other target fun _ => rfl

/-- Merging a state goes alike: its edges are copied with its own place exchanged for the other one,
and the start moves if it was there. No two places have the same name, so both machines find the two
places equal or neither does. -/
theorem merge (hm : m.Mirrors whole ρ m') {other target : Vertex}
    (hmerge : m.merge other target = .ok () s) :
    ∃ s', m'.merge (ρ other) (ρ target) = .ok () s' ∧ s.Mirrors whole ρ s' := by
  have hinj := hm.graph.strictMono.injective
  rw [Machine.merge] at hmerge ⊢
  by_cases heq : other = target
  · rw [if_pos heq] at hmerge
    cases hmerge
    rw [if_pos (congrArg ρ heq)]
    exact ⟨m', rfl, hm⟩
  · rw [if_neg heq] at hmerge
    rw [if_neg fun h => heq (hinj h)]
    -- exchanging one place for another commutes with renaming
    have hcopied := hm.copyEdges (f := fun w => if w = other then target else w)
      (k := fun w => if w = ρ other then ρ target else w) other target (by
        intro w
        by_cases hw : w = other
        · rw [if_pos hw, if_pos (congrArg ρ hw)]
        · rw [if_neg hw, if_neg fun h => hw (hinj h)])
    simp only at hmerge ⊢
    rw [hcopied.graph.isStart_eq]
    split at hmerge
    · next hstart =>
      rw [if_pos hstart]
      exact hcopied.moveStart hmerge
    · next hstart =>
      cases hmerge
      rw [if_neg hstart]
      exact ⟨_, rfl, hcopied⟩

/-! ## Joining -/

/-- Taking over another automaton goes alike, if this one has its states under their new names
too. -/
theorem takeOver (hm : m.Mirrors whole ρ m') {a b : Automaton} (hab : a.Mirrors whole ρ b) :
    (m.takeOver a).Mirrors whole ρ (m'.takeOver b) where
  graph := hm.graph
  automaton := { hm.automaton with
    states_eq := by
      show m'.automaton.states ∪ b.states = _
      rw [hm.states_eq, hab.states_eq, ← OrdSet.image_union]
      rfl
    alphabet_eq := fun hwhole => by
      show m'.automaton.alphabet ∪ b.alphabet = _
      rw [hm.automaton.alphabet_eq hwhole, hab.alphabet_eq hwhole]
      rfl }

/-- Flags are changed at some states in turn. -/
theorem flagAllAccepting (hm : m.Mirrors whole ρ m') (vs : List Vertex) (flag : Bool) :
    (vs.foldl (fun m v => m.flagAccepting v flag) m).Mirrors whole ρ
      ((vs.map ρ).foldl (fun m v => m.flagAccepting v flag) m') := by
  induction vs generalizing m m' with
  | nil => exact hm
  | cons v vs ih => exact ih (hm.flagAccepting v flag)

/-- The accepting states are renamed. -/
theorem accepting_eq (hm : m.Mirrors whole ρ m') :
    m'.automaton.accepting m'.graph = (m.automaton.accepting m.graph).image ρ := by
  rw [Automaton.accepting, hm.states_eq]
  apply OrdSet.image_filter
  intro v _
  exact hm.graph.isAccepting_eq v

/-- The accepting states are listed in the same order. -/
theorem finals_eq (hm : m.Mirrors whole ρ m') :
    m'.graph.inOrder (m'.automaton.accepting m'.graph) =
      (m.graph.inOrder (m.automaton.accepting m.graph)).map ρ := by
  rw [hm.accepting_eq, hm.graph.inOrder_eq]

/-- Appending another automaton goes alike: the edges from the accepting states are added in the
same order, and then the flags of these are cleared. -/
theorem append (hm : m.Mirrors whole ρ m') {a b : Automaton} (hab : a.Mirrors whole ρ b) :
    (m.append a).Mirrors whole ρ (m'.append b) := by
  have hjoined := ((hm.takeOver hab).flagStart a.start false).connectAll
    ((m.graph.inOrder (m.automaton.accepting m.graph)).map fun v => ⟨v, .epsilon, a.start⟩)
  have hlinked := hjoined.flagAllAccepting
    (m.graph.inOrder (m.automaton.accepting m.graph)) false
  rw [List.map_map, ← hab.start_eq] at hlinked
  simp only [Machine.append, hm.finals_eq, List.map_map]
  have hedges : (fun v => (⟨v, .epsilon, b.start⟩ : Edge)) ∘ ρ =
      Edge.rename ρ ∘ fun v => ⟨v, .epsilon, a.start⟩ := by
    funext v
    simp only [Function.comp_apply, Edge.rename, hab.start_eq]
  rw [hedges]
  exact hlinked

/-! ## Collecting

Which states are collected is decided by what is reached from the start state, and in which order
by identifiers. Both are kept by renaming. -/

/-- A place is asked about in both machines or in neither. -/
theorem isCandidate_eq (hm : m.Mirrors whole ρ m') (v : Vertex) :
    m'.isCandidate (ρ v) = m.isCandidate v := by
  rw [Machine.isCandidate, Machine.isCandidate, hm.graph.isStart_eq]
  simp only [hm.mem_states_iff]

/-- Taking corresponding states out of the automata goes alike. -/
theorem without (hm : m.Mirrors whole ρ m') {g h : Graph} (hgh : g.Mirrors whole ρ h)
    (gone : VertexSet) :
    Machine.Mirrors whole ρ { m with graph := g, automaton := m.automaton.without gone }
      { m' with graph := h, automaton := m'.automaton.without (gone.image ρ) } where
  graph := hgh
  automaton := { hm.automaton with
    states_eq := by
      show m'.automaton.states \ gone.image ρ = _
      rw [hm.states_eq, ← OrdSet.image_sdiff hm.graph.strictMono]
      rfl }

/-- What edges lead to outside of a set. These are the places to ask about next. -/
theorem candidates_eq (hm : m.Mirrors whole ρ m') (es : List Edge) (gone : VertexSet) :
    ((es.map (Edge.rename ρ)).map (·.target)).filter (fun w => w ∉ gone.image ρ) =
      ((es.map (·.target)).filter fun w => w ∉ gone).map ρ := by
  rw [List.map_map, List.filter_map, List.filter_map, List.map_map]
  have hp : ((fun w => decide (w ∉ gone.image ρ)) ∘ (·.target) ∘ Edge.rename ρ) =
      (fun w => decide (w ∉ gone)) ∘ (·.target) := by
    funext e
    exact decide_eq_decide.2 (not_congr (OrdSet.mem_image_iff hm.graph.strictMono))
  rw [hp]
  rfl

/-- Collecting goes through the same candidates in both machines. By induction on its calls: a
candidate is doomed in both machines or in neither, the same edges are cut, and the places that
these led to are asked about next in the same order. -/
theorem collectFrom (hm : m.Mirrors whole ρ m') {candidates removed gone : List Vertex}
    (hcollect : m.collectFrom candidates removed = .ok gone s) :
    ∃ s', m'.collectFrom (candidates.map ρ) (removed.map ρ) = .ok (gone.map ρ) s' ∧
      s.Mirrors whole ρ s' := by
  fun_induction Machine.collectFrom m candidates removed generalizing m' with
  | case1 m removed =>
    cases hcollect
    rw [List.map_nil, Machine.collectFrom]
    exact ⟨m', rfl, hm⟩
  | case2 => cases hcollect
  | case3 m removed v rest doomed h order edges u g hcut next =>
    rename_i ih
    have hdoomed : m'.graph.doomedBy (ρ v) = doomed.image ρ := hm.graph.doomedBy_eq v
    have horder : m'.graph.inOrder (doomed.image ρ) = order.map ρ := hm.graph.inOrder_eq doomed
    have hedges : m'.graph.edgesFrom (order.map ρ) = edges.map (Edge.rename ρ) :=
      hm.graph.edgesFrom_eq order
    obtain ⟨g', hcut', hg⟩ := hm.graph.cutAll hcut
    obtain ⟨s', hrest, hs⟩ := ih (hm.without hg doomed) hcollect
    refine ⟨s', ?_, hs⟩
    -- whether a candidate goes is decided alike
    have hcandidate : m'.isCandidate (ρ v) = true ∧ ρ v ∈ doomed.image ρ := by
      rw [hm.isCandidate_eq, OrdSet.mem_image_iff hm.graph.strictMono]
      exact h
    rw [List.map_append, List.map_reverse, List.map_append, ← hm.candidates_eq] at hrest
    rw [List.map_cons, Machine.collectFrom]
    simp only [hdoomed, horder, hedges, if_pos hcandidate, hcut']
    exact hrest
  | case4 m removed v rest doomed h =>
    rename_i ih
    obtain ⟨s', hrest, hs⟩ := ih hm hcollect
    refine ⟨s', ?_, hs⟩
    have hdoomed : m'.graph.doomedBy (ρ v) = doomed.image ρ := hm.graph.doomedBy_eq v
    have hcandidate : ¬(m'.isCandidate (ρ v) = true ∧ ρ v ∈ doomed.image ρ) := by
      rw [hm.isCandidate_eq, OrdSet.mem_image_iff hm.graph.strictMono]
      exact h
    rw [List.map_cons, Machine.collectFrom]
    simp only [hdoomed, if_neg hcandidate]
    exact hrest

/-- The log is not compared. So what is noted in it may be different things in the two machines. -/
theorem noted (hm : m.Mirrors whole ρ m') (e e' : Event) :
    (m.note e).Mirrors whole ρ (m'.note e') :=
  ⟨hm.graph, hm.automaton⟩

/-- Collecting from a place removes the new names of what it removes from the first machine. -/
theorem collect (hm : m.Mirrors whole ρ m') {v : Vertex} {gone : List Vertex}
    (hcollect : m.collect v = .ok gone s) :
    ∃ s', m'.collect (ρ v) = .ok (gone.map ρ) s' ∧ s.Mirrors whole ρ s' := by
  rw [Machine.collect] at hcollect
  split at hcollect
  · next k hfrom =>
    obtain ⟨k', hfrom', hk⟩ := hm.collectFrom hfrom
    cases hcollect
    rw [List.map_singleton, List.map_nil] at hfrom'
    rw [Machine.collect, hfrom']
    refine ⟨_, rfl, ?_⟩
    cases gone with
    | nil => exact hk
    | cons => exact hk.noted ..
  · cases hcollect

/-- Disconnecting an edge goes alike, together with the collecting that follows it. -/
theorem disconnect (hm : m.Mirrors whole ρ m') {e : Edge} {gone : List Vertex}
    (hcut : m.disconnect e = .ok gone s) :
    ∃ s', m'.disconnect (e.rename ρ) = .ok (gone.map ρ) s' ∧ s.Mirrors whole ρ s' := by
  rw [Machine.disconnect] at hcut
  split at hcut
  · next g hg =>
    obtain ⟨h, hh, hgh⟩ := hm.graph.cut hg
    rw [Machine.disconnect, hh]
    have hcutted : Machine.Mirrors whole ρ { m with graph := g } { m' with graph := h } :=
      ⟨hgh, hm.automaton⟩
    exact hcutted.collect hcut
  · cases hcut

/-! ## Removing the edges that read nothing

Of the targets that are left, the one with the least identifier is treated next, so the treatment
takes the same course in both machines. -/

/-- A state stands for another one in both graphs or in neither, as this depends on one entry of its
table and on two flags. -/
theorem isAlias_eq {g h : Graph} (hm : g.Mirrors whole ρ h) (v target : Vertex) :
    isAlias h (ρ v) (ρ target) = isAlias g v target := by
  have hinj : Function.Injective fun e : Label × VertexSet => (e.1, e.2.image ρ) := by
    rintro ⟨k, vs⟩ ⟨l, ws⟩ heq
    obtain ⟨hkl, hvw⟩ := Prod.mk.inj heq
    rw [Prod.mk.injEq]
    exact ⟨hkl, OrdSet.image_injective hm.strictMono hvw⟩
  -- the table has a single entry in both graphs or in neither
  have honly : (h.node (ρ v)).next.entries = [(.epsilon, {ρ target})] ↔
      (g.node v).next.entries = [(.epsilon, {target})] := by
    rw [hm.node_eq]
    exact (List.map_injective_iff.2 hinj).eq_iff (b := [(.epsilon, {target})])
  rw [isAlias, isAlias, hm.isAccepting_eq, hm.isAccepting_eq]
  simp only [honly]

/-- Folding a target in merges in both machines or absorbs in both, and counts it in the same
way. -/
theorem foldIn (hm : m.Mirrors whole ρ m') {v target : Vertex} {n n' : FoldCount}
    (hfold : m.foldIn v target n = .ok n' s) :
    ∃ s', m'.foldIn (ρ v) (ρ target) n = .ok n' s' ∧ s.Mirrors whole ρ s' := by
  rw [Machine.foldIn] at hfold ⊢
  rw [isAlias_eq hm.graph]
  split at hfold
  · next halias =>
    rw [if_pos halias]
    split at hfold
    · next hmerge =>
      obtain ⟨s', hmerge', hs⟩ := hm.merge hmerge
      cases hfold
      rw [hmerge']
      exact ⟨s', rfl, hs⟩
    · cases hfold
  · next halias =>
    cases hfold
    rw [if_neg halias]
    exact ⟨_, rfl, hm.absorb target v⟩

/-- The target that is treated next is the one with the least identifier. -/
theorem map_silentTarget? (g : Graph) (v : Vertex) :
    (silentTarget? g v).map Subtype.val = (g.inOrder (g.destinations v .epsilon)).head? := by
  rw [silentTarget?, ← List.head?_map, List.attachWith_map_subtype_val]

/-- The target that is treated next in the second graph is the new name of the one in the first
graph. -/
theorem silentTarget?_eq {g h : Graph} (hm : g.Mirrors whole ρ h) (v : Vertex) :
    (silentTarget? h (ρ v)).map Subtype.val = ((silentTarget? g v).map Subtype.val).map ρ := by
  rw [map_silentTarget?, map_silentTarget?, hm.destinations_eq, hm.inOrder_eq, List.head?_map]

/-- If no target is left in the first graph, none is in the second. -/
theorem silentTarget?_eq_none_of_mirrors {g h : Graph} (hm : g.Mirrors whole ρ h) {v : Vertex}
    (hnone : silentTarget? g v = none) : silentTarget? h (ρ v) = none := by
  have hmap := silentTarget?_eq hm v
  rwa [hnone, Option.map_none, Option.map_none, Option.map_eq_none_iff] at hmap

/-- A target that is found comes with the fact that an edge leads there, which holds of its new
name. -/
theorem silentTarget?_eq_some_of_mirrors {g h : Graph} (hm : g.Mirrors whole ρ h) {v : Vertex}
    {target : { w // w ∈ g.destinations v .epsilon }} (hsome : silentTarget? g v = some target) :
    ∃ hmem, silentTarget? h (ρ v) = some ⟨ρ target, hmem⟩ := by
  have hmap := silentTarget?_eq hm v
  rw [hsome, Option.map_some, Option.map_some, Option.map_eq_some_iff] at hmap
  obtain ⟨⟨w, hw⟩, hsome', rfl⟩ := hmap
  exact ⟨hw, hsome'⟩

/-- Treating one state goes alike. By induction on the calls: each of them finds corresponding
targets, folds them in or not, as the pending ones correspond as well, and disconnects corresponding
edges. -/
theorem removeEpsilonsAt (hm : m.Mirrors whole ρ m') {v : Vertex} {pending : VertexSet}
    {n n' : FoldCount} (hrun : m.removeEpsilonsAt v pending n = .ok n' s) :
    ∃ s', m'.removeEpsilonsAt (ρ v) (pending.image ρ) n = .ok n' s' ∧ s.Mirrors whole ρ s' := by
  fun_induction Machine.removeEpsilonsAt m v pending n generalizing m' with
  | case1 m pending n hv hnone =>
    cases hrun
    rw [Machine.removeEpsilonsAt, if_pos (hm.mem_states_iff.2 hv)]
    simp only [silentTarget?_eq_none_of_mirrors hm.graph hnone]
    exact ⟨m', rfl, hm⟩
  | case2 => cases hrun
  | case3 => cases hrun
  | case4 m pending n hv target htarget hsome hpending n₁ k hfold r k' hcut ih =>
    -- the target is pending, so it is folded in before its edge is cut
    obtain ⟨_, hsome'⟩ := silentTarget?_eq_some_of_mirrors hm.graph hsome
    obtain ⟨l, hfold', hl⟩ := hm.foldIn hfold
    obtain ⟨l', hcut', hl'⟩ := hl.disconnect hcut
    obtain ⟨s', hrest, hs⟩ := ih hl' hrun
    refine ⟨s', ?_, hs⟩
    rw [OrdSet.image_erase hm.graph.strictMono] at hrest
    rw [Machine.removeEpsilonsAt, if_pos (hm.mem_states_iff.2 hv)]
    simp only [Edge.rename] at hcut'
    simp only [hsome', if_pos ((OrdSet.mem_image_iff hm.graph.strictMono).2 hpending), hfold',
      hcut']
    exact hrest
  | case5 => cases hrun
  | case6 m pending n hv target htarget hsome hpending _ cut gone k hcut =>
    rename_i ih
    obtain ⟨_, hsome'⟩ := silentTarget?_eq_some_of_mirrors hm.graph hsome
    obtain ⟨l, hcut', hl⟩ := hm.disconnect (e := ⟨v, .epsilon, target⟩) hcut
    have hleft : leftBy cut = k := by rw [hcut, leftBy]
    rw [hleft] at ih hrun
    obtain ⟨s', hrest, hs⟩ := ih hl hrun
    refine ⟨s', ?_, hs⟩
    -- the target was folded in before, so its edge is only cut
    have hpending' : ¬ρ target ∈ pending.image ρ :=
      fun h => hpending ((OrdSet.mem_image_iff hm.graph.strictMono).1 h)
    rw [Machine.removeEpsilonsAt, if_pos (hm.mem_states_iff.2 hv)]
    simp only [Edge.rename] at hcut'
    simp only [hsome', if_neg hpending', hcut', leftBy]
    exact hrest
  | case7 m pending n hv =>
    cases hrun
    rw [Machine.removeEpsilonsAt, if_neg fun h => hv (hm.mem_states_iff.1 h)]
    exact ⟨m', rfl, hm⟩

/-- Treating states in turn goes alike, by induction on the list. -/
theorem removeEpsilonsFrom (hm : m.Mirrors whole ρ m') {vs : List Vertex} {n n' : FoldCount}
    (hrun : m.removeEpsilonsFrom vs n = .ok n' s) :
    ∃ s', m'.removeEpsilonsFrom (vs.map ρ) n = .ok n' s' ∧ s.Mirrors whole ρ s' := by
  induction vs generalizing m m' n with
  | nil =>
    cases hrun
    exact ⟨m', rfl, hm⟩
  | cons v vs ih =>
    rw [Machine.removeEpsilonsFrom] at hrun
    split at hrun
    · cases hrun
    · next n₁ k hat =>
      obtain ⟨k', hat', hk⟩ := hm.removeEpsilonsAt hat
      obtain ⟨s', hrest, hs⟩ := ih hk hrun
      refine ⟨s', ?_, hs⟩
      -- what can be reached without reading has been renamed as well
      rw [OrdSet.image_erase hm.graph.strictMono, ← hm.graph.closure_eq, OrdSet.image_singleton]
        at hat'
      rw [List.map_cons, Machine.removeEpsilonsFrom, hat']
      exact hrest

/-- Going back to the beginning changes only the run, which is not compared. -/
theorem reset (hm : m.Mirrors whole ρ m') : m.reset.Mirrors whole ρ m'.reset :=
  ⟨hm.graph, { hm.automaton with }⟩

/-- Removing all edges that read nothing goes alike. -/
theorem removeEpsilons (hm : m.Mirrors whole ρ m') (hrun : m.removeEpsilons = .ok () s) :
    ∃ s', m'.removeEpsilons = .ok () s' ∧ s.Mirrors whole ρ s' := by
  rw [Machine.removeEpsilons] at hrun
  split at hrun
  · cases hrun
  · next n k hfrom =>
    obtain ⟨k', hfrom', hk⟩ := hm.removeEpsilonsFrom hfrom
    cases hrun
    rw [List.map_reverse, ← hm.graph.inOrder_eq, ← hm.states_eq] at hfrom'
    rw [Machine.removeEpsilons, hfrom']
    exact ⟨_, rfl, (hk.noted _ _).reset⟩

end Machine.Mirrors

/-! ## What is seen -/

namespace Graph.Mirrors

variable {g h : Graph}

/-- A table is shown with identifiers, which renaming keeps. -/
theorem tableView_rename (hm : g.Mirrors whole ρ h) (t : Table) :
    h.tableView (t.rename ρ) = g.tableView t := by
  have hentries : (t.rename ρ).entries = t.entries.map fun e => (e.1, e.2.image ρ) := rfl
  rw [tableView, hentries, List.map_map, tableView]
  apply List.map_congr_left
  intro e _
  exact congrArg (e.1, ·) (hm.ids_eq e.2)

/-- A state is shown as it is under its old name. -/
theorem stateView_eq (hm : g.Mirrors whole ρ h) (v : Vertex) :
    h.stateView (ρ v) = g.stateView v := by
  rw [stateView, hm.node_eq]
  simp only [Node.rename, hm.tableView_rename, hm.ids_eq]
  rfl

end Graph.Mirrors

/-- Places are not seen. So a fragment that is built beside others is shown as if it were built
alone. -/
theorem Machine.Mirrors.snapshot_eq {m m' : Machine} (hm : m.Mirrors True ρ m') :
    m'.automaton.snapshot m'.graph = m.automaton.snapshot m.graph := by
  have hstates : (m'.graph.inOrder m'.automaton.states).map m'.graph.stateView =
      (m.graph.inOrder m.automaton.states).map m.graph.stateView := by
    rw [hm.states_eq, hm.graph.inOrder_eq, List.map_map]
    exact List.map_congr_left fun v _ => hm.graph.stateView_eq v
  simp only [Automaton.snapshot, hm.start_eq, hm.graph.id_eq, hm.automaton.alphabet_eq trivial,
    hm.automaton.strict_eq, hm.automaton.discarded_eq, hstates]

end PatternAutomata
