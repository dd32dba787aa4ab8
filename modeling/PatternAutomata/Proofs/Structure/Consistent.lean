/-
Sets of states whose tables agree.

`Graph.Consistent g S` says of a set of states that their edges stay among them, that every
edge is noted at its target and all that is noted is an edge, that no entry is empty and
that every state counts the pairs noted at it. It speaks of the states in the set alone, so
it carries over to any graph that looks the same there, and to the union of two such sets.

Adding and removing an edge inside the set keep it; so does taking a state without edges
into the set, and leaving out states that no edge connects to the rest. Together with the
conditions on the start state and the identifiers it says the same as being well formed
and closed (`wellFormed_closed_iff`).

`Graph.Coherent g S` lets edges lead into the set from outside, which are noted but not counted.
It goes with being well formed alone (`wellFormed_iff`). Of two such sets it carries over to the
union if they have no state in common.
-/
import PatternAutomata.Proofs.Structure.Counting

set_option autoImplicit false

namespace PatternAutomata

namespace Graph

/-- The tables of the states in a set agree with each other. -/
structure Consistent (g : Graph) (S : VertexSet) : Prop where
  next_ne_empty : ∀ v ∈ S, ∀ l, (g.node v).next.get? l ≠ some ∅
  previous_ne_empty : ∀ v ∈ S, ∀ l, (g.node v).previous.get? l ≠ some ∅
  target_mem : ∀ v ∈ S, ∀ l, ∀ w ∈ g.destinations v l, w ∈ S
  source_mem : ∀ v ∈ S, ∀ l, ∀ u ∈ g.origins v l, u ∈ S
  mirror : ∀ v ∈ S, ∀ w ∈ S, ∀ l, v ∈ g.origins w l ↔ w ∈ g.destinations v l
  indegree_eq : ∀ v ∈ S, (g.node v).indegree = (g.node v).previous.pairs.length

/-- The tables of the states in a set agree as far as their own edges go. Edges from outside may be
noted as well, but a state counts only those from the set. -/
structure Coherent (g : Graph) (S : VertexSet) : Prop where
  next_ne_empty : ∀ v ∈ S, ∀ l, (g.node v).next.get? l ≠ some ∅
  previous_ne_empty : ∀ v ∈ S, ∀ l, (g.node v).previous.get? l ≠ some ∅
  target_mem : ∀ v ∈ S, ∀ l, ∀ w ∈ g.destinations v l, w ∈ S
  mem_origins : ∀ v ∈ S, ∀ l, ∀ w ∈ g.destinations v l, v ∈ g.origins w l
  mem_destinations : ∀ v ∈ S, ∀ l, ∀ u ∈ g.origins v l, v ∈ g.destinations u l
  indegree_eq : ∀ v ∈ S, (g.node v).indegree = ((g.node v).previous.pairsFrom S).length

/-- No edge leads into or out of a state, and it counts none. -/
structure Unconnected (g : Graph) (v : Vertex) : Prop where
  next_eq : (g.node v).next = ∅
  previous_eq : (g.node v).previous = ∅
  indegree_eq : (g.node v).indegree = 0

/-- Two graphs have the same tables and counts at a state. -/
structure SameTables (g h : Graph) (v : Vertex) : Prop where
  next_eq : (h.node v).next = (g.node v).next
  previous_eq : (h.node v).previous = (g.node v).previous
  indegree_eq : (h.node v).indegree = (g.node v).indegree

variable {g h : Graph} {S T : VertexSet}

theorem SameTables.refl (g : Graph) (v : Vertex) : g.SameTables g v := ⟨rfl, rfl, rfl⟩

theorem SameTables.of_node_eq {v : Vertex} (e : h.node v = g.node v) : g.SameTables h v :=
  ⟨by rw [e], by rw [e], by rw [e]⟩

/-- Changes that leave the tables of a state alone do so one after the other. -/
theorem SameTables.trans {k : Graph} {v : Vertex} (hgh : g.SameTables h v)
    (hhk : h.SameTables k v) : g.SameTables k v :=
  ⟨hhk.next_eq.trans hgh.next_eq, hhk.previous_eq.trans hgh.previous_eq,
    hhk.indegree_eq.trans hgh.indegree_eq⟩

/-- With the same tables the same edges lead out of a state. -/
theorem SameTables.destinations_eq {v : Vertex} (e : g.SameTables h v) (l : Label) :
    h.destinations v l = g.destinations v l := by
  rw [destinations, destinations, e.next_eq]

/-- And the same edges are noted there. -/
theorem SameTables.origins_eq {v : Vertex} (e : g.SameTables h v) (l : Label) :
    h.origins v l = g.origins v l := by
  rw [origins, origins, e.previous_eq]

/-- A state without edges has none in a graph with the same tables. -/
theorem SameTables.unconnected {v : Vertex} (e : g.SameTables h v) (hv : g.Unconnected v) :
    h.Unconnected v :=
  ⟨e.next_eq.trans hv.next_eq, e.previous_eq.trans hv.previous_eq,
    e.indegree_eq.trans hv.indegree_eq⟩

/-- From a state without edges no label leads anywhere. -/
theorem Unconnected.destinations_eq {v : Vertex} (hv : g.Unconnected v) (l : Label) :
    g.destinations v l = ∅ := by
  rw [destinations, hv.next_eq]
  rfl

theorem Unconnected.origins_eq {v : Vertex} (hv : g.Unconnected v) (l : Label) :
    g.origins v l = ∅ := by
  rw [origins, hv.previous_eq]
  rfl

/-- A set is consistent exactly if it is coherent and no edge leads into it from outside. The check
sees to the first half only, which is why the second one is carried along as a condition of its
own. -/
theorem consistent_iff : g.Consistent S ↔
    g.Coherent S ∧ ∀ v ∈ S, ∀ l, ∀ u ∈ g.origins v l, u ∈ S := by
  constructor
  · intro hc
    refine ⟨⟨hc.next_ne_empty, hc.previous_ne_empty, hc.target_mem, ?_, ?_, ?_⟩, hc.source_mem⟩
    · exact fun v hv l w hw => (hc.mirror v hv w (hc.target_mem v hv l w hw) l).2 hw
    · exact fun v hv l u hu => (hc.mirror u (hc.source_mem v hv l u hu) v hv l).1 hu
    · intro v hv
      rw [hc.indegree_eq v hv, Table.pairsFrom_eq_pairs (hc.source_mem v hv)]
  · rintro ⟨hc, hsource⟩
    refine ⟨hc.next_ne_empty, hc.previous_ne_empty, hc.target_mem, hsource, ?_, ?_⟩
    · exact fun v hv w hw l => ⟨hc.mem_destinations w hw l v, hc.mem_origins v hv l w⟩
    · intro v hv
      rw [hc.indegree_eq v hv, Table.pairsFrom_eq_pairs (hsource v hv)]

/-! ## Other graphs and other sets -/

namespace Coherent

/-- A set is coherent in every graph with the same tables at its states and the same edges into
them. The whole graph has to look alike here, because what is noted at a state of the set may be an
edge from anywhere. -/
theorem congr (hc : g.Coherent S) (same : ∀ v, g.SameTables h v) : h.Coherent S where
  next_ne_empty v hv l := by
    rw [(same v).next_eq]
    exact hc.next_ne_empty v hv l
  previous_ne_empty v hv l := by
    rw [(same v).previous_eq]
    exact hc.previous_ne_empty v hv l
  target_mem v hv l w hw := by
    rw [(same v).destinations_eq] at hw
    exact hc.target_mem v hv l w hw
  mem_origins v hv l w hw := by
    rw [(same v).destinations_eq] at hw
    rw [(same w).origins_eq]
    exact hc.mem_origins v hv l w hw
  mem_destinations v hv l u hu := by
    rw [(same v).origins_eq] at hu
    rw [(same u).destinations_eq]
    exact hc.mem_destinations v hv l u hu
  indegree_eq v hv := by
    rw [(same v).indegree_eq, (same v).previous_eq]
    exact hc.indegree_eq v hv

/-- A coherent set counts no states of another one, which has no edges into it. So counting over the
union counts what was counted before. -/
theorem indegree_eq_union (hS : g.Coherent S) (hT : g.Coherent T) (disjoint : ∀ v ∈ S, v ∉ T)
    {v : Vertex} (hv : v ∈ S) :
    (g.node v).indegree = ((g.node v).previous.pairsFrom (S ∪ T)).length := by
  rw [hS.indegree_eq v hv, Table.pairsFrom_congr]
  intro l u hu
  rw [OrdSet.mem_union]
  refine (or_iff_left fun huT => ?_).symm
  exact disjoint v hv (hT.target_mem u huT l v (hS.mem_destinations v hv l u hu))

/-- Two coherent sets without common states make one. A common state would be counted in both, for
edges from either set, and no number could be right for both. -/
theorem union (hS : g.Coherent S) (hT : g.Coherent T) (disjoint : ∀ v ∈ S, v ∉ T) :
    g.Coherent (S ∪ T) where
  next_ne_empty v hv := by
    rcases OrdSet.mem_union.1 hv with hv | hv
    · exact hS.next_ne_empty v hv
    · exact hT.next_ne_empty v hv
  previous_ne_empty v hv := by
    rcases OrdSet.mem_union.1 hv with hv | hv
    · exact hS.previous_ne_empty v hv
    · exact hT.previous_ne_empty v hv
  target_mem v hv l w hw := by
    rcases OrdSet.mem_union.1 hv with hv | hv
    · exact OrdSet.mem_union.2 (Or.inl (hS.target_mem v hv l w hw))
    · exact OrdSet.mem_union.2 (Or.inr (hT.target_mem v hv l w hw))
  mem_origins v hv := by
    rcases OrdSet.mem_union.1 hv with hv | hv
    · exact hS.mem_origins v hv
    · exact hT.mem_origins v hv
  mem_destinations v hv := by
    rcases OrdSet.mem_union.1 hv with hv | hv
    · exact hS.mem_destinations v hv
    · exact hT.mem_destinations v hv
  indegree_eq v hv := by
    rcases OrdSet.mem_union.1 hv with hv | hv
    · exact hS.indegree_eq_union hT disjoint hv
    -- the two sets may change places
    · have hswap : S ∪ T = T ∪ S := by
        ext u
        rw [OrdSet.mem_union, OrdSet.mem_union, or_comm]
      rw [hswap]
      exact hT.indegree_eq_union hS (fun u hu huS => disjoint u huS hu) hv

end Coherent

namespace Consistent

/-- What is noted at a state are the edges from states of the set. This is where the entries at a
target can be forgotten in favour of the edges themselves. -/
theorem mem_origins_iff (hc : g.Consistent S) {u v : Vertex} {l : Label} (hv : v ∈ S) :
    u ∈ g.origins v l ↔ u ∈ S ∧ v ∈ g.destinations u l := by
  constructor
  · intro hu
    have hmem := hc.source_mem v hv l u hu
    exact ⟨hmem, (hc.mirror u hmem v hv l).1 hu⟩
  · rintro ⟨hmem, hedge⟩
    exact (hc.mirror u hmem v hv l).2 hedge

/-- Nothing is noted at a state that counts no edge. -/
theorem not_mem_origins_of_indegree (hc : g.Consistent S) {u v : Vertex} (hv : v ∈ S)
    (hzero : (g.node v).indegree ≤ 0) (l : Label) : u ∉ g.origins v l := by
  intro hu
  have hpair : (l, u) ∈ (g.node v).previous.pairs := Table.mem_pairs.2 hu
  have hpos := List.length_pos_of_mem hpair
  have hcount := hc.indegree_eq v hv
  omega

/-- A set is consistent in every graph with the same tables at its states. No other state matters,
as no edge connects the set to the rest. -/
theorem congr (hc : g.Consistent S) (same : ∀ v ∈ S, g.SameTables h v) : h.Consistent S where
  next_ne_empty v hv l := by
    rw [(same v hv).next_eq]
    exact hc.next_ne_empty v hv l
  previous_ne_empty v hv l := by
    rw [(same v hv).previous_eq]
    exact hc.previous_ne_empty v hv l
  target_mem v hv l w hw := by
    rw [(same v hv).destinations_eq] at hw
    exact hc.target_mem v hv l w hw
  source_mem v hv l u hu := by
    rw [(same v hv).origins_eq] at hu
    exact hc.source_mem v hv l u hu
  mirror v hv w hw l := by
    rw [(same w hw).origins_eq, (same v hv).destinations_eq]
    exact hc.mirror v hv w hw l
  indegree_eq v hv := by
    rw [(same v hv).indegree_eq, (same v hv).previous_eq]
    exact hc.indegree_eq v hv

/-- Two consistent sets make one. They may overlap: an edge at a common state stays in both, so each
of its ends sees all that the other end sees. -/
theorem union (hS : g.Consistent S) (hT : g.Consistent T) : g.Consistent (S ∪ T) where
  next_ne_empty v hv := by
    rcases OrdSet.mem_union.1 hv with hv | hv
    · exact hS.next_ne_empty v hv
    · exact hT.next_ne_empty v hv
  previous_ne_empty v hv := by
    rcases OrdSet.mem_union.1 hv with hv | hv
    · exact hS.previous_ne_empty v hv
    · exact hT.previous_ne_empty v hv
  target_mem v hv l w hw := by
    rcases OrdSet.mem_union.1 hv with hv | hv
    · exact OrdSet.mem_union.2 (Or.inl (hS.target_mem v hv l w hw))
    · exact OrdSet.mem_union.2 (Or.inr (hT.target_mem v hv l w hw))
  source_mem v hv l u hu := by
    rcases OrdSet.mem_union.1 hv with hv | hv
    · exact OrdSet.mem_union.2 (Or.inl (hS.source_mem v hv l u hu))
    · exact OrdSet.mem_union.2 (Or.inr (hT.source_mem v hv l u hu))
  mirror v hv w hw l := by
    -- an edge with one end in a set has the other end there too
    constructor
    · intro hmem
      rcases OrdSet.mem_union.1 hw with hw | hw
      · exact (hS.mirror v (hS.source_mem w hw l v hmem) w hw l).1 hmem
      · exact (hT.mirror v (hT.source_mem w hw l v hmem) w hw l).1 hmem
    · intro hmem
      rcases OrdSet.mem_union.1 hv with hv | hv
      · exact (hS.mirror v hv w (hS.target_mem v hv l w hmem) l).2 hmem
      · exact (hT.mirror v hv w (hT.target_mem v hv l w hmem) l).2 hmem
  indegree_eq v hv := by
    rcases OrdSet.mem_union.1 hv with hv | hv
    · exact hS.indegree_eq v hv
    · exact hT.indegree_eq v hv

/-- States that no edge connects to the rest can be left out. Collection does this with the states
that go. -/
theorem restrict (hc : g.Consistent S) (sub : ∀ v ∈ T, v ∈ S)
    (target : ∀ v ∈ T, ∀ l, ∀ w ∈ g.destinations v l, w ∈ T)
    (source : ∀ v ∈ T, ∀ l, ∀ u ∈ g.origins v l, u ∈ T) : g.Consistent T where
  next_ne_empty v hv := hc.next_ne_empty v (sub v hv)
  previous_ne_empty v hv := hc.previous_ne_empty v (sub v hv)
  target_mem := target
  source_mem := source
  mirror v hv w hw := hc.mirror v (sub v hv) w (sub w hw)
  indegree_eq v hv := hc.indegree_eq v (sub v hv)

end Consistent

/-- States without edges are consistent: there is nothing to agree about, and nothing to count. -/
theorem consistent_of_unconnected (hS : ∀ v ∈ S, g.Unconnected v) : g.Consistent S where
  next_ne_empty u hu l := by
    rw [(hS u hu).next_eq]
    exact nofun
  previous_ne_empty u hu l := by
    rw [(hS u hu).previous_eq]
    exact nofun
  target_mem u hu l w hw := by
    rw [(hS u hu).destinations_eq] at hw
    exact absurd hw (OrdSet.not_mem_empty w)
  source_mem u hu l w hw := by
    rw [(hS u hu).origins_eq] at hw
    exact absurd hw (OrdSet.not_mem_empty w)
  mirror u hu w hw l := by
    rw [(hS w hw).origins_eq, (hS u hu).destinations_eq]
    exact iff_of_false (OrdSet.not_mem_empty u) (OrdSet.not_mem_empty w)
  indegree_eq u hu := by
    rw [(hS u hu).indegree_eq, (hS u hu).previous_eq]
    rfl

/-- A state without edges is consistent by itself. -/
theorem Unconnected.consistent {v : Vertex} (hv : g.Unconnected v) : g.Consistent {v} := by
  apply consistent_of_unconnected
  intro u hu
  rw [OrdSet.mem_singleton.1 hu]
  exact hv

/-- A state without edges can be taken into a consistent set. -/
theorem Consistent.insert (hc : g.Consistent S) {v : Vertex} (hv : g.Unconnected v) :
    g.Consistent (S.insert v) := by
  have hset : S.insert v = S ∪ {v} := by
    ext u
    rw [OrdSet.mem_insert, OrdSet.mem_union, OrdSet.mem_singleton, or_comm]
  rw [hset]
  exact hc.union hv.consistent

/-! ## Adding and removing an edge -/

theorem hasEdge_iff {e : Edge} :
    g.hasEdge e = true ↔ e.target ∈ g.destinations e.source e.label := by
  rw [hasEdge, decide_eq_true_eq]

/-- An edge is there after it was added, and no other edge is new. -/
theorem mem_destinations_link {e : Edge} {v w : Vertex} {l : Label} :
    w ∈ (g.link e).destinations v l ↔ w ∈ g.destinations v l ∨ (⟨v, l, w⟩ : Edge) = e := by
  rw [destinations_link]
  by_cases hv : v = e.source ∧ l = e.label
  · rw [if_pos hv, OrdSet.mem_insert, hv.1, hv.2]
    cases e
    simp [or_comm]
  · rw [if_neg hv]
    constructor
    · exact Or.inl
    · rintro (hw | rfl)
      · exact hw
      · exact absurd ⟨rfl, rfl⟩ hv

/-- An edge is noted at its target after it was added. -/
theorem mem_origins_link {e : Edge} {v w : Vertex} {l : Label} :
    v ∈ (g.link e).origins w l ↔ v ∈ g.origins w l ∨ (⟨v, l, w⟩ : Edge) = e := by
  rw [origins_link]
  by_cases hw : w = e.target ∧ l = e.label
  · rw [if_pos hw, OrdSet.mem_insert, hw.1, hw.2]
    cases e
    simp [or_comm]
  · rw [if_neg hw]
    constructor
    · exact Or.inl
    · rintro (hv | rfl)
      · exact hv
      · exact absurd ⟨rfl, rfl⟩ hw

/-- No edge but the one removed is missing afterwards. -/
theorem mem_destinations_unlink {e : Edge} {v w : Vertex} {l : Label} :
    w ∈ (g.unlink e).destinations v l ↔ w ∈ g.destinations v l ∧ (⟨v, l, w⟩ : Edge) ≠ e := by
  rw [destinations_unlink]
  by_cases hv : v = e.source ∧ l = e.label
  · rw [if_pos hv, OrdSet.mem_erase, hv.1, hv.2]
    cases e
    simp
  · rw [if_neg hv]
    constructor
    · intro hw
      refine ⟨hw, ?_⟩
      rintro rfl
      exact hv ⟨rfl, rfl⟩
    · exact And.left

/-- No entry but that for the removed edge is missing afterwards. -/
theorem mem_origins_unlink {e : Edge} {v w : Vertex} {l : Label} :
    v ∈ (g.unlink e).origins w l ↔ v ∈ g.origins w l ∧ (⟨v, l, w⟩ : Edge) ≠ e := by
  rw [origins_unlink]
  by_cases hw : w = e.target ∧ l = e.label
  · rw [if_pos hw, OrdSet.mem_erase, hw.1, hw.2]
    cases e
    simp
  · rw [if_neg hw]
    constructor
    · intro hv
      refine ⟨hv, ?_⟩
      rintro rfl
      exact hw ⟨rfl, rfl⟩
    · exact And.left

/-- Adding an edge changes the tables of no other states than its ends. This is what carries
everything that is said of one part of a graph over to the graph with an edge elsewhere. -/
theorem node_link_of_ne {e : Edge} {v : Vertex} (hs : v ≠ e.source) (ht : v ≠ e.target) :
    (g.link e).node v = g.node v := by
  rw [link]
  cases g.hasEdge e
  all_goals
    simp only [Bool.false_eq_true, if_false, if_true, node_update, if_neg hs, if_neg ht]

theorem node_unlink_of_ne {e : Edge} {v : Vertex} (hs : v ≠ e.source) (ht : v ≠ e.target) :
    (g.unlink e).node v = g.node v := by
  simp only [unlink, node_update, if_neg hs, if_neg ht]

/-- Adding an edge between states of a coherent set keeps it coherent. All but the count is as
expected: the table at the source and the entry at the target are written together. -/
theorem Coherent.link (hc : g.Coherent S) {e : Edge} (hs : e.source ∈ S) (ht : e.target ∈ S) :
    (g.link e).Coherent S where
  next_ne_empty v hv l := by
    rw [next_link]
    split
    · exact Table.note_ne_empty (hc.next_ne_empty v hv l)
    · exact hc.next_ne_empty v hv l
  previous_ne_empty v hv l := by
    rw [previous_link]
    split
    · exact Table.note_ne_empty (hc.previous_ne_empty v hv l)
    · exact hc.previous_ne_empty v hv l
  target_mem v hv l w hw := by
    rcases mem_destinations_link.1 hw with hw | rfl
    · exact hc.target_mem v hv l w hw
    · exact ht
  mem_origins v hv l w hw :=
    mem_origins_link.2 ((mem_destinations_link.1 hw).imp_left (hc.mem_origins v hv l w))
  mem_destinations v hv l u hu :=
    mem_destinations_link.2 ((mem_origins_link.1 hu).imp_left (hc.mem_destinations v hv l u))
  indegree_eq v hv := by
    rw [indegree_link, previous_link]
    by_cases hve : v = e.target
    · rw [if_pos hve, hve]
      -- the two sides agreed before, so whether the edge was there can be asked at either end
      have hmirror : e.source ∈ g.origins e.target e.label ↔ g.hasEdge e = true :=
        ⟨fun h => hasEdge_iff.2 (hc.mem_destinations _ ht _ _ h),
          fun h => hc.mem_origins _ hs _ _ (hasEdge_iff.1 h)⟩
      have hcount := hc.indegree_eq e.target ht
      -- an edge that was there is noted at its target already, and is not counted twice
      by_cases hedge : g.hasEdge e = true
      · have hnoted : e.source ∈ (g.node e.target).previous.under e.label := hmirror.2 hedge
        rw [if_neg (by simp [hedge]), Table.note_eq_self hnoted]
        exact hcount
      · have hnew : e.source ∉ (g.node e.target).previous.under e.label :=
          fun hnoted => hedge (hmirror.1 hnoted)
        rw [if_pos ⟨rfl, by simpa using hedge⟩, Table.length_pairsFrom_note hnew hs]
        omega
    · rw [if_neg fun h => hve h.1, if_neg hve]
      exact hc.indegree_eq v hv

namespace Consistent

/-- Adding an edge between states of the set keeps their tables in agreement. -/
theorem link (hc : g.Consistent S) {e : Edge} (hs : e.source ∈ S) (ht : e.target ∈ S) :
    (g.link e).Consistent S := by
  obtain ⟨hcoherent, hsource⟩ := consistent_iff.1 hc
  refine consistent_iff.2 ⟨hcoherent.link hs ht, fun v hv l u hu => ?_⟩
  rcases mem_origins_link.1 hu with hu | rfl
  · exact hsource v hv l u hu
  · exact hs

/-- Removing an edge between states of the set keeps their tables in agreement. The edge must be
there: the count goes down in any case. -/
theorem unlink (hc : g.Consistent S) {e : Edge} (hs : e.source ∈ S)
    (hedge : g.hasEdge e = true) : (g.unlink e).Consistent S where
  next_ne_empty v hv l := by
    rw [next_unlink]
    split
    · exact Table.strike_ne_empty (hc.next_ne_empty v hv l)
    · exact hc.next_ne_empty v hv l
  previous_ne_empty v hv l := by
    rw [previous_unlink]
    split
    · exact Table.strike_ne_empty (hc.previous_ne_empty v hv l)
    · exact hc.previous_ne_empty v hv l
  target_mem v hv l w hw := hc.target_mem v hv l w (mem_destinations_unlink.1 hw).1
  source_mem v hv l u hu := hc.source_mem v hv l u (mem_origins_unlink.1 hu).1
  mirror v hv w hw l := by
    rw [mem_origins_unlink, mem_destinations_unlink, hc.mirror v hv w hw l]
  indegree_eq v hv := by
    rw [indegree_unlink, previous_unlink]
    by_cases hve : v = e.target
    · rw [if_pos hve, if_pos hve, hve]
      -- the edge was noted at its target once, so one pair less is counted
      have htarget : e.target ∈ g.destinations e.source e.label := hasEdge_iff.1 hedge
      have ht : e.target ∈ S := hc.target_mem _ hs _ _ htarget
      have hnoted : e.source ∈ (g.node e.target).previous.under e.label :=
        (hc.mirror _ hs _ ht _).2 htarget
      have hcount := hc.indegree_eq e.target ht
      have hless := Table.length_pairs_strike hnoted
      omega
    · rw [if_neg hve, if_neg hve]
      exact hc.indegree_eq v hv

end Consistent

end Graph

/-! ## Well-formed automata -/

namespace Automaton

variable {g : Graph} {a : Automaton}

/-- An automaton is well formed exactly if its start state is its only state flagged as start, its
identifiers differ and the tables of its states agree. The last part is about a set of states and
mentions no automaton, so it can be carried from one automaton to another. -/
theorem wellFormed_iff : a.WellFormed g ↔
    a.start ∈ a.states ∧ (∀ v ∈ a.states, (g.node v).isStart = true ↔ v = a.start) ∧
      (∀ v ∈ a.states, ∀ w ∈ a.states, (g.node v).id = (g.node w).id → v = w) ∧
      g.Coherent a.states := by
  -- either way both ends of the edges from states know of them
  have hcount : ∀ v, (∀ u ∈ a.states, ∀ l, ∀ w ∈ g.destinations u l, u ∈ g.origins w l) →
      (∀ l, ∀ u ∈ g.origins v l, v ∈ g.destinations u l) →
        a.incoming g v = ((g.node v).previous.pairsFrom a.states).length :=
    fun v hnoted hedges => incoming_eq_length_pairsFrom fun l u hu =>
      ⟨hedges l u, hnoted u hu l v⟩
  constructor
  · intro hw
    refine ⟨hw.start_mem, hw.isStart_iff, hw.id_injective, hw.next_ne_empty, hw.previous_ne_empty,
      hw.target_mem, hw.mem_origins, hw.mem_destinations, fun v hv => ?_⟩
    rw [hw.indegree_eq v hv, hcount v hw.mem_origins (hw.mem_destinations v hv)]
  · rintro ⟨hstart, hflag, hid, hc⟩
    refine ⟨hstart, hflag, hid, hc.next_ne_empty, hc.target_mem, hc.mem_origins, fun v hv => ?_,
      hc.previous_ne_empty, hc.mem_destinations⟩
    rw [hc.indegree_eq v hv, hcount v hc.mem_origins (hc.mem_destinations v hv)]

/-- The tables of a well-formed automaton agree as far as edges from its own states go. -/
theorem WellFormed.coherent (hw : a.WellFormed g) : g.Coherent a.states :=
  (wellFormed_iff.1 hw).2.2.2

/-- They agree altogether if nothing is noted from outside. -/
theorem WellFormed.consistent (hw : a.WellFormed g) (hc : a.Closed g) :
    g.Consistent a.states :=
  Graph.consistent_iff.2 ⟨hw.coherent, hc⟩

/-- An automaton is well formed and closed exactly if its start state is its only state
flagged as start, its identifiers differ and its tables agree. -/
theorem wellFormed_closed_iff : a.WellFormed g ∧ a.Closed g ↔
    a.start ∈ a.states ∧ (∀ v ∈ a.states, (g.node v).isStart = true ↔ v = a.start) ∧
      (∀ v ∈ a.states, ∀ w ∈ a.states, (g.node v).id = (g.node w).id → v = w) ∧
      g.Consistent a.states := by
  simp only [wellFormed_iff, Graph.consistent_iff, Closed, and_assoc]

end Automaton

end PatternAutomata
