/-
Changes to graphs that mirror each other.

A change that is made in both of two graphs, at a place of the first one and at its new name
in the second one, leaves graphs that mirror each other. It may fill places; free places then
correspond as before, and what was mentioned is filled.
-/
import PatternAutomata.Automaton.Subsets
import PatternAutomata.Proofs.Renaming.Places
import PatternAutomata.Proofs.Structure.Sound

set_option autoImplicit false

namespace PatternAutomata.Graph

/-! ## Filled places stay filled

A change fills the places that it mentions, because it changes states there. So no change leaves a
state that mentions a free place. -/

namespace Filled

variable {g : Graph}

/-- What no state mentions anew stays filled. A flag or a count may change freely. -/
theorem update (hg : g.Filled) (v : Vertex) {f : Node → Node} (next_eq : ∀ n, (f n).next = n.next)
    (previous_eq : ∀ n, (f n).previous = n.previous)
    (standsFor_eq : ∀ n, (f n).standsFor = n.standsFor) : (g.update v f).Filled where
  destination_lt u l w hw := by
    have hsame : (g.update v f).destinations u l = g.destinations u l := by
      rw [destinations, node_update, destinations]
      split
      · next hu => rw [next_eq, hu]
      · rfl
    rw [hsame] at hw
    exact Nat.lt_of_lt_of_le (hg.destination_lt u l w hw) (size_le_update v f)
  origin_lt u l w hw := by
    have hsame : (g.update v f).origins u l = g.origins u l := by
      rw [origins, node_update, origins]
      split
      · next hu => rw [previous_eq, hu]
      · rfl
    rw [hsame] at hw
    exact Nat.lt_of_lt_of_le (hg.origin_lt u l w hw) (size_le_update v f)
  standsFor_lt u w hw := by
    have hsame : ((g.update v f).node u).standsFor = (g.node u).standsFor := by
      rw [node_update]
      split
      · next hu => rw [standsFor_eq, hu]
      · rfl
    rw [hsame] at hw
    exact Nat.lt_of_lt_of_le (hg.standsFor_lt u w hw) (size_le_update v f)

/-- Adding an edge mentions its ends, and fills both of them. -/
theorem link (hg : g.Filled) (e : Edge) : (g.link e).Filled := by
  have hle : g.size ≤ (g.link e).size := by
    rw [size_link]
    exact Nat.le_trans (Nat.le_max_left ..) (Nat.le_max_left ..)
  have hsource : e.source < (g.link e).size := by
    rw [size_link]
    exact Nat.le_trans (Nat.le_max_right g.size _) (Nat.le_max_left ..)
  have htarget : e.target < (g.link e).size := by
    rw [size_link]
    exact Nat.le_max_right ..
  constructor
  · intro v l w hw
    rw [destinations_link] at hw
    split at hw
    · rcases OrdSet.mem_insert.1 hw with rfl | hw
      · exact htarget
      · exact Nat.lt_of_lt_of_le (hg.destination_lt v l w hw) hle
    · exact Nat.lt_of_lt_of_le (hg.destination_lt v l w hw) hle
  · intro v l w hw
    rw [origins_link] at hw
    split at hw
    · rcases OrdSet.mem_insert.1 hw with rfl | hw
      · exact hsource
      · exact Nat.lt_of_lt_of_le (hg.origin_lt v l w hw) hle
    · exact Nat.lt_of_lt_of_le (hg.origin_lt v l w hw) hle
  · intro v w hw
    rw [standsFor_link] at hw
    exact Nat.lt_of_lt_of_le (hg.standsFor_lt v w hw) hle

/-- Taking an edge away mentions nothing new. -/
theorem unlink (hg : g.Filled) (e : Edge) : (g.unlink e).Filled := by
  have hle : g.size ≤ (g.unlink e).size := by
    rw [size_unlink]
    omega
  constructor
  · intro v l w hw
    rw [destinations_unlink] at hw
    refine Nat.lt_of_lt_of_le (hg.destination_lt v l w ?_) hle
    split at hw
    · exact (OrdSet.mem_erase.1 hw).1
    · exact hw
  · intro v l w hw
    rw [origins_unlink] at hw
    refine Nat.lt_of_lt_of_le (hg.origin_lt v l w ?_) hle
    split at hw
    · exact (OrdSet.mem_erase.1 hw).1
    · exact hw
  · intro v w hw
    rw [standsFor_unlink] at hw
    exact Nat.lt_of_lt_of_le (hg.standsFor_lt v w hw) hle

/-- A new state without edges may stand for states that are there. -/
theorem add (hg : g.Filled) {n : Node} (hnext : n.next = ∅) (hprevious : n.previous = ∅)
    (hstands : ∀ w ∈ n.standsFor, w < g.size) : (g.add n).2.Filled := by
  have hle : g.size ≤ (g.add n).2.size := by
    rw [size_add]
    exact Nat.le_succ _
  constructor
  · intro v l w hw
    rw [destinations, node_add] at hw
    split at hw
    · rw [hnext] at hw
      exact absurd hw (OrdSet.not_mem_empty w)
    · exact Nat.lt_of_lt_of_le (hg.destination_lt v l w hw) hle
  · intro v l w hw
    rw [origins, node_add] at hw
    split at hw
    · rw [hprevious] at hw
      exact absurd hw (OrdSet.not_mem_empty w)
    · exact Nat.lt_of_lt_of_le (hg.origin_lt v l w hw) hle
  · intro v w hw
    rw [node_add] at hw
    split at hw
    · exact Nat.lt_of_lt_of_le (hstands w hw) hle
    · exact Nat.lt_of_lt_of_le (hg.standsFor_lt v w hw) hle

end Filled

/-- Free places still correspond after a place and its new name were filled. If the place was free,
the places up to it are filled in both graphs, and there are as many of them. -/
theorem free_max {ρ : Vertex → Vertex} (hρ : StrictMono ρ) {n k : Nat}
    (hfree : ∀ i, ρ (n + i) = k + i) (v : Vertex) (i : Nat) :
    ρ (max n (v + 1) + i) = max k (ρ v + 1) + i := by
  by_cases hv : v < n
  · have hlt : ρ v < k := by
      have hk := hfree 0
      rw [Nat.add_zero, Nat.add_zero] at hk
      exact hk ▸ hρ hv
    rw [Nat.max_eq_left hv, Nat.max_eq_left hlt]
    exact hfree i
  · obtain ⟨j, rfl⟩ := Nat.exists_eq_add_of_le (Nat.le_of_not_lt hv)
    rw [hfree j, Nat.max_eq_right (by omega), Nat.max_eq_right (by omega)]
    have hnext := hfree (j + 1 + i)
    rwa [← Nat.add_assoc, ← Nat.add_assoc, ← Nat.add_assoc, ← Nat.add_assoc] at hnext

/-! ## Changes in both graphs

A change of a state that commutes with renaming may be made in both graphs. The changes of edges
are put together of such changes at the two ends. -/

namespace Mirrors

variable {whole : Prop} {ρ : Vertex → Vertex} {g h : Graph}

/-- Less need be mirrored. The single changes of a state that make up an edge are followed without
the free places, which are looked at for the edge as a whole. -/
theorem part (hm : g.Mirrors whole ρ h) : g.Mirrors False ρ h :=
  ⟨hm.strictMono, hm.node_eq, False.elim, False.elim⟩

/-- A change at one place that commutes with renaming. Nothing is said about free places here, so
the change has to say that it leaves none mentioned. -/
theorem update (hm : g.Mirrors whole ρ h) (v : Vertex) {f k : Node → Node}
    (hf : ∀ n : Node, k (n.rename ρ) = (f n).rename ρ) (hfilled : whole → (g.update v f).Filled) :
    (g.update v f).Mirrors whole ρ (h.update (ρ v) k) where
  strictMono := hm.strictMono
  node_eq w := by
    rw [node_update, node_update, hm.node_eq, hm.node_eq, hf]
    by_cases hw : w = v
    · rw [if_pos hw, if_pos (congrArg ρ hw)]
    · rw [if_neg hw, if_neg fun h => hw (hm.strictMono.injective h)]
  free hwhole := by
    rw [size_update, size_update]
    exact free_max hm.strictMono (hm.free hwhole) v
  filled := hfilled

/-- A start flag is set in both graphs. -/
theorem flagStart (hm : g.Mirrors whole ρ h) (v : Vertex) (flag : Bool) :
    (g.update v fun n => { n with isStart := flag }).Mirrors whole ρ
      (h.update (ρ v) fun n => { n with isStart := flag }) :=
  hm.update v (fun _ => rfl) fun hwhole =>
    (hm.filled hwhole).update v (fun _ => rfl) (fun _ => rfl) fun _ => rfl

/-- An accepting flag is set in both graphs. -/
theorem flagAccepting (hm : g.Mirrors whole ρ h) (v : Vertex) (flag : Bool) :
    (g.update v fun n => { n with isAccepting := flag }).Mirrors whole ρ
      (h.update (ρ v) fun n => { n with isAccepting := flag }) :=
  hm.update v (fun _ => rfl) fun hwhole =>
    (hm.filled hwhole).update v (fun _ => rfl) (fun _ => rfl) fun _ => rfl

/-- An edge is added in both graphs. It is counted, noted at its source and noted at its target, and
each of these is a change at one place. -/
theorem link (hm : g.Mirrors whole ρ h) (e : Edge) :
    (g.link e).Mirrors whole ρ (h.link (e.rename ρ)) where
  strictMono := hm.strictMono
  node_eq := by
    -- the edge is counted in both graphs or in neither
    have hcounted : Mirrors False ρ
        (if g.hasEdge e then g
          else g.update e.target fun n => { n with indegree := n.indegree + 1 })
        (if h.hasEdge (e.rename ρ) then h
          else h.update (ρ e.target) fun n => { n with indegree := n.indegree + 1 }) := by
      rw [hm.hasEdge_eq]
      split
      · exact hm.part
      · exact hm.part.update _ (fun _ => rfl) False.elim
    have hsource := hcounted.update e.source
      (f := fun n => { n with next := n.next.note e.label e.target })
      (k := fun n => { n with next := n.next.note e.label (ρ e.target) })
      (fun n => by simp only [Node.rename, Table.rename_note]) False.elim
    have htarget := hsource.update e.target
      (f := fun n => { n with previous := n.previous.note e.label e.source })
      (k := fun n => { n with previous := n.previous.note e.label (ρ e.source) })
      (fun n => by simp only [Node.rename, Table.rename_note]) False.elim
    exact htarget.node_eq
  free hwhole := by
    rw [size_link, size_link]
    exact free_max hm.strictMono (free_max hm.strictMono (hm.free hwhole) e.source) e.target
  filled hwhole := (hm.filled hwhole).link e

/-- An edge is taken away in both graphs: struck out at its source, and at its target struck out and
no longer counted. -/
theorem unlink (hm : g.Mirrors whole ρ h) (e : Edge) :
    (g.unlink e).Mirrors whole ρ (h.unlink (e.rename ρ)) where
  strictMono := hm.strictMono
  node_eq := by
    have hsource := hm.part.update e.source
      (f := fun n => { n with next := n.next.strike e.label e.target })
      (k := fun n => { n with next := n.next.strike e.label (ρ e.target) })
      (fun n => by simp only [Node.rename, Table.rename_strike hm.strictMono]) False.elim
    have htarget := hsource.update e.target
      (f := fun n => { n with
        indegree := n.indegree - 1
        previous := n.previous.strike e.label e.source })
      (k := fun n => { n with
        indegree := n.indegree - 1
        previous := n.previous.strike e.label (ρ e.source) })
      (fun n => by simp only [Node.rename, Table.rename_strike hm.strictMono]) False.elim
    exact htarget.node_eq
  free hwhole := by
    rw [size_unlink, size_unlink]
    exact free_max hm.strictMono (free_max hm.strictMono (hm.free hwhole) e.source) e.target
  filled hwhole := (hm.filled hwhole).unlink e

/-- The first free place corresponds to the first free place. -/
theorem size_eq (hm : g.Mirrors True ρ h) : ρ g.size = h.size := hm.free trivial 0

/-- A new state is put at the first free place of each graph. -/
theorem add (hm : g.Mirrors True ρ h) {n : Node} (hnext : n.next = ∅) (hprevious : n.previous = ∅)
    (hstands : ∀ w ∈ n.standsFor, w < g.size) :
    (g.add n).2.Mirrors True ρ (h.add (n.rename ρ)).2 where
  strictMono := hm.strictMono
  node_eq v := by
    rw [node_add, node_add, ← hm.size_eq, hm.node_eq]
    by_cases hv : v = g.size
    · rw [if_pos hv, if_pos (congrArg ρ hv)]
    · rw [if_neg hv, if_neg fun h => hv (hm.strictMono.injective h)]
  free _ i := by
    have hnext := hm.free trivial (1 + i)
    rwa [size_add, size_add, Nat.add_assoc, Nat.add_assoc]
  filled _ := (hm.filled trivial).add hnext hprevious hstands

/-- New states without edges are put at the free places one after the other. -/
theorem addAll (hm : g.Mirrors True ρ h) {ns : List Node}
    (hbare : ∀ n ∈ ns, n.next = ∅ ∧ n.previous = ∅ ∧ ∀ w ∈ n.standsFor, w < g.size) :
    (g.addAll ns).Mirrors True ρ (h.addAll (ns.map (Node.rename ρ))) := by
  induction ns generalizing g h with
  | nil => exact hm
  | cons n ns ih =>
    obtain ⟨hnext, hprevious, hstands⟩ := hbare n List.mem_cons_self
    apply ih (hm.add hnext hprevious hstands)
    intro k hk
    obtain ⟨hnext, hprevious, hstands⟩ := hbare k (List.mem_cons_of_mem n hk)
    refine ⟨hnext, hprevious, ?_⟩
    intro w hw
    rw [size_add]
    exact Nat.lt_succ_of_lt (hstands w hw)

end Mirrors

/-! ## Growing on one side

The second graph may grow by states that mirror nothing. The names of filled places are kept then,
and the free places get their names from the new end on. -/

/-- The names of the places below a number, with names from another number on for all others. -/
def goOn (ρ : Vertex → Vertex) (n k : Nat) (v : Vertex) : Vertex :=
  if v < n then ρ v else k + (v - n)

section GoingOn

variable {ρ : Vertex → Vertex} {n k : Nat}

/-- The places below the number keep their names. -/
theorem goOn_of_lt {v : Vertex} (hv : v < n) : goOn ρ n k v = ρ v := if_pos hv

/-- All others are named in a row. -/
theorem goOn_add (i : Nat) : goOn ρ n k (n + i) = k + i := by
  have hnot : ¬n + i < n := Nat.not_lt.2 (Nat.le_add_right ..)
  rw [show goOn ρ n k (n + i) = k + (n + i - n) from if_neg hnot, Nat.add_sub_cancel_left]

/-- If the names that are kept lie below the new ones, the order is kept. -/
theorem strictMono_goOn (hρ : StrictMono ρ) (hlt : ∀ v < n, ρ v < k) :
    StrictMono (goOn ρ n k) := by
  intro v w hvw
  by_cases hw : w < n
  · rw [goOn_of_lt hw, goOn_of_lt (Nat.lt_trans hvw hw)]
    exact hρ hvw
  · obtain ⟨i, rfl⟩ := Nat.exists_eq_add_of_le (Nat.le_of_not_lt hw)
    rw [goOn_add]
    by_cases hv : v < n
    · rw [goOn_of_lt hv]
      exact Nat.lt_of_lt_of_le (hlt v hv) (Nat.le_add_right ..)
    · obtain ⟨j, rfl⟩ := Nat.exists_eq_add_of_le (Nat.le_of_not_lt hv)
      rw [goOn_add]
      exact Nat.add_lt_add_left (Nat.lt_of_add_lt_add_left hvw) _

end GoingOn

namespace Mirrors

variable {ρ : Vertex → Vertex} {g h : Graph}

/-- The second graph may grow, as long as it keeps the states that are mirrored: the free places
then correspond anew. No state mentions a free place, so no state notices that the naming has
changed. -/
theorem later {k : Graph} (hm : g.Mirrors True ρ h) (size_le : h.size ≤ k.size)
    (node_eq : ∀ v < h.size, k.node v = h.node v) :
    ∃ σ, g.Mirrors True σ k ∧ ∀ v < g.size, σ v = ρ v := by
  have hlt : ∀ v < g.size, ρ v < h.size := by
    intro v hv
    rw [← hm.size_eq]
    exact hm.strictMono hv
  have hfilled := hm.filled trivial
  refine ⟨goOn ρ g.size k.size, ?_, fun v hv => goOn_of_lt hv⟩
  constructor
  · exact strictMono_goOn hm.strictMono fun v hv => Nat.lt_of_lt_of_le (hlt v hv) size_le
  · intro v
    rw [hfilled.rename_congr (fun w hw => goOn_of_lt hw) v]
    by_cases hv : v < g.size
    · rw [goOn_of_lt hv, node_eq _ (hlt v hv), hm.node_eq]
    · -- a free place is blank in both graphs
      obtain ⟨i, rfl⟩ := Nat.exists_eq_add_of_le (Nat.le_of_not_lt hv)
      rw [goOn_add, node_eq_blank (Nat.le_add_right ..), node_eq_blank (Nat.le_add_right ..)]
      rfl
  · exact fun _ => goOn_add
  · exact fun _ => hfilled

end Mirrors

end PatternAutomata.Graph
