/-
Disconnecting only takes edges away.

Whatever is collected along the way, and whether it fails or not, disconnecting two
states leaves a graph each edge of which was there before (`Graph.Shrinks`), and of the
edges with the same source and label there are fewer than before.
-/
import PatternAutomata.Automaton.Edges

set_option autoImplicit false

namespace PatternAutomata

namespace Graph

/-- Every edge of the second graph is one of the first. -/
def Shrinks (g h : Graph) : Prop :=
  ∀ v l w, w ∈ h.destinations v l → w ∈ g.destinations v l

theorem Shrinks.refl (g : Graph) : g.Shrinks g := fun _ _ _ h => h

theorem Shrinks.trans {g h k : Graph} (hgh : g.Shrinks h) (hhk : h.Shrinks k) : g.Shrinks k :=
  fun v l w hw => hgh v l w (hhk v l w hw)

/-- Unlinking takes one edge away and adds none. -/
theorem shrinks_unlink (g : Graph) (e : Edge) : g.Shrinks (g.unlink e) := by
  intro v l w hw
  rw [destinations_unlink] at hw
  split at hw
  · exact (OrdSet.mem_erase.1 hw).1
  · exact hw

/-- Cutting takes at most one edge away. It fails if the entry at the target is missing, and what it
leaves behind then still has no new edge. -/
theorem shrinks_cut (g : Graph) (e : Edge) : g.Shrinks (leftBy (g.cut e)) := by
  rw [cut]
  split
  · split <;> exact shrinks_unlink g e
  · exact .refl g

/-- Cutting several edges takes edges away only, and stops at the first that fails. -/
theorem shrinks_cutAll (g : Graph) (es : List Edge) : g.Shrinks (leftBy (g.cutAll es)) := by
  induction es generalizing g with
  | nil => exact .refl g
  | cons e es ih =>
    have hcut := shrinks_cut g e
    rw [cutAll]
    split
    · next h => rw [h] at hcut; exact hcut.trans (ih _)
    · next h => rw [h] at hcut; exact hcut

end Graph

namespace Machine

/-- Collection only takes edges away: all it does to a graph is to cut the edges of the states it
gives up. The induction is the recursion of the collection, whose failures leave off earlier. -/
theorem shrinks_collectFrom (m : Machine) (candidates removed : List Vertex) :
    m.graph.Shrinks (leftBy (m.collectFrom candidates removed)).graph := by
  fun_induction collectFrom m candidates removed with
  | case1 m removed => exact .refl _
  | case2 m removed v rest gone h order edges f g hcut =>
    have := m.graph.shrinks_cutAll edges
    rwa [hcut] at this
  | case3 m removed v rest gone h order edges u g hcut next ih =>
    have := m.graph.shrinks_cutAll edges
    rw [hcut] at this
    exact this.trans ih
  | case4 m removed v rest gone h ih => exact ih

/-- The same for one collection with all that it notes. -/
theorem shrinks_collect (m : Machine) (v : Vertex) :
    m.graph.Shrinks (leftBy (m.collect v)).graph := by
  have := m.shrinks_collectFrom [v] []
  rw [collect]
  split
  · next h =>
    rw [h] at this
    simp only [leftBy] at this ⊢
    split <;> exact this
  · next h => rw [h] at this; exact this

/-- Disconnecting leaves fewer edges with the same source and label. The loop that removes silent
edges disconnects one of them each time around; this is why it ends, however the graph is shaped and
whether or not its tables agree. -/
theorem size_destinations_disconnect_lt {m : Machine} {e : Edge}
    (h : e.target ∈ m.graph.destinations e.source e.label) :
    ((leftBy (m.disconnect e)).graph.destinations e.source e.label).size <
      (m.graph.destinations e.source e.label).size := by
  have hedge : m.graph.hasEdge e = true := by simpa [Graph.hasEdge] using h
  have hgone : e.target ∉ (m.graph.unlink e).destinations e.source e.label := by
    rw [Graph.destinations_unlink, if_pos ⟨rfl, rfl⟩]
    simp
  have hshrinks := m.graph.shrinks_unlink e
  -- the edge itself is gone as soon as it is unlinked, and nothing that follows brings it back
  suffices hs : (m.graph.unlink e).Shrinks (leftBy (m.disconnect e)).graph from
    OrdSet.size_lt_of_subset (fun w hw => hshrinks _ _ w (hs _ _ w hw)) h
      (fun hw => hgone (hs _ _ _ hw))
  rw [disconnect, Graph.cut, if_pos hedge]
  split
  · next hcut =>
    split at hcut
    · cases hcut
      exact shrinks_collect { m with graph := _ } e.target
    · nomatch hcut
  · next hcut =>
    split at hcut
    · nomatch hcut
    · cases hcut
      exact .refl _

end Machine

end PatternAutomata
