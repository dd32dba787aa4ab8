/-
Edges of a graph.

An edge is there if the table of its source says so; what is noted at its target is kept
in step by adding and removing edges here. One lemma for each table and for the count says what
`link` and `unlink` do to it, at every place of the graph. All other fields of a state make up its
`shell`, and that neither touches any of them is one equation (`shell_link`, `shell_unlink`).
-/
import PatternAutomata.Graph.Basic

set_option autoImplicit false

namespace PatternAutomata

/-- An edge of a graph. -/
structure Edge where
  source : Vertex
  label : Label
  target : Vertex
  deriving DecidableEq

namespace Graph

/-- Whether there is an edge, by the table of its source. -/
def hasEdge (g : Graph) (e : Edge) : Bool := e.target ∈ g.destinations e.source e.label

/-- The edges out of some states, state by state. -/
def edgesFrom (g : Graph) (vs : List Vertex) : List Edge :=
  vs.flatMap fun v => (g.outEdges v).map fun (l, w) => ⟨v, l, w⟩

/-! ## Adding an edge -/

/-- The graph with an edge. An edge that is there already is not counted again. -/
def link (g : Graph) (e : Edge) : Graph :=
  let counted := if g.hasEdge e then g
    else g.update e.target fun n => { n with indegree := n.indegree + 1 }
  (counted.update e.source fun n => { n with next := n.next.note e.label e.target }).update
    e.target fun n => { n with previous := n.previous.note e.label e.source }

/-- Counting an edge shows in nothing but the count of its target. Whatever the edge does to the
count is settled before the tables are written, so each table can be discussed as if nothing was
counted. -/
theorem part_counted {α : Type} (part : Node → α)
    (h : ∀ n : Node, part { n with indegree := n.indegree + 1 } = part n) (g : Graph) (e : Edge)
    (v : Vertex) : part ((if g.hasEdge e then g
      else g.update e.target fun n => { n with indegree := n.indegree + 1 }).node v) =
        part (g.node v) := by
  split
  · rfl
  · exact part_update part h g e.target v

/-- What follows the source of an added edge. Of the three updates that make up the edge only the
one at its source shows here, also if the edge leads back to where it comes from. -/
theorem next_link {g : Graph} {e : Edge} {v : Vertex} :
    ((g.link e).node v).next =
      if v = e.source then (g.node v).next.note e.label e.target else (g.node v).next := by
  rw [link, part_update (·.next), node_update]
  · split
    · next hv => rw [part_counted (·.next) (fun _ => rfl), hv]
    · exact part_counted (·.next) (fun _ => rfl) g e v
  · exact fun _ => rfl

/-- What precedes the target of an added edge. The update at the target is the last one, so the two
before it only have to be shown to leave the table alone (`hinner`). -/
theorem previous_link {g : Graph} {e : Edge} {v : Vertex} :
    ((g.link e).node v).previous =
      if v = e.target then (g.node v).previous.note e.label e.source
      else (g.node v).previous := by
  have hinner : ∀ w, (((if g.hasEdge e then g
      else g.update e.target fun n => { n with indegree := n.indegree + 1 }).update e.source
        fun n => { n with next := n.next.note e.label e.target }).node w).previous =
          (g.node w).previous := by
    intro w
    rw [part_update (·.previous), part_counted (·.previous) fun _ => rfl]
    exact fun _ => rfl
  rw [link, node_update]
  split
  · next hv => rw [hinner, hv]
  · exact hinner v

/-- An edge is counted at its target if it was not there before: adding an edge twice counts
once. -/
theorem indegree_link {g : Graph} {e : Edge} {v : Vertex} :
    ((g.link e).node v).indegree =
      if v = e.target ∧ g.hasEdge e = false then (g.node v).indegree + 1
      else (g.node v).indegree := by
  rw [link, part_update (·.indegree), part_update (·.indegree)]
  · cases g.hasEdge e with
    | true => simp
    | false =>
      rw [if_neg Bool.false_ne_true, node_update]
      by_cases hv : v = e.target
      · simp [hv]
      · simp [hv]
  · exact fun _ => rfl
  · exact fun _ => rfl

/-- An added edge shows in the tables and counts of its ends and in nothing else. -/
theorem shell_link {g : Graph} (e : Edge) (v : Vertex) :
    ((g.link e).node v).shell = (g.node v).shell := by
  rw [link, part_update Node.shell, part_update Node.shell]
  · exact part_counted Node.shell (fun _ => rfl) g e v
  · exact fun _ => rfl
  · exact fun _ => rfl

/-! ## Removing an edge -/

/-- The graph without an edge that it has. -/
def unlink (g : Graph) (e : Edge) : Graph :=
  (g.update e.source fun n => { n with next := n.next.strike e.label e.target }).update
    e.target fun n => { n with
      indegree := n.indegree - 1
      previous := n.previous.strike e.label e.source }

/-- What follows the source of a removed edge. -/
theorem next_unlink {g : Graph} {e : Edge} {v : Vertex} :
    ((g.unlink e).node v).next =
      if v = e.source then (g.node v).next.strike e.label e.target else (g.node v).next := by
  rw [unlink, part_update (·.next), node_update]
  · split
    · next hv => rw [hv]
    · rfl
  · exact fun _ => rfl

/-- What precedes the target of a removed edge, again by the update that comes last. -/
theorem previous_unlink {g : Graph} {e : Edge} {v : Vertex} :
    ((g.unlink e).node v).previous =
      if v = e.target then (g.node v).previous.strike e.label e.source
      else (g.node v).previous := by
  have hinner : ∀ w, ((g.update e.source
      fun n => { n with next := n.next.strike e.label e.target }).node w).previous =
        (g.node w).previous := by
    intro w
    rw [part_update (·.previous)]
    exact fun _ => rfl
  rw [unlink, node_update]
  split
  · next hv => rw [hinner, hv]
  · exact hinner v

/-- The count at the target goes down whether the edge was there or not, so it is for the caller
to remove only what is there. -/
theorem indegree_unlink {g : Graph} {e : Edge} {v : Vertex} :
    ((g.unlink e).node v).indegree =
      if v = e.target then (g.node v).indegree - 1 else (g.node v).indegree := by
  have hinner : ∀ w, ((g.update e.source
      fun n => { n with next := n.next.strike e.label e.target }).node w).indegree =
        (g.node w).indegree := by
    intro w
    rw [part_update (·.indegree)]
    exact fun _ => rfl
  rw [unlink, node_update]
  split
  · next hv => rw [hinner, hv]
  · exact hinner v

/-- A removed edge shows in the tables and counts of its ends and in nothing else. -/
theorem shell_unlink {g : Graph} (e : Edge) (v : Vertex) :
    ((g.unlink e).node v).shell = (g.node v).shell := by
  rw [unlink, part_update Node.shell, part_update Node.shell]
  · exact fun _ => rfl
  · exact fun _ => rfl

/-! ## What edges leave alone

The fields of a state that are no tables and no counts make up its shell. That an edit of edges
keeps them all is one equation of shells, from which each field is read off here. -/

/-- States with the same shell have the same identifier. -/
theorem id_eq_of_shell_eq {n k : Node} (e : n.shell = k.shell) : n.id = k.id :=
  (Node.mk.inj e).1

theorem isStart_eq_of_shell_eq {n k : Node} (e : n.shell = k.shell) : n.isStart = k.isStart :=
  (Node.mk.inj e).2.2.1

theorem isAccepting_eq_of_shell_eq {n k : Node} (e : n.shell = k.shell) :
    n.isAccepting = k.isAccepting :=
  (Node.mk.inj e).2.2.2.1

theorem isTrap_eq_of_shell_eq {n k : Node} (e : n.shell = k.shell) : n.isTrap = k.isTrap :=
  (Node.mk.inj e).2.2.2.2.1

theorem standsFor_eq_of_shell_eq {n k : Node} (e : n.shell = k.shell) :
    n.standsFor = k.standsFor :=
  (Node.mk.inj e).2.2.2.2.2.2.2.2

/-- Adding an edge keeps all identifiers, and so the order of every listing. -/
@[simp] theorem id_link {g : Graph} {e : Edge} {v : Vertex} :
    ((g.link e).node v).id = (g.node v).id :=
  id_eq_of_shell_eq (shell_link e v)

/-- Adding an edge neither makes a state a start state nor stops it from being one. -/
@[simp] theorem isStart_link {g : Graph} {e : Edge} {v : Vertex} :
    ((g.link e).node v).isStart = (g.node v).isStart :=
  isStart_eq_of_shell_eq (shell_link e v)

/-- Adding an edge does not change which states accept. -/
@[simp] theorem isAccepting_link {g : Graph} {e : Edge} {v : Vertex} :
    ((g.link e).node v).isAccepting = (g.node v).isAccepting :=
  isAccepting_eq_of_shell_eq (shell_link e v)

@[simp] theorem standsFor_link {g : Graph} {e : Edge} {v : Vertex} :
    ((g.link e).node v).standsFor = (g.node v).standsFor :=
  standsFor_eq_of_shell_eq (shell_link e v)

@[simp] theorem standsFor_unlink {g : Graph} {e : Edge} {v : Vertex} :
    ((g.unlink e).node v).standsFor = (g.node v).standsFor :=
  standsFor_eq_of_shell_eq (shell_unlink e v)

/-! ## What the edges become -/

/-- An added edge shows in what its label leads to from its source and in no other step. -/
theorem destinations_link {g : Graph} {e : Edge} {v : Vertex} {l : Label} :
    (g.link e).destinations v l =
      if v = e.source ∧ l = e.label then (g.destinations v l).insert e.target
      else g.destinations v l := by
  rw [destinations, next_link, destinations]
  by_cases hv : v = e.source
  · rw [if_pos hv, Table.under_note]
    by_cases hl : l = e.label <;> simp [hv, hl]
  · rw [if_neg hv, if_neg fun h => hv h.1]

/-- An added edge is noted at its target, under its label, and at no other place. -/
theorem origins_link {g : Graph} {e : Edge} {v : Vertex} {l : Label} :
    (g.link e).origins v l =
      if v = e.target ∧ l = e.label then (g.origins v l).insert e.source
      else g.origins v l := by
  rw [origins, previous_link, origins]
  by_cases hv : v = e.target
  · rw [if_pos hv, Table.under_note]
    by_cases hl : l = e.label <;> simp [hv, hl]
  · rw [if_neg hv, if_neg fun h => hv h.1]

/-- A removed edge is missing from what its label leads to from its source and from no other
step. -/
theorem destinations_unlink {g : Graph} {e : Edge} {v : Vertex} {l : Label} :
    (g.unlink e).destinations v l =
      if v = e.source ∧ l = e.label then (g.destinations v l).erase e.target
      else g.destinations v l := by
  rw [destinations, next_unlink, destinations]
  by_cases hv : v = e.source
  · rw [if_pos hv, Table.under_strike]
    by_cases hl : l = e.label <;> simp [hv, hl]
  · rw [if_neg hv, if_neg fun h => hv h.1]

/-- A removed edge is struck at its target, under its label, and at no other place. Together with
`destinations_unlink` this keeps the two sides of every other edge in agreement. -/
theorem origins_unlink {g : Graph} {e : Edge} {v : Vertex} {l : Label} :
    (g.unlink e).origins v l =
      if v = e.target ∧ l = e.label then (g.origins v l).erase e.source
      else g.origins v l := by
  rw [origins, previous_unlink, origins]
  by_cases hv : v = e.target
  · rw [if_pos hv, Table.under_strike]
    by_cases hl : l = e.label <;> simp [hv, hl]
  · rw [if_neg hv, if_neg fun h => hv h.1]

end Graph

end PatternAutomata
