/-
The states of an automaton.

A state is known by its place in a graph (`Vertex`), which never changes, while what it
holds may be changed at will. Its identifier is a plain number that orders listings and
names sets of states; nothing makes identifiers differ.

Every edge is noted twice, in the table of what follows a state and in the table of
what precedes it, and each state counts the entries of the latter. The tables are kept
as they are written, even where the two disagree, so that a check of their agreement
has something to check.
-/
import PatternAutomata.Label

set_option autoImplicit false

namespace PatternAutomata

/-- The place of a state in a graph. -/
abbrev Vertex := Nat

/-- A set of states. -/
abbrev VertexSet := OrdSet Vertex

/-! ## Tables of edges -/

/-- For each label, the states at the other end of the edges with that label. -/
abbrev Table := OrdMap Label VertexSet

namespace Table

/-- The states noted under a label. -/
def under (t : Table) (l : Label) : VertexSet := (t.get? l).getD ∅

/-- The table with a state noted under a label. -/
def note (t : Table) (l : Label) (v : Vertex) : Table := t.insert l ((t.under l).insert v)

/-- The table without a state under a label; a label with nothing left goes too. -/
def strike (t : Table) (l : Label) (v : Vertex) : Table :=
  let rest := (t.under l).erase v
  if rest.isEmpty then t.erase l else t.insert l rest

/-- Noting a state under a label adds it there and touches no other label. -/
theorem under_note {t : Table} {l k : Label} {v : Vertex} :
    (t.note l v).under k = if k = l then (t.under l).insert v else t.under k := by
  rw [under, note, OrdMap.get?_insert]
  split <;> rfl

/-- Striking a state from under a label takes it away there and touches no other label. That the
label itself may go, if nothing is left under it, does not show in what is noted. -/
theorem under_strike {t : Table} {l k : Label} {v : Vertex} :
    (t.strike l v).under k = if k = l then (t.under l).erase v else t.under k := by
  rw [strike]
  split
  · next he =>
    rw [under, OrdMap.get?_erase]
    split
    · exact (OrdSet.isEmpty_iff_eq.1 he).symm
    · rfl
  · rw [under, OrdMap.get?_insert]
    split <;> rfl

/-- The entries in which a state is noted. -/
def pairs (t : Table) : List (Label × Vertex) :=
  t.entries.flatMap fun (l, vs) => vs.toList.map fun v => (l, v)

/-- The entries of a table list a state under a label exactly if it is noted there. Stored but empty
entries contribute nothing. -/
theorem mem_pairs {t : Table} {l : Label} {v : Vertex} : (l, v) ∈ t.pairs ↔ v ∈ t.under l := by
  rw [pairs, List.mem_flatMap, under]
  constructor
  · intro ⟨(k, vs), hentry, h⟩
    obtain ⟨u, hu, e⟩ := List.mem_map.1 h
    obtain ⟨rfl, rfl⟩ := Prod.mk.inj e
    rw [OrdMap.mem_entries_iff.1 hentry]
    exact hu
  · intro h
    cases hget : t.get? l with
    | none =>
      rw [hget] at h
      exact absurd h (OrdSet.not_mem_empty v)
    | some vs =>
      rw [hget] at h
      exact ⟨(l, vs), OrdMap.mem_entries_iff.2 hget, List.mem_map_of_mem h⟩

end Table

/-! ## States -/

/-- What a state holds. -/
structure Node where
  /-- The number that orders the state in listings. -/
  id : Int
  /-- A text to show with the state. -/
  name : String := ""
  isStart : Bool := false
  isAccepting : Bool := false
  /-- Whether the state is known to lead to no acceptance. -/
  isTrap : Bool := false
  /-- Where the edges out of the state lead. -/
  next : Table := ∅
  /-- Where the edges into the state come from. -/
  previous : Table := ∅
  /-- The number of edges into the state, as counted edit by edit. -/
  indegree : Int := 0
  /-- The states of another automaton that this one stands for. -/
  standsFor : VertexSet := ∅
  deriving DecidableEq, Inhabited

/-- The state at a place where none was put. -/
def Node.blank : Node := { id := 0 }

/-- A state without its edges: what adding and removing edges leaves alone. -/
def Node.shell (n : Node) : Node := { n with next := ∅, previous := ∅, indegree := 0 }

/-- What is shown of a state where it is mentioned. -/
structure Caption where
  id : Int
  name : String
  isStart : Bool
  isAccepting : Bool
  deriving DecidableEq

namespace Caption

/-- A state in a text: its identifier, its name if it has one, and its flags. -/
def text (c : Caption) : String :=
  let name := if c.name.isEmpty then "" else " " ++ Text.quoted c.name
  let start := if c.isStart then "@" else ""
  let accepting := if c.isAccepting then "||" else ""
  "<State " ++ toString c.id ++ name ++ start ++ accepting ++ ">"

/-- Several states in a text. -/
def textOfAll (cs : List Caption) : String := Text.bracketed (cs.map text)

end Caption

/-- What is shown of a state. -/
def Node.caption (n : Node) : Caption := ⟨n.id, n.name, n.isStart, n.isAccepting⟩

end PatternAutomata
