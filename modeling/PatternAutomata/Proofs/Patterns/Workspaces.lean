/-
Work beside other automata.

Building, determinizing and minimizing add an automaton to a workspace, on states that they
add to its graph, and leave all automata that were there as they were (`Workspace.Grows`):
their states lie below the new ones. Reading changes how far an automaton has read and nothing
else (`Workspace.Later`). So what held of an automaton before goes on to hold
(`Workspace.Later.stays`).
-/
import PatternAutomata.Proofs.Patterns.Serving
import PatternAutomata.Workspace

set_option autoImplicit false

namespace PatternAutomata

open PatternAutomata.Graph

namespace Workspace

variable {w w' w'' : Workspace} {h k : Handle}

/-! ## Looking automata up

An automaton is looked up by its place in the table of the workspace. Work on it takes it out with
the graph and the log, and puts the three back. -/

/-- What is put back under a handle is found under it. -/
theorem automaton_putBack (hh : h < w.automata.size) (m : Machine) :
    (w.putBack h m).automaton h = m.automaton := by
  rw [automaton, putBack, Array.getD_eq_getD_getElem?, Array.getElem?_setIfInBounds_self,
    if_pos hh]
  rfl

/-- So is the machine that it was put back with. -/
theorem machine_putBack (hh : h < w.automata.size) (m : Machine) :
    (w.putBack h m).machine h = m := by
  rw [machine, automaton_putBack hh]
  rfl

/-- Under other handles there is what there was. -/
theorem automaton_putBack_of_ne (hne : h ≠ k) (m : Machine) :
    (w.putBack h m).automaton k = w.automaton k := by
  rw [automaton, putBack, Array.getD_eq_getD_getElem?, Array.getElem?_setIfInBounds_ne hne,
    ← Array.getD_eq_getD_getElem?]
  rfl

/-- Putting back adds no handle. -/
theorem size_putBack (m : Machine) : (w.putBack h m).automata.size = w.automata.size :=
  Array.size_setIfInBounds ..

section Adding

variable (g : Graph) (as : Array Automaton) (log : Array Event) (a : Automaton)

/-- What is added is found under the next handle. -/
theorem automaton_push : (⟨g, as.push a, log⟩ : Workspace).automaton as.size = a := by
  rw [automaton, Array.getD_eq_getD_getElem?, Array.getElem?_push_size]
  rfl

/-- Under the handles that were there before there is what there was. -/
theorem automaton_push_of_lt (hk : k < w.automata.size) :
    (⟨g, w.automata.push a, log⟩ : Workspace).automaton k = w.automaton k := by
  rw [automaton, automaton, Array.getD_eq_getD_getElem?, Array.getD_eq_getD_getElem?,
    Array.getElem?_push_lt hk, Array.getElem?_eq_getElem hk]

end Adding

/-- Putting an automaton back as it is changes nothing. -/
theorem setIfInBounds_automaton (w : Workspace) (h : Handle) :
    w.automata.setIfInBounds h (w.automaton h) = w.automata := by
  apply Array.ext_getElem?
  intro i
  rw [Array.getElem?_setIfInBounds]
  split
  · next heq =>
    subst heq
    split
    · next hlt => rw [automaton, Array.getD_eq_getD_getElem?, Array.getElem?_eq_getElem hlt,
        Option.getD_some]
    · next hlt => rw [Array.getElem?_eq_none (Nat.le_of_not_lt hlt)]
  · rfl

/-! ## What stays -/

/-- The automata of the first workspace are in the second one as they were. -/
structure Grows (w w' : Workspace) : Prop where
  automata_le : w.automata.size ≤ w'.automata.size
  size_le : w.graph.size ≤ w'.graph.size
  node_eq : ∀ v < w.graph.size, w'.graph.node v = w.graph.node v
  automaton_eq : ∀ h < w.automata.size, w'.automaton h = w.automaton h

/-- The automata of the first workspace are in the second one as they were, except for how far
they have read. -/
structure Later (w w' : Workspace) : Prop where
  automata_le : w.automata.size ≤ w'.automata.size
  size_le : w.graph.size ≤ w'.graph.size
  node_eq : ∀ v < w.graph.size, w'.graph.node v = w.graph.node v
  automaton_eq : ∀ h < w.automata.size,
    w'.automaton h = { w.automaton h with run := (w'.automaton h).run }
  current_mem : ∀ h < w.automata.size, ∀ v ∈ (w'.automaton h).run.current,
    v ∈ (w.automaton h).run.current ∨ v ∈ (w.automaton h).states

namespace Grows

/-- A workspace holds its own automata as they are. -/
theorem refl (w : Workspace) : w.Grows w where
  automata_le := Nat.le_refl _
  size_le := Nat.le_refl _
  node_eq _ _ := rfl
  automaton_eq _ _ := rfl

/-- Growing twice is growing. -/
theorem trans (hw : w.Grows w') (hw' : w'.Grows w'') : w.Grows w'' where
  automata_le := Nat.le_trans hw.automata_le hw'.automata_le
  size_le := Nat.le_trans hw.size_le hw'.size_le
  node_eq v hv :=
    (hw'.node_eq v (Nat.lt_of_lt_of_le hv hw.size_le)).trans (hw.node_eq v hv)
  automaton_eq h hh :=
    (hw'.automaton_eq h (Nat.lt_of_lt_of_le hh hw.automata_le)).trans (hw.automaton_eq h hh)

/-- What has grown is later. No automaton in it has read anything. -/
theorem later (hw : w.Grows w') : w.Later w' where
  automata_le := hw.automata_le
  size_le := hw.size_le
  node_eq := hw.node_eq
  automaton_eq h hh := by rw [hw.automaton_eq h hh]
  current_mem h hh v hv := by
    rw [hw.automaton_eq h hh] at hv
    exact Or.inl hv

/-- An automaton may be added, with states of its own. -/
theorem added {g : Graph} {log : Array Event} (a : Automaton) (size_le : w.graph.size ≤ g.size)
    (node_eq : ∀ v < w.graph.size, g.node v = w.graph.node v) :
    w.Grows ⟨g, w.automata.push a, log⟩ where
  automata_le := by
    rw [Array.size_push]
    exact Nat.le_succ _
  size_le := size_le
  node_eq := node_eq
  automaton_eq _ hk := automaton_push_of_lt g log a hk

/-- What was added since may be changed at will, with its states. The states that were there at the
beginning must be left alone. -/
theorem putBack (hw : w.Grows w') (hh : w.automata.size ≤ h) {m : Machine}
    (size_le : w'.graph.size ≤ m.graph.size)
    (node_eq : ∀ v < w.graph.size, m.graph.node v = w'.graph.node v) :
    w.Grows (w'.putBack h m) where
  automata_le := by
    rw [size_putBack]
    exact hw.automata_le
  size_le := Nat.le_trans hw.size_le size_le
  node_eq v hv := (node_eq v hv).trans (hw.node_eq v hv)
  automaton_eq k hk := by
    -- older handles are below the one that is put back
    have hne : h ≠ k := by
      rintro rfl
      exact Nat.not_lt.2 hh hk
    rw [automaton_putBack_of_ne hne, hw.automaton_eq k hk]

/-- The log may grow. -/
theorem logged (w : Workspace) (log : Array Event) : w.Grows { w with log := log } where
  automata_le := Nat.le_refl _
  size_le := Nat.le_refl _
  node_eq _ _ := rfl
  automaton_eq _ _ := rfl

end Grows

namespace Later

/-- A sound automaton stays. Its states are within the graph as it was, so they were not touched,
and reading does not lead out of them. -/
theorem stays (hw : w.Later w') (hh : h < w.automata.size)
    (hs : (w.automaton h).Sound w.graph) :
    (w.automaton h).Stays w.graph w'.graph (w'.automaton h) where
  size_le := hw.size_le
  node_eq v hv := hw.node_eq v (hs.placed v hv)
  automaton_eq := hw.automaton_eq h hh
  current_mem v hv := by
    rcases hw.current_mem h hh v hv with hv | hv
    · exact hs.current_mem v hv
    · exact hv

/-- Reading keeps what was there. The graph is left alone, and so are the other automata. -/
theorem onlyRead {m : Machine} (hm : (w.machine h).OnlyRead m) : w.Later (w.putBack h m) := by
  have hgraph : (w.putBack h m).graph = w.graph := hm.graph_eq
  have hsame : ∀ k < w.automata.size, h ≠ k → (w.putBack h m).automaton k = w.automaton k :=
    fun k _ hne => automaton_putBack_of_ne hne m
  constructor
  · rw [size_putBack]
  · rw [hgraph]
  · intro v _
    rw [hgraph]
  · intro k hk
    by_cases hne : h = k
    · subst hne
      rw [automaton_putBack hk]
      exact hm.automaton_eq
    · rw [hsame k hk hne]
  · intro k hk v hv
    -- only the automaton that was read in has moved on, and within its own states
    by_cases hne : h = k
    · subst hne
      rw [automaton_putBack hk] at hv
      exact Or.inr (hm.current_mem v hv)
    · rw [hsame k hk hne] at hv
      exact Or.inl hv

end Later

end Workspace

/-! ## Work -/

namespace Work

open Workspace

variable {w : Workspace} {h : Handle} {m : Machine}

/-- Work on an automaton that succeeds puts back what it leaves. -/
theorem on_eq_ok {α : Type} {x : Edit α} {r : α} (hx : x (w.machine h) = .ok r m) :
    Work.on h x w = .ok r (w.putBack h m) := by
  rw [on, hx]

/-- Adding an automaton that was made of another one, which stays as it is. Putting the other one
back changes nothing, so the workspace has grown by one entry. -/
theorem add_eq_ok {x : Edit Automaton} {d : Automaton} (hx : x (w.machine h) = .ok d m)
    (hm : m.automaton = w.automaton h) :
    (do addAutomaton (← on h x) : Work Handle) w =
      .ok w.automata.size ⟨m.graph, w.automata.push d, m.log⟩ := by
  have hback : w.automata.setIfInBounds h m.automaton = w.automata := by
    rw [hm, setIfInBounds_automaton]
  simp only [outcome_bind, on_eq_ok hx, addAutomaton, outcome_get, Workspace.putBack, hback,
    outcome_set, outcome_pure]
  rfl

end Work

end PatternAutomata
