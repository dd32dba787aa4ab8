/-
Automata as they are drawn.

A drawing shows an automaton as a graph: its alphabet, the number of its start state, the
number and flags of each state, and the edges by the numbers of their ends. It leaves out
what states stand for, whether unknown symbols are refused, and how far was read. States and
edges are drawn in order, but drawings of one graph are alike in any order, and automata that
are drawn alike accept the same words (`language_eq_of_alike`).
-/
import PatternAutomata.Automaton.Snapshot
import PatternAutomata.Proofs.Structure.Sound
import PatternAutomata.Proofs.Words.Simulation

set_option autoImplicit false

namespace PatternAutomata

open PatternAutomata.Graph

/-- A state in a drawing. -/
structure Dot where
  id : Int
  isStart : Bool
  isAccepting : Bool
  isTrap : Bool
  deriving DecidableEq

/-- An edge in a drawing. -/
structure Arrow where
  source : Int
  label : Label
  target : Int
  deriving DecidableEq

/-- An automaton as a graph whose states are numbers. -/
structure Drawing where
  start : Int
  alphabet : List Label
  dots : List Dot
  arrows : List Arrow
  deriving DecidableEq

namespace Drawing

/-- The drawings show one graph, in whatever order. -/
structure Alike (x y : Drawing) : Prop where
  start_eq : x.start = y.start
  mem_alphabet_iff : ∀ l, l ∈ x.alphabet ↔ l ∈ y.alphabet
  mem_dots_iff : ∀ d, d ∈ x.dots ↔ d ∈ y.dots
  mem_arrows_iff : ∀ e, e ∈ x.arrows ↔ e ∈ y.arrows

namespace Alike

/-- A drawing shows the same graph as itself. -/
theorem refl (x : Drawing) : x.Alike x :=
  ⟨rfl, fun _ => Iff.rfl, fun _ => Iff.rfl, fun _ => Iff.rfl⟩

/-- It does not matter which drawing comes first. -/
theorem symm {x y : Drawing} (h : x.Alike y) : y.Alike x :=
  ⟨h.start_eq.symm, fun l => (h.mem_alphabet_iff l).symm, fun d => (h.mem_dots_iff d).symm,
    fun e => (h.mem_arrows_iff e).symm⟩

end Alike

end Drawing

namespace StateView

/-- The state in a drawing. -/
def dot (s : StateView) : Dot := ⟨s.id, s.isStart, s.isAccepting, s.isTrap⟩

/-- The edges out of a state in a drawing. -/
def arrows (s : StateView) : List Arrow :=
  s.next.flatMap fun (l, ids) => ids.map fun i => ⟨s.id, l, i⟩

end StateView

/-- The drawing of what is seen of an automaton. -/
def Snapshot.drawing (s : Snapshot) : Drawing where
  start := s.start
  alphabet := s.alphabet
  dots := s.states.map StateView.dot
  arrows := s.states.flatMap StateView.arrows

namespace Automaton

variable {g h : Graph} {a b : Automaton}

/-- The drawing of an automaton. -/
def drawing (g : Graph) (a : Automaton) : Drawing := (a.snapshot g).drawing

/-- Each state of the automaton is drawn, by its number and its flags. -/
theorem mem_dots {d : Dot} : d ∈ (a.drawing g).dots ↔ ∃ v ∈ a.states,
    d = ⟨(g.node v).id, (g.node v).isStart, (g.node v).isAccepting, (g.node v).isTrap⟩ := by
  simp only [drawing, Snapshot.drawing, snapshot, List.map_map, List.mem_map]
  constructor
  · rintro ⟨v, hv, rfl⟩
    exact ⟨v, (mem_inOrder g).1 hv, rfl⟩
  · rintro ⟨v, hv, rfl⟩
    exact ⟨v, (mem_inOrder g).2 hv, rfl⟩

/-- Each edge of the automaton is drawn, by the numbers of its ends. -/
theorem mem_arrows {e : Arrow} : e ∈ (a.drawing g).arrows ↔
    ∃ v ∈ a.states, ∃ l, ∃ w ∈ g.destinations v l, e = ⟨(g.node v).id, l, (g.node w).id⟩ := by
  simp only [drawing, Snapshot.drawing, snapshot, List.mem_flatMap, List.mem_map]
  constructor
  · rintro ⟨_, ⟨v, hv, rfl⟩, he⟩
    obtain ⟨⟨l, is⟩, hrow, he⟩ := List.mem_flatMap.1 he
    obtain ⟨⟨k, vs⟩, hentry, heq⟩ := List.mem_map.1 hrow
    obtain ⟨rfl, rfl⟩ := Prod.mk.inj heq
    obtain ⟨i, hi, rfl⟩ := List.mem_map.1 he
    obtain ⟨w, hw, rfl⟩ := List.mem_map.1 hi
    refine ⟨v, (mem_inOrder g).1 hv, k, w, ?_, rfl⟩
    rw [destinations, Table.under, OrdMap.mem_entries_iff.1 hentry, Option.getD_some]
    exact (mem_inOrder g).1 hw
  · rintro ⟨v, hv, l, w, hw, rfl⟩
    refine ⟨_, ⟨v, (mem_inOrder g).2 hv, rfl⟩, List.mem_flatMap.2 ?_⟩
    rw [destinations, Table.under] at hw
    cases hget : (g.node v).next.get? l with
    | none =>
      rw [hget] at hw
      exact absurd hw (OrdSet.not_mem_empty w)
    | some vs =>
      rw [hget, Option.getD_some] at hw
      refine ⟨(l, g.ids vs), List.mem_map_of_mem (OrdMap.mem_entries_iff.2 hget), ?_⟩
      exact List.mem_map_of_mem (List.mem_map_of_mem ((mem_inOrder g).2 hw))

/-- What is accepted from a state is accepted from the state with its number in an automaton that is
drawn alike. To have the same number is a simulation: each edge is drawn, and so is an edge of the
other automaton. -/
theorem languageFrom_le_of_alike (ha : a.Sound g) (hb : b.Sound h)
    (halike : (a.drawing g).Alike (b.drawing h)) {v x : Vertex} (hv : v ∈ a.states)
    (hx : x ∈ b.states) (hid : (g.node v).id = (h.node x).id) :
    g.languageFrom v ≤ h.languageFrom x := by
  apply languageFrom_le_of_simulation
    (R := fun v x => v ∈ a.states ∧ x ∈ b.states ∧ (g.node v).id = (h.node x).id)
  · rintro v x ⟨hv, hx, hid⟩ hacc
    have hdot := (mem_dots (g := g)).2 ⟨v, hv, rfl⟩
    rw [halike.mem_dots_iff] at hdot
    -- a drawing shows identifiers only, and in a sound automaton they tell states apart
    obtain ⟨y, hy, hdot⟩ := mem_dots.1 hdot
    obtain ⟨hy_id, _, hy_acc, _⟩ := Dot.mk.inj hdot
    obtain rfl := hb.id_injective hx hy (hid.symm.trans hy_id)
    exact nil_mem_languageFrom (hy_acc.symm.trans hacc)
  · rintro v x ⟨hv, hx, hid⟩ l w hw
    have harrow := (mem_arrows (g := g)).2 ⟨v, hv, l, w, hw, rfl⟩
    rw [halike.mem_arrows_iff] at harrow
    obtain ⟨y, hy, k, z, hz, harrow⟩ := mem_arrows.1 harrow
    obtain ⟨hy_id, rfl, hz_id⟩ := Arrow.mk.inj harrow
    obtain rfl := hb.id_injective hx hy (hid.symm.trans hy_id)
    exact ⟨z, .single hz, ha.target_mem hv hw, hb.target_mem hx hz, hz_id⟩
  · exact ⟨hv, hx, hid⟩

/-- Automata that are drawn alike accept the same words, because the number of the start state is
drawn. -/
theorem language_eq_of_alike (ha : a.Sound g) (hb : b.Sound h)
    (halike : (a.drawing g).Alike (b.drawing h)) : a.language g = b.language h := by
  have hstart : (g.node a.start).id = (h.node b.start).id := halike.start_eq
  apply le_antisymm
  · exact languageFrom_le_of_alike ha hb halike ha.start_mem hb.start_mem hstart
  · exact languageFrom_le_of_alike hb ha halike.symm hb.start_mem ha.start_mem hstart.symm

end Automaton

end PatternAutomata
