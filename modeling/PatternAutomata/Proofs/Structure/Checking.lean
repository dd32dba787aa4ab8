/-
What the check tells, whatever the graph looks like.

The invariants of an automaton are written down as `Automaton.Invariants`: its start state is its
only state flagged as start, identifiers differ, no entry is empty, edges and what is noted of them
stay among its states and mirror each other, and each state counts what is noted at it.

All automata with these invariants pass the check, but others pass it as well: the check asks of
what is noted at a state whether there is such an edge, and not whether the edge comes from a state
of the automaton. Nor does it count those from elsewhere. So what passes has the invariants exactly
if it is closed (`Automaton.check_spec`). If the check fails, then what it reports is the case
(`Violation.Holds`).
-/
import Mathlib
import PatternAutomata.Proofs.Structure.Consistent

set_option autoImplicit false

namespace PatternAutomata

/-- What a violation tells of an automaton is the case. -/
def Violation.Holds (g : Graph) (a : Automaton) : Violation → Prop
  | strayStarts expected found => expected = g.caption a.start ∧ ∃ vs : List Vertex,
      found = vs.map g.caption ∧ vs ≠ [a.start] ∧
        ∀ v, v ∈ vs ↔ v ∈ a.states ∧ (g.node v).isStart = true
  | repeatedIds => ∃ v ∈ a.states, ∃ w ∈ a.states, v ≠ w ∧ (g.node v).id = (g.node w).id
  | emptyEntry state l =>
    ∃ v ∈ a.states, state = g.caption v ∧ (g.node v).next.get? l = some ∅
  | leavesAutomaton source l target => ∃ v ∈ a.states, ∃ w, source = g.caption v ∧
      target = g.caption w ∧ w ∈ g.destinations v l ∧ w ∉ a.states
  | noInverseEntry source l target => ∃ v ∈ a.states, ∃ w ∈ a.states, source = g.caption v ∧
      target = g.caption w ∧ w ∈ g.destinations v l ∧ v ∉ g.origins w l
  | wrongIndegree state noted actual => ∃ v ∈ a.states, state = g.caption v ∧
      noted = (g.node v).indegree ∧ actual = a.incoming g v ∧ noted ≠ actual
  | emptyInverseEntry state l =>
    ∃ v ∈ a.states, state = g.caption v ∧ (g.node v).previous.get? l = some ∅
  | noForwardEdge source l target => ∃ v ∈ a.states, ∃ u, source = g.caption u ∧
      target = g.caption v ∧ u ∈ g.origins v l ∧ v ∉ g.destinations u l

namespace Automaton

variable {g : Graph} {a : Automaton} {v : Vertex} {x : Violation}

/-! ## What is reported -/

/-- If the start is reported, the states found to be flagged are all that are, and they are not the
start state alone. -/
theorem holds_of_startViolation? (h : startViolation? g a (statesToCheck g a) = some x) :
    x.Holds g a := by
  rw [startViolation?] at h
  split at h
  · cases h
  · next hne =>
    cases h
    refine ⟨rfl, _, rfl, hne, ?_⟩
    intro w
    rw [List.mem_filter, mem_statesToCheck]

/-- If repeated identifiers are reported, two states share one. -/
theorem holds_of_idViolation? (h : idViolation? g (statesToCheck g a) = some x) :
    x.Holds g a := by
  have hnone : idViolation? g (statesToCheck g a) ≠ none := by
    rw [h]
    exact Option.some_ne_none x
  -- a list with a repetition holds two states with one identifier, and not one state twice
  have hrepeated := mt idViolation?_eq_none_iff.2 hnone
  push Not at hrepeated
  obtain ⟨v, hv, w, hw, hid, hne⟩ := hrepeated
  rw [idViolation?] at h
  split at h
  · cases h
  · cases h
    exact ⟨v, hv, w, hw, hne, hid⟩

/-- What a table shows is an entry without states or a state that is noted wrongly. Of several
faults the first is shown, but the first of which is not said here. -/
theorem tableViolation?_eq_some {t : Table} {emptyEntry : Label → Violation}
    {noted? : Label → Vertex → Option Violation}
    (h : tableViolation? g t emptyEntry noted? = some x) :
    (∃ l, t.get? l = some ∅ ∧ x = emptyEntry l) ∨
      ∃ l, ∃ v ∈ t.under l, noted? l v = some x := by
  obtain ⟨⟨l, vs⟩, hentry, hx⟩ := List.exists_of_findSome?_eq_some h
  have hget := OrdMap.mem_entries_iff.1 hentry
  dsimp only at hx
  split at hx
  · next hempty =>
    cases hx
    exact Or.inl ⟨l, hget.trans (congrArg some (OrdSet.isEmpty_iff_eq.1 hempty)), rfl⟩
  · obtain ⟨v, hv, hx⟩ := List.exists_of_findSome?_eq_some hx
    refine Or.inr ⟨l, v, ?_, hx⟩
    rw [Table.under, hget]
    exact g.mem_inOrder.1 hv

/-- What is reported of the edges out of a state is the case there. -/
theorem holds_of_nextViolation? (hv : v ∈ a.states) (h : nextViolation? g a v = some x) :
    x.Holds g a := by
  rcases tableViolation?_eq_some h with ⟨l, hget, rfl⟩ | ⟨l, w, hw, hx⟩
  · exact ⟨v, hv, rfl, hget⟩
  · rw [edgeViolation?] at hx
    split at hx
    · next hout =>
      cases hx
      exact ⟨v, hv, w, rfl, rfl, hw, hout⟩
    · next hin =>
      split at hx
      · next hnoted =>
        cases hx
        exact ⟨v, hv, w, not_not.1 hin, rfl, rfl, hw, hnoted⟩
      · cases hx

/-- What is reported of the edges into a state, or of their count, is the case there. -/
theorem holds_of_previousViolation? (hv : v ∈ a.states) (h : previousViolation? g a v = some x) :
    x.Holds g a := by
  rw [previousViolation?] at h
  split at h
  · next hcount =>
    cases h
    exact ⟨v, hv, rfl, rfl, rfl, hcount⟩
  · rcases tableViolation?_eq_some h with ⟨l, hget, rfl⟩ | ⟨l, u, hu, hx⟩
    · exact ⟨v, hv, rfl, hget⟩
    · rw [originViolation?] at hx
      split at hx
      · next hedge =>
        cases hx
        exact ⟨v, hv, u, rfl, rfl, hu, hedge⟩
      · cases hx

/-- What the check reports is the case: each of its four parts reports nothing else. -/
theorem holds_of_violation? (h : a.violation? g = some x) : x.Holds g a := by
  rw [violation?] at h
  rcases Option.or_eq_some_iff.1 h with h | ⟨_, h⟩
  · exact holds_of_startViolation? h
  rcases Option.or_eq_some_iff.1 h with h | ⟨_, h⟩
  · exact holds_of_idViolation? h
  rcases Option.or_eq_some_iff.1 h with h | ⟨_, h⟩
  · obtain ⟨v, hv, hx⟩ := List.exists_of_findSome?_eq_some h
    exact holds_of_nextViolation? (mem_statesToCheck.1 hv) hx
  · obtain ⟨v, hv, hx⟩ := List.exists_of_findSome?_eq_some h
    exact holds_of_previousViolation? (mem_statesToCheck.1 hv) hx

/-! ## What passes -/

/-- The invariants of an automaton, as they are written down. -/
structure Invariants (g : Graph) (a : Automaton) : Prop where
  start_mem : a.start ∈ a.states
  isStart_iff : ∀ v ∈ a.states, (g.node v).isStart = true ↔ v = a.start
  id_injective : ∀ v ∈ a.states, ∀ w ∈ a.states, (g.node v).id = (g.node w).id → v = w
  next_ne_empty : ∀ v ∈ a.states, ∀ l, (g.node v).next.get? l ≠ some ∅
  previous_ne_empty : ∀ v ∈ a.states, ∀ l, (g.node v).previous.get? l ≠ some ∅
  target_mem : ∀ v ∈ a.states, ∀ l, ∀ w ∈ g.destinations v l, w ∈ a.states
  mem_origins : ∀ v ∈ a.states, ∀ l, ∀ w ∈ g.destinations v l, v ∈ g.origins w l
  source_mem : ∀ v ∈ a.states, ∀ l, ∀ u ∈ g.origins v l, u ∈ a.states
  mem_destinations : ∀ v ∈ a.states, ∀ l, ∀ u ∈ g.origins v l, v ∈ g.destinations u l
  indegree_eq : ∀ v ∈ a.states, (g.node v).indegree = (g.node v).previous.pairs.length

/-- The invariants say the same as passing the check and being closed, part by part; only the count
is said differently, by what is noted and not by the edges that come in. -/
theorem invariants_iff : a.Invariants g ↔ a.WellFormed g ∧ a.Closed g := by
  rw [wellFormed_closed_iff]
  constructor
  · intro h
    refine ⟨h.start_mem, h.isStart_iff, h.id_injective, h.next_ne_empty, h.previous_ne_empty,
      h.target_mem, h.source_mem, ?_, h.indegree_eq⟩
    intro v hv w hw l
    exact ⟨h.mem_destinations w hw l v, h.mem_origins v hv l w⟩
  · rintro ⟨hstart, hflag, hid, hc⟩
    -- in a closed automaton the mirror has both directions at hand
    refine ⟨hstart, hflag, hid, hc.next_ne_empty, hc.previous_ne_empty, hc.target_mem, ?_,
      hc.source_mem, ?_, hc.indegree_eq⟩
    · intro v hv l w hw
      exact (hc.mirror v hv w (hc.target_mem v hv l w hw) l).2 hw
    · intro v hv l u hu
      exact (hc.mirror u (hc.source_mem v hv l u hu) v hv l).1 hu

/-- Exactly those automata pass the check whose start state is their only state flagged as start,
whose identifiers differ and whose tables agree as far as edges from their own states go; if one
does not pass, what is reported is the case. The invariants hold exactly for those that pass and are
closed, so what passes without them has an edge that is noted at one of its states and comes from
elsewhere. -/
theorem check_spec (g : Graph) (a : Automaton) :
    (a.violation? g = none ↔
      a.start ∈ a.states ∧ (∀ v ∈ a.states, (g.node v).isStart = true ↔ v = a.start) ∧
        (∀ v ∈ a.states, ∀ w ∈ a.states, (g.node v).id = (g.node w).id → v = w) ∧
        g.Coherent a.states) ∧
      (a.violation? g = none ∨ ∃ x, a.violation? g = some x ∧ x.Holds g a) ∧
      (a.Invariants g ↔ a.violation? g = none ∧ a.Closed g) ∧
      (a.violation? g = none ∧ ¬a.Invariants g ↔ a.violation? g = none ∧
        ∃ v ∈ a.states, ∃ l, ∃ u ∈ g.origins v l, u ∉ a.states ∧ v ∈ g.destinations u l) := by
  refine ⟨violation?_eq_none_iff.trans wellFormed_iff, ?_, ?_, ?_⟩
  · cases hcheck : a.violation? g with
    | none => exact Or.inl rfl
    | some x => exact Or.inr ⟨x, rfl, holds_of_violation? hcheck⟩
  · rw [violation?_eq_none_iff, invariants_iff]
  · rw [violation?_eq_none_iff, invariants_iff]
    refine and_congr_right fun hw => ?_
    rw [and_iff_right hw, Closed]
    push Not
    constructor
    · rintro ⟨v, hv, l, u, hu, hout⟩
      exact ⟨v, hv, l, u, hu, hout, hw.mem_destinations v hv l u hu⟩
    · rintro ⟨v, hv, l, u, hu, hout, _⟩
      exact ⟨v, hv, l, u, hu, hout⟩

/-- Two states, of which the second leads to the first; the edge is noted there and not counted. -/
def uncounted : Graph :=
  ⟨#[{ id := 0, isStart := true, previous := Table.note ∅ (.symbol "a") 1 },
    { id := 1, next := Table.note ∅ (.symbol "a") 0 }]⟩

/-- An automaton of the first state alone passes the check, though it has an edge noted at it that
comes from elsewhere and that it does not count. -/
theorem not_check_iff_invariants : ¬∀ (g : Graph) (a : Automaton),
    a.violation? g = none ↔ a.Invariants g := by
  intro hall
  have hpasses : violation? uncounted { start := 0, states := {0}, alphabet := ∅ } = none := by
    cbv
  have hinvariants := (hall _ _).1 hpasses
  have hcount := hinvariants.indegree_eq 0 (OrdSet.mem_singleton.2 rfl)
  exact absurd hcount (by decide)

end Automaton

end PatternAutomata
