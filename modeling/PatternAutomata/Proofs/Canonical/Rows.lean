/-
Automata whose states lie in a row.

The subset construction and minimizing leave deterministic automata whose states lie one after
the other, with their places for identifiers (`Automaton.InRow`). Two such rows that agree place
by place are drawn alike (`InRow.drawing_eq`). Where the rows are numbered by words, they agree on
their edges as soon as the same words lead to one state in both (`Numbered.drawing_eq`).
-/
import PatternAutomata.Proofs.Canonical.Drawing
import PatternAutomata.Proofs.Canonical.Numbering

set_option autoImplicit false

namespace PatternAutomata

open PatternAutomata.Graph

namespace Automaton

variable {g h : Graph} {a b : Automaton} {first first' n : Nat}

/-- The states of a deterministic automaton lie in a row and are numbered along it. -/
structure InRow (g : Graph) (a : Automaton) (first n : Nat) : Prop where
  sound : a.Sound g
  deterministic : g.Deterministic a.states
  mem_states : ∀ v : Nat, v ∈ a.states ↔ first ≤ v ∧ v < first + n
  id_eq : ∀ i < n, (g.node (first + i)).id = i

/-- Two rows of states agree place by place on where they start, on their flags and on their
edges, and read the same symbols. -/
structure Agree (g : Graph) (a : Automaton) (first : Nat) (h : Graph) (b : Automaton)
    (first' n : Nat) : Prop where
  start_iff : ∀ i < n, a.start = first + i ↔ b.start = first' + i
  isAccepting_eq : ∀ i < n, (g.node (first + i)).isAccepting = (h.node (first' + i)).isAccepting
  isTrap_eq : ∀ i < n, (g.node (first + i)).isTrap = (h.node (first' + i)).isTrap
  mem_destinations_iff : ∀ i < n, ∀ j < n, ∀ l,
    first + j ∈ g.destinations (first + i) l ↔ first' + j ∈ h.destinations (first' + i) l
  alphabet_eq : a.alphabet = b.alphabet

namespace InRow

/-- Each state has a place. -/
theorem exists_place (ha : a.InRow g first n) {v : Nat} (hv : v ∈ a.states) :
    ∃ i, i < n ∧ v = first + i :=
  exists_place_row ha.mem_states hv

/-- Each place of the row has a state. -/
theorem mem_place (ha : a.InRow g first n) {i : Nat} (hi : i < n) : first + i ∈ a.states :=
  (ha.mem_states _).2 ⟨by omega, by omega⟩

/-- States are in order of their places. -/
theorem inOrder_states (ha : a.InRow g first n) :
    g.inOrder a.states = (List.range n).map (first + ·) :=
  inOrder_row ha.mem_states fun i hi => (ha.id_eq i hi).trans (Int.zero_add _).symm

/-- The entries of a table as it is seen: each symbol that leads somewhere, with the place that it
leads to. There is one target for each symbol, as the automaton is deterministic, and no empty
entry, as it is sound; so an entry can be read as an edge. -/
theorem mem_tableView (ha : a.InRow g first n) {i : Nat} (hi : i < n) {l : Label}
    {is : List Int} : (l, is) ∈ g.tableView (g.node (first + i)).next ↔
      ∃ j, j < n ∧ first + j ∈ g.destinations (first + i) l ∧ is = [(j : Int)] := by
  have hi_mem := ha.mem_place hi
  have hone : ∀ j < n, first + j ∈ g.destinations (first + i) l →
      g.destinations (first + i) l = {first + j} := fun j _ hj =>
    OrdSet.eq_singleton hj fun w hw => ha.deterministic.unique _ hi_mem l w hw _ hj
  have hids : ∀ j < n, g.ids {first + j} = [(j : Int)] := by
    intro j hj
    have hlist : g.inOrder {first + j} = [first + j] := List.mergeSort_singleton _
    rw [ids, hlist, List.map_singleton, ha.id_eq j hj]
  rw [tableView, List.mem_map]
  constructor
  · rintro ⟨⟨k, vs⟩, hentry, heq⟩
    obtain ⟨rfl, rfl⟩ := Prod.mk.inj heq
    have hget := OrdMap.mem_entries_iff.1 hentry
    have hunder : g.destinations (first + i) k = vs := by
      rw [destinations, Table.under, hget, Option.getD_some]
    -- no table of a sound automaton keeps a symbol without targets
    have hsome : ∃ w, w ∈ vs := by
      by_contra hnone
      have hempty : vs = ∅ := OrdSet.eq_empty_iff.2 (not_exists.1 hnone)
      rw [hempty] at hget
      exact ha.sound.consistent.next_ne_empty _ hi_mem k hget
    obtain ⟨w, hw⟩ := hsome
    rw [← hunder] at hw ⊢
    obtain ⟨j, hj, rfl⟩ := ha.exists_place (ha.sound.target_mem hi_mem hw)
    exact ⟨j, hj, hw, by rw [hone j hj hw, hids j hj]⟩
  · rintro ⟨j, hj, hedge, rfl⟩
    have hunder := hone j hj hedge
    rw [destinations, Table.under] at hunder
    cases hget : (g.node (first + i)).next.get? l with
    | none =>
      rw [destinations, Table.under, hget] at hedge
      exact absurd hedge (OrdSet.not_mem_empty _)
    | some vs =>
      rw [hget, Option.getD_some] at hunder
      refine ⟨(l, vs), OrdMap.mem_entries_iff.2 hget, ?_⟩
      show (l, g.ids vs) = (l, [(j : Int)])
      rw [hunder, hids j hj]

/-! ## Rows that agree -/

section Agreeing

variable (ha : a.InRow g first n) (hb : b.InRow h first' n) (hagree : Agree g a first h b first' n)
include ha hb hagree

/-- States at the same place of rows that agree are drawn as the same dot. -/
theorem dot_eq {i : Nat} (hi : i < n) :
    (g.stateView (first + i)).dot = (h.stateView (first' + i)).dot := by
  have hid : (g.node (first + i)).id = (h.node (first' + i)).id := by
    rw [ha.id_eq i hi, hb.id_eq i hi]
  have hstart : (g.node (first + i)).isStart = (h.node (first' + i)).isStart := by
    rw [Bool.eq_iff_iff, ha.sound.isStart_iff (ha.mem_place hi),
      hb.sound.isStart_iff (hb.mem_place hi), eq_comm, hagree.start_iff i hi, eq_comm]
  rw [StateView.dot, StateView.dot, Dot.mk.injEq]
  exact ⟨hid, hstart, hagree.isAccepting_eq i hi, hagree.isTrap_eq i hi⟩

/-- Their tables are seen alike, because they are listed by symbols and have the same entries. -/
theorem tableView_eq {i : Nat} (hi : i < n) :
    g.tableView (g.node (first + i)).next = h.tableView (h.node (first' + i)).next := by
  have hsorted : ∀ (g : Graph) (t : Table),
      (g.tableView t).Pairwise fun d e => compare d.1 e.1 = .lt := fun g t =>
    List.pairwise_map.2 t.ascending
  refine OrdSet.eq_of_ascending OrdSet.compare_asymm (hsorted ..) (hsorted ..) ?_
  rintro ⟨l, is⟩
  rw [ha.mem_tableView hi, hb.mem_tableView hi]
  refine exists_congr fun j => and_congr_right fun hj => and_congr_left' ?_
  exact hagree.mem_destinations_iff i hi j hj l

/-- So the edges out of them are drawn as the same arrows. -/
theorem arrows_eq {i : Nat} (hi : i < n) :
    (g.stateView (first + i)).arrows = (h.stateView (first' + i)).arrows := by
  have hid : (g.node (first + i)).id = (h.node (first' + i)).id := by
    rw [ha.id_eq i hi, hb.id_eq i hi]
  simp only [StateView.arrows, stateView, ha.tableView_eq hb hagree hi, hid]

/-- Rows that agree place by place are drawn alike, in the same order of states and edges. -/
theorem drawing_eq : a.drawing g = b.drawing h := by
  have hstart : (g.node a.start).id = (h.node b.start).id := by
    obtain ⟨i, hi, heq⟩ := ha.exists_place ha.sound.start_mem
    rw [(hagree.start_iff i hi).1 heq, heq, ha.id_eq i hi, hb.id_eq i hi]
  have hdots : (a.snapshot g).states.map StateView.dot =
      (b.snapshot h).states.map StateView.dot := by
    rw [snapshot, snapshot, ha.inOrder_states, hb.inOrder_states]
    simp only [List.map_map]
    exact List.map_congr_left fun i hi => ha.dot_eq hb hagree (List.mem_range.1 hi)
  have harrows : (a.snapshot g).states.flatMap StateView.arrows =
      (b.snapshot h).states.flatMap StateView.arrows := by
    rw [snapshot, snapshot, ha.inOrder_states, hb.inOrder_states]
    simp only [List.flatMap_map, List.map_map]
    rw [List.flatMap_def, List.flatMap_def]
    congr 1
    exact List.map_congr_left fun i hi => ha.arrows_eq hb hagree (List.mem_range.1 hi)
  rw [drawing, drawing, Snapshot.drawing, Snapshot.drawing, Drawing.mk.injEq]
  exact ⟨hstart, congrArg OrdSet.toList hagree.alphabet_eq, hdots, harrows⟩

end Agreeing

end InRow

/-! ## Rows numbered by words -/

namespace Numbered

variable {words : List (List Label)}

/-- States numbered by words lie in a row. -/
theorem inRow (hn : a.Numbered g first words) (ha : a.Sound g) (hd : g.Deterministic a.states) :
    a.InRow g first words.length :=
  ⟨ha, hd, hn.mem_states, hn.id_eq⟩

/-- Numbered automata in which the same words lead to one state are drawn alike, if their flags
are alike. -/
theorem drawing_eq (hn : a.Numbered g first words) (ha : a.Sound g)
    (hd : g.Deterministic a.states) (hn' : b.Numbered h first' words) (hb : b.Sound h)
    (hd' : h.Deterministic b.states) (hmeet : ∀ x y, g.Meet first x y ↔ h.Meet first' x y)
    (hacc : ∀ i < words.length,
      (g.node (first + i)).isAccepting = (h.node (first' + i)).isAccepting)
    (htrap : ∀ i < words.length, (g.node (first + i)).isTrap = (h.node (first' + i)).isTrap)
    (halphabet : a.alphabet = b.alphabet) : a.drawing g = b.drawing h := by
  refine (hn.inRow ha hd).drawing_eq (hn'.inRow hb hd') ⟨?_, hacc, htrap, ?_, halphabet⟩
  · -- both start at the first place
    intro i _
    rw [hn.start_eq, hn'.start_eq]
    exact Nat.left_eq_add.trans Nat.left_eq_add.symm
  · intro i hi j hj l
    rw [hn.mem_destinations_iff ha hd hi hj, hn'.mem_destinations_iff hb hd' hi hj, hmeet]

end Numbered

end Automaton

end PatternAutomata
