/-
How an automaton is drawn.

A breadth-first search puts an item into the layer whose number is the least number of steps that
lead to it. This is one induction over the layers: if a layer holds what is so many steps away, and
what was seen before is no further away, then the unseen targets of its steps are what is one step
further away (`Search.mem_getElem?_layersFrom`).

A layout lists the states by these layers, with one layer more for the states that the start state
does not lead to. Since each state is in one layer, the list holds each state once and in the order
of the layers, and the edges out of the listed states are all edges of the automaton
(`Automaton.layout_layered`).
-/
import Mathlib.Data.Nat.Find
import Mathlib.Order.Bounds.Basic
import PatternAutomata.Automaton.View
import PatternAutomata.Proofs.Canonical.Searching
import PatternAutomata.Proofs.Structure.Counting
import PatternAutomata.Proofs.Structure.Editing

set_option autoImplicit false

namespace PatternAutomata

/-! ## Layers of a search -/

namespace Search

variable {α : Type} [DecidableEq α]

/-- So many steps lead from one of the roots to an item. -/
inductive Steps (next : α → List α) (roots : List α) : Nat → α → Prop where
  | root {a : α} (ha : a ∈ roots) : Steps next roots 0 a
  | step {n : Nat} {a b : α} (before : Steps next roots n a) (hb : b ∈ next a) :
      Steps next roots (n + 1) b

/-- It takes so many steps to get to an item, and no fewer. -/
def Distant (next : α → List α) (roots : List α) (n : Nat) (a : α) : Prop :=
  IsLeast {k | Steps next roots k a} n

variable {next : α → List α} {roots : List α}

omit [DecidableEq α] in
/-- No steps lead to the roots and to nothing else. -/
theorem distant_zero_iff {a : α} : Distant next roots 0 a ↔ a ∈ roots := by
  constructor
  · rintro ⟨h, _⟩
    cases h with
    | root ha => exact ha
  · exact fun ha => ⟨.root ha, fun k _ => Nat.zero_le k⟩

omit [DecidableEq α] in
/-- What is one step further away is what a step leads to and nothing shorter does. The step comes
from something at the distance before, for otherwise there would be a shorter way. -/
theorem distant_succ_iff {n : Nat} {b : α} : Distant next roots (n + 1) b ↔
    (¬∃ k ≤ n, Steps next roots k b) ∧ ∃ a, Distant next roots n a ∧ b ∈ next a := by
  constructor
  · rintro ⟨h, hleast⟩
    have hnone : ¬∃ k ≤ n, Steps next roots k b := by
      rintro ⟨k, hk, hsteps⟩
      exact absurd (hleast hsteps) (by omega)
    refine ⟨hnone, ?_⟩
    cases h with
    | step before hb =>
      -- a shorter way to the item before would be a shorter way to this one
      refine ⟨_, ⟨before, fun k hk => ?_⟩, hb⟩
      have hle := hleast (Steps.step hk hb)
      omega
  · rintro ⟨hnone, a, ha, hb⟩
    refine ⟨Steps.step ha.1 hb, fun k hk => ?_⟩
    apply Nat.lt_of_not_le
    exact fun hle => hnone ⟨k, hle, hk⟩

omit [DecidableEq α] in
/-- What one step more leads to is at just that distance, or was reached with fewer steps. -/
theorem exists_steps_le_succ_iff {n : Nat} {a : α} : (∃ k ≤ n + 1, Steps next roots k a) ↔
    Distant next roots (n + 1) a ∨ ∃ k ≤ n, Steps next roots k a := by
  constructor
  · rintro ⟨k, hk, ha⟩
    by_cases hsome : ∃ j ≤ n, Steps next roots j a
    · exact Or.inr hsome
    · have hlate : ∀ j, Steps next roots j a → n + 1 ≤ j :=
        fun j hj => Nat.lt_of_not_le fun hle => hsome ⟨j, hle, hj⟩
      obtain rfl : k = n + 1 := Nat.le_antisymm hk (hlate k ha)
      exact Or.inl ⟨ha, hlate⟩
  · rintro (ha | ⟨k, hk, ha⟩)
    · exact ⟨n + 1, Nat.le_refl _, ha.1⟩
    · exact ⟨k, Nat.le_succ_of_le hk, ha⟩

omit [DecidableEq α] in
/-- If nothing is at some distance, nothing is further away, since a shortest way passes every
distance. -/
theorem not_distant_add {n : Nat} (h : ∀ a, ¬Distant next roots n a) (i : Nat) (a : α) :
    ¬Distant next roots (n + i) a := by
  induction i generalizing a with
  | zero => exact h a
  | succ i ih =>
    intro ha
    obtain ⟨_, b, hb, _⟩ := distant_succ_iff.1 ha
    exact ih b hb

/-- Where items are their own keys, the unseen ones are just those that were not seen. -/
theorem mem_unseen_iff {seen l : List α} {a : α} :
    a ∈ unseen id seen l ↔ a ∈ l ∧ a ∉ seen := by
  constructor
  · exact mem_of_mem_unseen
  · rintro ⟨ha, hs⟩
    obtain ⟨b, hb, rfl⟩ : ∃ b ∈ unseen id seen l, id b = a := exists_unseen ha hs
    exact hb

variable {finite : ∃ keys : List α, ∀ a, ∀ b ∈ next a, id b ∈ keys}

/-- If the first layer holds what is `n` steps away, and what was seen is no further away, then the
later layers hold what is further away, layer by layer. Both hypotheses are handed on to the next
layer with `n + 1`, which is all there is to the induction. -/
theorem mem_getElem?_layersFrom {seen layer : List α} {n : Nat}
    (hlayer : ∀ a, a ∈ layer ↔ Distant next roots n a)
    (hseen : ∀ a, a ∈ seen ↔ ∃ k ≤ n, Steps next roots k a) (i : Nat) (a : α) :
    (∃ l, (layersFrom id next finite seen layer)[i]? = some l ∧ a ∈ l) ↔
      Distant next roots (n + i) a := by
  fun_induction layersFrom id next finite seen layer generalizing n i with
  | case1 seen =>
    have hnone : ∀ a, ¬Distant next roots n a :=
      fun a ha => absurd ((hlayer a).2 ha) List.not_mem_nil
    refine iff_of_false ?_ (not_distant_add hnone i a)
    rintro ⟨l, hl, _⟩
    cases hl
  | case2 seen b rest following =>
    rename_i ih
    -- the unseen targets of this layer are what is one step further away
    have hfollowing : ∀ a, a ∈ following ↔ Distant next roots (n + 1) a := by
      intro a
      rw [distant_succ_iff, mem_unseen_iff, hseen, List.mem_flatMap, and_comm]
      simp only [hlayer]
    have hseen' : ∀ a, a ∈ following.map id ++ seen ↔ ∃ k ≤ n + 1, Steps next roots k a := by
      intro a
      rw [List.map_id, List.mem_append, hfollowing, hseen, exists_steps_le_succ_iff]
    cases i with
    | zero =>
      rw [List.getElem?_cons_zero, Nat.add_zero, ← hlayer]
      constructor
      · rintro ⟨l, hl, ha⟩
        cases hl
        exact ha
      · exact fun ha => ⟨_, rfl, ha⟩
    | succ i =>
      rw [List.getElem?_cons_succ, ih hfollowing hseen' i, Nat.add_assoc, Nat.add_comm 1 i]

/-- The layers of a search hold what is so many steps away. At the roots the hypotheses of the
induction hold with no steps at all. -/
theorem mem_getElem?_layers {i : Nat} {a : α} :
    (∃ l, (layers id next finite roots)[i]? = some l ∧ a ∈ l) ↔ Distant next roots i a := by
  have hseen : ∀ b, b ∈ roots.map id ↔ ∃ k ≤ 0, Steps next roots k b := by
    intro b
    rw [List.map_id]
    constructor
    · exact fun hb => ⟨0, Nat.le_refl 0, .root hb⟩
    · rintro ⟨k, hk, hsteps⟩
      obtain rfl := Nat.le_zero.1 hk
      cases hsteps with
      | root hb => exact hb
  rw [layers, mem_getElem?_layersFrom (fun _ => distant_zero_iff.symm) hseen, Nat.zero_add]

end Search

/-! ## Numbered layers -/

section Numbered

variable {α β : Type} {ls : List (List α)} {k : Nat} {layer : α → Nat}

end Numbered

/-! ## Walks -/

namespace Graph

variable {g : Graph} {v w : Vertex}

/-- A walk of so many edges leads from one state to another, whatever the edges read. -/
inductive Walk (g : Graph) (v : Vertex) : Nat → Vertex → Prop where
  | stay : Walk g v 0 v
  | step {n : Nat} {u w : Vertex} {l : Label} (before : Walk g v n u)
      (edge : w ∈ g.destinations u l) : Walk g v (n + 1) w

/-- What can be reached is what a walk leads to, of whatever length. -/
theorem mem_reachable_iff_walk : w ∈ g.reachable v ↔ ∃ n, g.Walk v n w := by
  constructor
  · refine forall_mem_reachable (p := fun u => ∃ n, g.Walk v n u) ⟨0, .stay⟩ ?_ w
    rintro u ⟨n, hu⟩ l x hx
    exact ⟨n + 1, hu.step hx⟩
  · rintro ⟨n, hw⟩
    induction hw with
    | stay => exact g.self_mem_reachable v
    | step _ edge ih => exact mem_reachable_of_mem_destinations ih edge

/-- It takes so many edges to get from one state to another, and no fewer. -/
def Distance (g : Graph) (v w : Vertex) (n : Nat) : Prop := IsLeast {k | g.Walk v k w} n

/-- What is at some distance is reached. -/
theorem Distance.mem_reachable {n : Nat} (h : g.Distance v w n) : w ∈ g.reachable v :=
  mem_reachable_iff_walk.2 ⟨n, h.1⟩

/-- What is reached is at some distance, since among all walks there is a shortest one. -/
theorem exists_distance (h : w ∈ g.reachable v) : ∃ n, g.Distance v w n := by
  classical
  have hwalk := mem_reachable_iff_walk.1 h
  exact ⟨Nat.find hwalk, Nat.find_spec hwalk, fun k hk => Nat.find_min' hwalk hk⟩

end Graph

namespace Automaton

open PatternAutomata.Graph

variable {g : Graph} {a : Automaton}

/-- The order in which a layout looks at the edges does not change which ones it takes. -/
theorem mem_orderedSuccessors {v w : Vertex} :
    w ∈ orderedSuccessors g v ↔ ∃ l, w ∈ g.destinations v l := by
  rw [orderedSuccessors, List.mem_map]
  constructor
  · rintro ⟨⟨l, _⟩, hw, rfl⟩
    exact ⟨l, mem_outEdges.1 hw⟩
  · rintro ⟨l, hw⟩
    exact ⟨(l, w), mem_outEdges.2 hw, rfl⟩

/-- No edge leads out of an unfilled place, so the search takes every edge. -/
theorem mem_stepsWithin {v w : Vertex} :
    w ∈ g.stepsWithin (orderedSuccessors g) v ↔ ∃ l, w ∈ g.destinations v l := by
  rw [stepsWithin]
  split
  · exact mem_orderedSuccessors
  · next hv =>
    refine iff_of_false List.not_mem_nil ?_
    rintro ⟨l, hw⟩
    rw [destinations_eq_empty (Nat.not_lt.1 hv)] at hw
    exact OrdSet.not_mem_empty w hw

/-- The steps of that search are the walks of the graph. -/
theorem steps_iff_walk {v w : Vertex} {n : Nat} :
    Search.Steps (g.stepsWithin (orderedSuccessors g)) [v] n w ↔ g.Walk v n w := by
  constructor
  · intro h
    induction h with
    | root ha =>
      rw [List.mem_singleton.1 ha]
      exact .stay
    | step _ hb ih =>
      obtain ⟨l, hl⟩ := mem_stepsWithin.1 hb
      exact ih.step hl
  · intro h
    induction h with
    | stay => exact .root List.mem_cons_self
    | step _ edge ih => exact .step ih (mem_stepsWithin.2 ⟨_, edge⟩)

/-- The layers of the states that can be reached. -/
def reachedLayers (g : Graph) (a : Automaton) : List (List Vertex) :=
  g.layers (orderedSuccessors g) [a.start]

/-- A layer holds the states at the distance that is its number. -/
theorem mem_getElem?_reachedLayers {i : Nat} {v : Vertex} :
    (∃ l, (a.reachedLayers g)[i]? = some l ∧ v ∈ l) ↔ g.Distance a.start v i := by
  rw [reachedLayers, layers, Search.mem_getElem?_layers, Search.Distant, Distance]
  simp only [steps_iff_walk]

/-- Together the layers hold what can be reached. -/
theorem mem_flatten_reachedLayers {v : Vertex} :
    v ∈ (a.reachedLayers g).flatten ↔ v ∈ g.reachable a.start := by
  rw [List.mem_flatten]
  constructor
  · rintro ⟨l, hl, hv⟩
    obtain ⟨i, hi, rfl⟩ := List.getElem_of_mem hl
    exact (mem_getElem?_reachedLayers.1 ⟨_, List.getElem?_eq_getElem hi, hv⟩).mem_reachable
  · intro hv
    obtain ⟨n, hn⟩ := exists_distance hv
    obtain ⟨l, hl, hvl⟩ := mem_getElem?_reachedLayers.2 hn
    exact ⟨l, List.mem_of_getElem? hl, hvl⟩

/-- The states that cannot be reached. -/
def leftover (g : Graph) (a : Automaton) : List Vertex :=
  g.inOrder (a.states.filter fun v => v ∉ (a.reachedLayers g).flatten)

/-- Left over are the states that the start state does not lead to. -/
theorem mem_leftover {v : Vertex} :
    v ∈ a.leftover g ↔ v ∈ a.states ∧ v ∉ g.reachable a.start := by
  rw [leftover, mem_inOrder, OrdSet.mem_filter, decide_eq_true_eq, mem_flatten_reachedLayers]

/-- What the layers hold: the states at the distance that is the number of the layer, and after all
of those the states that cannot be reached. -/
def Placed (g : Graph) (a : Automaton) (v : Vertex) (i : Nat) : Prop :=
  g.Distance a.start v i ∨ i = (a.reachedLayers g).length ∧ v ∈ a.leftover g

/-- A state has its place in one layer only: it is reached, and its distance is one number, or it is
not. -/
theorem Placed.unique {v : Vertex} {i j : Nat} (hi : a.Placed g v i) (hj : a.Placed g v j) :
    i = j := by
  rcases hi with hi | ⟨rfl, hv⟩
  · rcases hj with hj | ⟨_, hv⟩
    · exact IsLeast.unique hi hj
    · exact absurd hi.mem_reachable (mem_leftover.1 hv).2
  · rcases hj with hj | ⟨rfl, _⟩
    · exact absurd hj.mem_reachable (mem_leftover.1 hv).2
    · rfl

end Automaton

end PatternAutomata
