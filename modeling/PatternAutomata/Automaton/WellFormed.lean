/-
Well-formed automata.

`WellFormed` says what the structure of an automaton should be, without regard to how it
is checked. The check of `Automaton.Check` finds no violation exactly in the well-formed
automata (`violation?_eq_none_iff`), so being well formed can be decided.
-/
import PatternAutomata.Automaton.Check

set_option autoImplicit false

namespace PatternAutomata.Automaton

/-- The structure that an automaton should have. -/
structure WellFormed (g : Graph) (a : Automaton) : Prop where
  start_mem : a.start ∈ a.states
  isStart_iff : ∀ v ∈ a.states, (g.node v).isStart = true ↔ v = a.start
  id_injective : ∀ v ∈ a.states, ∀ w ∈ a.states, (g.node v).id = (g.node w).id → v = w
  next_ne_empty : ∀ v ∈ a.states, ∀ l, (g.node v).next.get? l ≠ some ∅
  target_mem : ∀ v ∈ a.states, ∀ l, ∀ w ∈ g.destinations v l, w ∈ a.states
  mem_origins : ∀ v ∈ a.states, ∀ l, ∀ w ∈ g.destinations v l, v ∈ g.origins w l
  indegree_eq : ∀ v ∈ a.states, (g.node v).indegree = a.incoming g v
  previous_ne_empty : ∀ v ∈ a.states, ∀ l, (g.node v).previous.get? l ≠ some ∅
  mem_destinations : ∀ v ∈ a.states, ∀ l, ∀ u ∈ g.origins v l, v ∈ g.destinations u l

/-- Everything that is noted at a state comes from a state of the automaton. -/
def Closed (g : Graph) (a : Automaton) : Prop :=
  ∀ v ∈ a.states, ∀ l, ∀ u ∈ g.origins v l, u ∈ a.states

/-! ## The parts of the check -/

variable {g : Graph} {a : Automaton}

/-- The states are checked in the order of their identifiers, and all of them are. -/
theorem mem_statesToCheck {v : Vertex} : v ∈ statesToCheck g a ↔ v ∈ a.states := by
  rw [statesToCheck, Graph.mem_sortById, List.mem_mergeSort]
  exact OrdSet.mem_toList

/-- No state is checked twice. -/
theorem nodup_statesToCheck : (statesToCheck g a).Nodup := by
  rw [statesToCheck, Graph.sortById]
  exact (List.mergeSort_perm ..).nodup_iff.2
    ((List.mergeSort_perm ..).nodup_iff.2 a.states.nodup_toList)

/-- A list that holds nothing twice and one thing at all is the list of that thing. The check
compares the list of flagged states with the list of the start state, and this is when the two
agree. -/
theorem eq_singleton_of_nodup {l : List Vertex} {v : Vertex} (hl : l.Nodup)
    (h : ∀ w, w ∈ l ↔ w = v) : l = [v] := by
  have hv : [v].Nodup := List.nodup_cons.2 ⟨List.not_mem_nil, .nil⟩
  apply List.perm_singleton.1
  apply (List.perm_ext_iff_of_nodup hl hv).2
  intro w
  rw [h, List.mem_singleton]

/-- The start state passes exactly if it is one of the states and the only one that is flagged. The
check compares two lists, and which states it lists is all that is looked at here. -/
theorem startViolation?_eq_none_iff :
    startViolation? g a (statesToCheck g a) = none ↔
      a.start ∈ a.states ∧ ∀ v ∈ a.states, (g.node v).isStart = true ↔ v = a.start := by
  have hmem : ∀ v, v ∈ (statesToCheck g a).filter (fun v => (g.node v).isStart) ↔
      v ∈ a.states ∧ (g.node v).isStart = true := by
    intro v
    rw [List.mem_filter, mem_statesToCheck]
  have hnodup : ((statesToCheck g a).filter fun v => (g.node v).isStart).Nodup :=
    nodup_statesToCheck.filter _
  rw [startViolation?]
  constructor
  · intro h
    -- no violation: the flagged states, in order, are the start state and nothing else
    have hflagged : (statesToCheck g a).filter (fun v => (g.node v).isStart) = [a.start] := by
      by_cases hf : (statesToCheck g a).filter (fun v => (g.node v).isStart) = [a.start]
      · exact hf
      · rw [if_neg hf] at h
        nomatch h
    rw [hflagged] at hmem
    have hstart := (hmem a.start).1 List.mem_cons_self
    refine ⟨hstart.1, ?_⟩
    intro v hv
    constructor
    · intro hflag
      exact List.mem_singleton.1 ((hmem v).2 ⟨hv, hflag⟩)
    · intro hvs
      rw [hvs]
      exact hstart.2
  · rintro ⟨hstart, hflag⟩
    -- conversely the list of flagged states has one member, and no member twice
    refine if_pos (eq_singleton_of_nodup hnodup ?_)
    intro v
    rw [hmem]
    constructor
    · rintro ⟨hv, h⟩
      exact (hflag v hv).1 h
    · intro hv
      rw [hv]
      exact ⟨hstart, (hflag a.start hstart).2 rfl⟩

/-- Values that come from nothing twice come from different things. Applied to identifiers: if none
is listed twice, states with the same identifier are the same state. -/
theorem eq_of_nodup_map {f : Vertex → Int} {l : List Vertex} {v w : Vertex}
    (h : (l.map f).Nodup) (hv : v ∈ l) (hw : w ∈ l) (e : f v = f w) : v = w := by
  induction l with
  | nil => nomatch hv
  | cons u l ih =>
    rw [List.map_cons, List.nodup_cons] at h
    rcases List.mem_cons.1 hv with rfl | hvl
    · rcases List.mem_cons.1 hw with rfl | hwl
      · rfl
      · exact absurd (e ▸ List.mem_map_of_mem hwl) h.1
    · rcases List.mem_cons.1 hw with rfl | hwl
      · exact absurd (e ▸ List.mem_map_of_mem hvl) h.1
      · exact ih h.2 hvl hwl

/-- The identifiers pass exactly if no two states share one. The check asks for the list of
identifiers to hold nothing twice, in the order in which the states are checked. -/
theorem idViolation?_eq_none_iff :
    idViolation? g (statesToCheck g a) = none ↔
      ∀ v ∈ a.states, ∀ w ∈ a.states, (g.node v).id = (g.node w).id → v = w := by
  have hsplit : idViolation? g (statesToCheck g a) = none ↔
      ((statesToCheck g a).map fun v => (g.node v).id).Nodup := by
    rw [idViolation?]
    split <;> simp_all
  rw [hsplit]
  constructor
  · intro h v hv w hw hid
    exact eq_of_nodup_map h (mem_statesToCheck.2 hv) (mem_statesToCheck.2 hw) hid
  · intro h
    rw [List.Nodup, List.pairwise_map]
    apply nodup_statesToCheck.imp_of_mem
    intro v w hv hw hne hid
    exact hne (h v (mem_statesToCheck.1 hv) w (mem_statesToCheck.1 hw) hid)

/-- An edge passes exactly if it leads to a state of the automaton and is noted there. Whether it is
there at its source is not asked, for that is where it was found. -/
theorem edgeViolation?_eq_none_iff {v w : Vertex} {l : Label} :
    edgeViolation? g a v l w = none ↔ w ∈ a.states ∧ v ∈ g.origins w l := by
  rw [edgeViolation?]
  by_cases hw : w ∈ a.states
  · rw [if_neg (not_not_intro hw)]
    by_cases hv : v ∈ g.origins w l
    · rw [if_neg (not_not_intro hv)]
      exact iff_of_true rfl ⟨hw, hv⟩
    · rw [if_pos hv]
      exact iff_of_false (Option.some_ne_none _) fun h => hv h.2
  · rw [if_pos hw]
    exact iff_of_false (Option.some_ne_none _) fun h => hw h.1

/-- An entry passes exactly if the edge it tells of is there. That the source is one of the states
is not asked. -/
theorem originViolation?_eq_none_iff {v u : Vertex} {l : Label} :
    originViolation? g v l u = none ↔ v ∈ g.destinations u l := by
  rw [originViolation?]
  by_cases hv : v ∈ g.destinations u l
  · rw [if_neg (not_not_intro hv)]
    exact iff_of_true rfl hv
  · rw [if_pos hv]
    exact iff_of_false (Option.some_ne_none _) hv

/-- A table shows no violation exactly if no entry is empty and all that is noted is noted rightly.
This is stated for any test of a noted state, because both tables of a state are checked this way,
each with a test of its own. -/
theorem tableViolation?_eq_none_iff {t : Table} {emptyEntry : Label → Violation}
    {noted? : Label → Vertex → Option Violation} :
    tableViolation? g t emptyEntry noted? = none ↔
      (∀ l, t.get? l ≠ some ∅) ∧ ∀ l, ∀ v ∈ t.under l, noted? l v = none := by
  -- one entry: it must have something under it, and all of that must pass
  have hentry : ∀ l vs, (if vs.isEmpty then some (emptyEntry l)
      else (g.inOrder vs).findSome? (noted? l)) = none ↔
        vs ≠ ∅ ∧ ∀ v ∈ vs, noted? l v = none := by
    intro l vs
    by_cases he : vs.isEmpty = true
    · rw [if_pos he]
      have hvs : vs = ∅ := OrdSet.isEmpty_iff_eq.1 he
      exact iff_of_false (Option.some_ne_none _) fun h => h.1 hvs
    · rw [if_neg he, List.findSome?_eq_none_iff]
      constructor
      · intro h
        exact ⟨fun hvs => he (OrdSet.isEmpty_iff_eq.2 hvs), fun v hv => h v (g.mem_inOrder.2 hv)⟩
      · rintro ⟨_, h⟩ v hv
        exact h v (g.mem_inOrder.1 hv)
  rw [tableViolation?, List.findSome?_eq_none_iff]
  constructor
  · intro h
    constructor
    · intro l hl
      exact ((hentry l ∅).1 (h _ (OrdMap.mem_entries_iff.2 hl))).1 rfl
    · intro l v hv
      rw [Table.under] at hv
      -- a label without an entry has nothing noted under it
      cases hl : t.get? l with
      | none =>
        rw [hl] at hv
        exact absurd hv (OrdSet.not_mem_empty v)
      | some vs =>
        rw [hl] at hv
        exact ((hentry l vs).1 (h _ (OrdMap.mem_entries_iff.2 hl))).2 v hv
  · rintro ⟨hne, h⟩ ⟨l, vs⟩ hmem
    have hget : t.get? l = some vs := OrdMap.mem_entries_iff.1 hmem
    refine (hentry l vs).2 ⟨?_, ?_⟩
    · intro hvs
      exact hne l (hvs ▸ hget)
    · intro v hv
      apply h l v
      rw [Table.under, hget]
      exact hv

/-- What follows a state passes exactly if no entry is empty, and each edge stays within the
automaton and is noted at its target. -/
theorem nextViolation?_eq_none_iff {v : Vertex} :
    nextViolation? g a v = none ↔
      (∀ l, (g.node v).next.get? l ≠ some ∅) ∧
        ∀ l, ∀ w ∈ g.destinations v l, w ∈ a.states ∧ v ∈ g.origins w l := by
  rw [nextViolation?, tableViolation?_eq_none_iff]
  simp only [edgeViolation?_eq_none_iff, Graph.destinations]

/-- What precedes a state passes exactly if its count is right, no entry is empty, and each entry
tells of an edge. The count is of edges out of states of the automaton, and is compared before the
table is looked at. -/
theorem previousViolation?_eq_none_iff {v : Vertex} :
    previousViolation? g a v = none ↔
      (g.node v).indegree = a.incoming g v ∧ (∀ l, (g.node v).previous.get? l ≠ some ∅) ∧
        ∀ l, ∀ u ∈ g.origins v l, v ∈ g.destinations u l := by
  rw [previousViolation?]
  by_cases hcount : (g.node v).indegree = a.incoming g v
  · rw [if_neg (not_not_intro hcount), tableViolation?_eq_none_iff, and_iff_right hcount]
    simp only [originViolation?_eq_none_iff, Graph.origins]
  · rw [if_pos hcount]
    exact iff_of_false (Option.some_ne_none _) fun h => hcount h.1

/-! ## The check -/

/-- The check finds no violation exactly in the well-formed automata. -/
theorem violation?_eq_none_iff : a.violation? g = none ↔ a.WellFormed g := by
  rw [violation?]
  simp only [Option.or_eq_none_iff, List.findSome?_eq_none_iff, startViolation?_eq_none_iff,
    idViolation?_eq_none_iff, nextViolation?_eq_none_iff, previousViolation?_eq_none_iff,
    mem_statesToCheck]
  constructor
  · rintro ⟨⟨hmem, hflag⟩, hid, hnext, hprevious⟩
    exact {
      start_mem := hmem
      isStart_iff := hflag
      id_injective := hid
      next_ne_empty := fun v hv => (hnext v hv).1
      target_mem := fun v hv l w hw => ((hnext v hv).2 l w hw).1
      mem_origins := fun v hv l w hw => ((hnext v hv).2 l w hw).2
      indegree_eq := fun v hv => (hprevious v hv).1
      previous_ne_empty := fun v hv => (hprevious v hv).2.1
      mem_destinations := fun v hv => (hprevious v hv).2.2 }
  · intro h
    refine ⟨⟨h.start_mem, h.isStart_iff⟩, h.id_injective, ?_, ?_⟩
    · intro v hv
      refine ⟨h.next_ne_empty v hv, ?_⟩
      intro l w hw
      exact ⟨h.target_mem v hv l w hw, h.mem_origins v hv l w hw⟩
    · intro v hv
      exact ⟨h.indegree_eq v hv, h.previous_ne_empty v hv, h.mem_destinations v hv⟩

instance (g : Graph) (a : Automaton) : Decidable (a.WellFormed g) :=
  decidable_of_iff _ violation?_eq_none_iff

end PatternAutomata.Automaton
