/-
Who owns the states of a workspace.

Appending moves the states of an automaton into another one and leaves the first without any. Only
the automaton that grows is asked whether its own states were handed over. The one that is appended
may have handed its states over before, and then it still knows its former start state, which lives
in a third automaton by now. If the automaton that grows has a state that accepts, this start state
is drawn into it as well: the append strays (`Workspace.Strays`).

As long as no append strays, the automata keep their states apart and their structure
(`Workspace.Parted.appended`); after one that strays, two automata share a state
(`Workspace.Parted.not_owned`). So in a family of automata all calls leave the states with their
owners exactly if none of them strays (`Workspace.IsFamily.owned_throughout_iff`).
-/
import PatternAutomata.Proofs.Patterns.Workspaces

set_option autoImplicit false

namespace PatternAutomata

open PatternAutomata.Graph Machine

namespace Workspace

variable {w : Workspace} {h k : Handle}

/-! ## Families -/

/-- The automata of a workspace are in order and have nothing in common: each passes the check and
is closed, they share no state, and no identifier occurs twice in them. -/
structure IsFamily (w : Workspace) : Prop where
  check : ∀ h < w.automata.size, (w.automaton h).violation? w.graph = none
  closed : ∀ h < w.automata.size, (w.automaton h).Closed w.graph
  placed : ∀ h < w.automata.size, ∀ v ∈ (w.automaton h).states, v < w.graph.size
  disjoint : ∀ h < w.automata.size, ∀ k < w.automata.size, h ≠ k →
    ∀ v ∈ (w.automaton h).states, v ∉ (w.automaton k).states
  id_injective : ∀ h < w.automata.size, ∀ k < w.automata.size,
    ∀ u ∈ (w.automaton h).states, ∀ v ∈ (w.automaton k).states,
      (w.graph.node u).id = (w.graph.node v).id → u = v

/-- Every automaton whose states were not handed over passes the check, and no state belongs to
two automata. -/
structure Owned (w : Workspace) : Prop where
  check : ∀ h < w.automata.size, (w.automaton h).discarded = false →
    (w.automaton h).violation? w.graph = none
  disjoint : ∀ h < w.automata.size, ∀ k < w.automata.size, h ≠ k →
    ∀ v ∈ (w.automaton h).states, v ∉ (w.automaton k).states

/-- To append the second automaton to the first would lead from a state of the first that accepts
to a state which belongs to neither. -/
def Strays (w : Workspace) (h k : Handle) : Prop :=
  (w.automaton h).discarded = false ∧ h ≠ k ∧
    ∃ v ∈ (w.automaton h).states, (w.graph.node v).isAccepting = true ∧
      (w.automaton k).start ∉ (w.automaton h).states ∧
      (w.automaton k).start ∉ (w.automaton k).states

instance : Decidable (w.Strays h k) :=
  inferInstanceAs (Decidable ((w.automaton h).discarded = false ∧ h ≠ k ∧
    ∃ v ∈ (w.automaton h).states.toList, (w.graph.node v).isAccepting = true ∧
      (w.automaton k).start ∉ (w.automaton h).states ∧
      (w.automaton k).start ∉ (w.automaton k).states))

/-- A call that does not stray attaches the other automaton: nothing accepts, or the edges that are
made lead to a state of one of the two. -/
theorem attaches_of_not_strays (hlive : (w.automaton h).discarded = false) (hne : h ≠ k)
    (hstays : ¬w.Strays h k) : (w.machine h).Attaches (w.automaton k) := by
  intro v hv hacc
  by_contra hnone
  rw [not_or] at hnone
  exact hstays ⟨hlive, hne, v, hv, hacc, hnone⟩

/-! ## Appending -/

/-- The workspace in which one automaton has been appended to another. -/
def appended (w : Workspace) (h k : Handle) : Workspace :=
  let joined := w.putBack h ((w.machine h).append (w.automaton k))
  { joined with automata := joined.automata.modify k (·.handedOver) }

/-- Appending is refused with nothing changed, or else it succeeds. Only the automaton that grows is
asked whether it was handed over, and this equation shows that nothing asks the other one. -/
theorem append_eq (w : Workspace) (h k : Handle) : Work.append h k w =
    if (w.automaton h).discarded = true then .error (.spent .append) w
    else if h = k then .error .spliceIntoItself w
    else .ok () (w.appended h k) := by
  have hback : w.putBack h (w.machine h) = w := by
    rw [putBack, machine, setIfInBounds_automaton]
  rw [Work.append, Work.joining]
  by_cases hd : (w.automaton h).discarded = true
  · have hlive : Edit.live .append (w.machine h) = .error (.spent .append) (w.machine h) :=
      Edit.live_eq_error hd _
    simp only [outcome_bind, outcome_get, Work.on, hlive, hback, if_pos hd]
  · have hlive : Edit.live .append (w.machine h) = .ok () (w.machine h) :=
      Edit.live_eq_ok (Bool.eq_false_iff.2 hd) _
    by_cases hself : h = k
    · simp only [outcome_bind, outcome_get, Work.on, hlive, hback, if_neg hd, if_pos hself,
        outcome_throw]
    · simp only [outcome_bind, outcome_get, Work.on, hlive, hback, if_neg hd, if_neg hself,
        outcome_pure, Edit.append, outcome_modify, Work.alter]
      rfl

/-- Both automata stay in the workspace, the one that was appended as one without states. -/
theorem size_appended : (w.appended h k).automata.size = w.automata.size := by
  rw [appended, Array.size_modify, size_putBack]

theorem graph_appended :
    (w.appended h k).graph = ((w.machine h).append (w.automaton k)).graph := rfl

/-- A look-up after one automaton was changed, for those that there are. -/
theorem automaton_modify (f : Automaton → Automaton) {j : Handle} (hj : j < w.automata.size) :
    ({ w with automata := w.automata.modify k f } : Workspace).automaton j =
      if k = j then f (w.automaton j) else w.automaton j := by
  simp only [automaton, Array.getD_eq_getD_getElem?, Array.getElem?_modify,
    Array.getElem?_eq_getElem hj]
  split <;> rfl

/-- What each automaton is after a call: the one appended has handed its states over, and the others
are what putting the grown automaton back has made them. -/
theorem automaton_appended {j : Handle} (hj : j < w.automata.size) :
    (w.appended h k).automaton j =
      if k = j then ((w.putBack h ((w.machine h).append (w.automaton k))).automaton j).handedOver
      else (w.putBack h ((w.machine h).append (w.automaton k))).automaton j := by
  rw [appended, automaton_modify]
  rwa [size_putBack]

/-- The automaton that grows is what appending makes of it. -/
theorem automaton_appended_self (hh : h < w.automata.size) (hne : h ≠ k) :
    (w.appended h k).automaton h = ((w.machine h).append (w.automaton k)).automaton := by
  rw [automaton_appended hh, if_neg (Ne.symm hne), automaton_putBack hh]

/-- The one that is appended has handed its states over. -/
theorem automaton_appended_other (hk : k < w.automata.size) (hne : h ≠ k) :
    (w.appended h k).automaton k = (w.automaton k).handedOver := by
  rw [automaton_appended hk, if_pos rfl, automaton_putBack_of_ne hne]

/-- No other automaton is touched, though the graph they share may be. -/
theorem automaton_appended_beside {j : Handle} (hj : j < w.automata.size) (hjh : j ≠ h)
    (hjk : j ≠ k) : (w.appended h k).automaton j = w.automaton j := by
  rw [automaton_appended hj, if_neg (Ne.symm hjk), automaton_putBack_of_ne (Ne.symm hjh)]

/-- The automaton that grows gets the states of the other one, which keeps none. All the others keep
theirs. For this it must attach the other automaton, as an edge to a stray start state would take
that state in as well. -/
theorem mem_states_appended (hh : h < w.automata.size) (hne : h ≠ k)
    (hattaches : (w.machine h).Attaches (w.automaton k)) {j : Handle} (hj : j < w.automata.size)
    {v : Vertex} : v ∈ ((w.appended h k).automaton j).states ↔
      j ≠ k ∧ (v ∈ (w.automaton j).states ∨ j = h ∧ v ∈ (w.automaton k).states) := by
  by_cases hjk : j = k
  · subst hjk
    rw [automaton_appended_other hj hne]
    exact iff_of_false (OrdSet.not_mem_empty v) fun hv => hv.1 rfl
  by_cases hjh : j = h
  · subst hjh
    rw [automaton_appended_self hj hne, hattaches.automaton_append]
    constructor
    · intro hv
      exact ⟨hjk, (OrdSet.mem_union.1 hv).imp id fun hv => ⟨rfl, hv⟩⟩
    · rintro ⟨_, hv⟩
      exact OrdSet.mem_union.2 (hv.imp id And.right)
  · rw [automaton_appended_beside hj hjh hjk]
    constructor
    · exact fun hv => ⟨hjk, Or.inl hv⟩
    · rintro ⟨_, hv | ⟨hjh', _⟩⟩
      · exact hv
      · exact absurd hjh' hjh

/-- No automaton starts elsewhere than before, not even the one that has no states left. -/
theorem start_appended (hne : h ≠ k) (hattaches : (w.machine h).Attaches (w.automaton k))
    {j : Handle} (hj : j < w.automata.size) :
    ((w.appended h k).automaton j).start = (w.automaton j).start := by
  by_cases hjk : j = k
  · subst hjk
    rw [automaton_appended_other hj hne]
    rfl
  by_cases hjh : j = h
  · subst hjh
    rw [automaton_appended_self hj hne, hattaches.automaton_append]
    rfl
  · rw [automaton_appended_beside hj hjh hjk]

/-! ## Automata that are kept apart -/

/-- An automaton with states is framed. One without has handed them over, and its former start state
lives on in another automaton, where it does not start. States are not shared, and no identifier
occurs twice. -/
structure Parted (w : Workspace) : Prop where
  framed : ∀ h < w.automata.size, (w.automaton h).states ≠ ∅ → (w.automaton h).Framed w.graph
  spent : ∀ h < w.automata.size, (w.automaton h).states = ∅ →
    (w.automaton h).discarded = true ∧ ∃ k < w.automata.size,
      (w.automaton h).start ∈ (w.automaton k).states ∧
        (w.automaton h).start ≠ (w.automaton k).start
  disjoint : ∀ h < w.automata.size, ∀ k < w.automata.size,
    ∀ v ∈ (w.automaton h).states, v ∈ (w.automaton k).states → h = k
  id_injective : ∀ h < w.automata.size, ∀ k < w.automata.size,
    ∀ u ∈ (w.automaton h).states, ∀ v ∈ (w.automaton k).states,
      (w.graph.node u).id = (w.graph.node v).id → u = v

/-- A family is kept apart: no automaton in it is without states, so all that is said of the spent
ones is empty at first. -/
theorem IsFamily.parted (hw : w.IsFamily) : w.Parted where
  framed h hh _ := by
    have hwf := Automaton.violation?_eq_none_iff.1 (hw.check h hh)
    exact ⟨hwf.start_mem, hwf.isStart_iff, hwf.consistent (hw.closed h hh), hw.placed h hh⟩
  spent h hh hnone := by
    have hwf := Automaton.violation?_eq_none_iff.1 (hw.check h hh)
    have hstart := hwf.start_mem
    rw [hnone] at hstart
    exact absurd hstart (OrdSet.not_mem_empty _)
  disjoint h hh k hk v hv hvk := by
    by_contra hne
    exact hw.disjoint h hh k hk hne v hv hvk
  id_injective := hw.id_injective

namespace Parted

/-- Automata that are kept apart leave each state with one owner, which passes the check. -/
theorem owned (hw : w.Parted) : w.Owned where
  check h hh hlive := by
    have hsome : (w.automaton h).states ≠ ∅ := by
      intro hnone
      exact Bool.false_ne_true (hlive.symm.trans (hw.spent h hh hnone).1)
    have hframed := hw.framed h hh hsome
    exact Automaton.violation?_eq_none_iff.2 (Automaton.wellFormed_closed_iff.2
      ⟨hframed.start_mem, hframed.isStart_iff, hw.id_injective h hh h hh, hframed.consistent⟩).1
  disjoint h hh k hk hne v hv hvk := hne (hw.disjoint h hh k hk v hv hvk)

/-- An automaton that was not handed over has states, its start state for one, and so it is
framed. -/
theorem framed_of_live (hw : w.Parted) (hh : h < w.automata.size)
    (hlive : (w.automaton h).discarded = false) : (w.automaton h).Framed w.graph := by
  refine hw.framed h hh fun hnone => ?_
  exact Bool.false_ne_true (hlive.symm.trans (hw.spent h hh hnone).1)

/-- A start state that has left its automaton belongs to another one, where it does not start. This
is what a spent automaton still knows, and what makes a stray append do harm. -/
theorem exists_owner (hw : w.Parted) (hk : k < w.automata.size)
    (hleft : (w.automaton k).start ∉ (w.automaton k).states) :
    (w.automaton k).states = ∅ ∧ ∃ j < w.automata.size,
      (w.automaton k).start ∈ (w.automaton j).states ∧
        (w.automaton k).start ≠ (w.automaton j).start := by
  have hnone : (w.automaton k).states = ∅ := by
    by_contra hsome
    exact hleft (hw.framed k hk hsome).start_mem
  exact ⟨hnone, (hw.spent k hk hnone).2⟩

/-- Whatever the appended automaton has left, the one that grows stays framed: it takes in states
that are apart from its own, or it takes in none. -/
theorem framed_append (hw : w.Parted) (hh : h < w.automata.size) (hk : k < w.automata.size)
    (hlive : (w.automaton h).discarded = false) (hne : h ≠ k)
    (hattaches : (w.machine h).Attaches (w.automaton k)) :
    ((w.machine h).append (w.automaton k)).automaton.Framed
      ((w.machine h).append (w.automaton k)).graph := by
  have hm : (w.machine h).automaton.Framed (w.machine h).graph := hw.framed_of_live hh hlive
  apply hattaches.framed_append
  by_cases hnone : (w.automaton k).states = ∅
  · refine framed_join_of_spent hm hnone fun hstart => ?_
    obtain ⟨_, j, hj, hmem, hnot⟩ := hw.spent k hk hnone
    have hjh : h = j := hw.disjoint h hh j hj _ (hstart ▸ hm.start_mem) hmem
    exact hnot (hjh ▸ hstart)
  · exact framed_join hm (hw.framed k hk hnone) fun v hv hvk => hne (hw.disjoint h hh k hk v hv hvk)

/-- Appending changes no state of a third automaton. The one state outside that it could touch is
the former start state of a spent automaton, and the flag that would be taken off there is not
set. -/
theorem node_append (hw : w.Parted) (hh : h < w.automata.size) (hk : k < w.automata.size)
    (hattaches : (w.machine h).Attaches (w.automaton k)) {j : Handle} (hj : j < w.automata.size)
    (hjh : j ≠ h) (hjk : j ≠ k) {v : Vertex} (hv : v ∈ (w.automaton j).states) :
    ((w.machine h).append (w.automaton k)).graph.node v = w.graph.node v := by
  have hvh : v ∉ (w.automaton h).states := fun hmem => hjh (hw.disjoint j hj h hh v hv hmem)
  by_cases hstart : v = (w.automaton k).start
  · subst hstart
    have hvk : (w.automaton k).start ∉ (w.automaton k).states :=
      fun hmem => hjk (hw.disjoint j hj k hk _ hv hmem)
    obtain ⟨_, i, hi, hmem, hnot⟩ := hw.exists_owner hk hvk
    obtain rfl := hw.disjoint j hj i hi _ hv hmem
    -- nothing is read on there, and the start flag that is taken off is not set
    have hnone : ∀ u ∈ (w.automaton h).states, (w.graph.node u).isAccepting = false := by
      intro u hu
      refine Bool.eq_false_iff.2 fun hacc => ?_
      exact (hattaches u hu hacc).elim hvh hvk
    have hflag : (w.graph.node (w.automaton k).start).isStart = false := by
      refine Bool.eq_false_iff.2 fun hflag => hnot ?_
      have hsome : (w.automaton j).states ≠ ∅ := by
        intro hempty
        rw [hempty] at hv
        exact OrdSet.not_mem_empty _ hv
      exact ((hw.framed j hj hsome).isStart_iff _ hv).1 hflag
    rw [append_eq_join hnone, join, node_flagStart, if_pos rfl]
    show { w.graph.node _ with isStart := false } = _
    rw [← hflag]
  · exact node_append_of_ne hvh hstart

/-- A state that starts no automaton, or that moves, still belongs to an automaton which it does not
start. States that move go to the automaton that grows, and that one starts where it did. -/
theorem exists_owner_appended (hw : w.Parted) (hh : h < w.automata.size)
    (hk : k < w.automata.size) (hlive : (w.automaton h).discarded = false) (hne : h ≠ k)
    (hattaches : (w.machine h).Attaches (w.automaton k)) {i : Handle} (hi : i < w.automata.size)
    {v : Vertex} (hv : v ∈ (w.automaton i).states) (hmoves : v ≠ (w.automaton i).start ∨ i = k) :
    ∃ j < w.automata.size, v ∈ ((w.appended h k).automaton j).states ∧
      v ≠ ((w.appended h k).automaton j).start := by
  by_cases hik : i = k
  · subst hik
    refine ⟨h, hh, (mem_states_appended hh hne hattaches hh).2 ⟨hne, Or.inr ⟨rfl, hv⟩⟩, ?_⟩
    rw [start_appended hne hattaches hh]
    rintro rfl
    exact hne (hw.disjoint h hh i hi _ (hw.framed_of_live hh hlive).start_mem hv)
  · refine ⟨i, hi, (mem_states_appended hh hne hattaches hi).2 ⟨hik, Or.inl hv⟩, ?_⟩
    rw [start_appended hne hattaches hi]
    exact hmoves.resolve_right hik

/-- An automaton that is left without states was handed over, and its start state has an owner.
Either it was spent before, and its start state may have moved on with its owner, or it was appended
just now. -/
theorem spent_appended (hw : w.Parted) (hh : h < w.automata.size) (hk : k < w.automata.size)
    (hlive : (w.automaton h).discarded = false) (hne : h ≠ k)
    (hattaches : (w.machine h).Attaches (w.automaton k)) {j : Handle} (hj : j < w.automata.size)
    (hnone : ((w.appended h k).automaton j).states = ∅) :
    ((w.appended h k).automaton j).discarded = true ∧ ∃ i < w.automata.size,
      (w.automaton j).start ∈ ((w.appended h k).automaton i).states ∧
        (w.automaton j).start ≠ ((w.appended h k).automaton i).start := by
  have howner := fun {i v} => hw.exists_owner_appended (i := i) (v := v) hh hk hlive hne hattaches
  by_cases hjk : j = k
  · subst hjk
    refine ⟨by rw [automaton_appended_other hj hne]; rfl, ?_⟩
    by_cases hleft : (w.automaton j).start ∈ (w.automaton j).states
    · exact howner hj hleft (Or.inr rfl)
    · obtain ⟨_, i, hi, hstart, hnot⟩ := hw.exists_owner hj hleft
      exact howner hi hstart (Or.inl hnot)
  by_cases hjh : j = h
  · subst hjh
    have hstart := (hw.framed_append hj hk hlive hne hattaches).start_mem
    rw [← automaton_appended_self hj hne, hnone] at hstart
    exact absurd hstart (OrdSet.not_mem_empty _)
  · rw [automaton_appended_beside hj hjh hjk] at hnone ⊢
    obtain ⟨hspent, i, hi, hstart, hnot⟩ := hw.spent j hj hnone
    exact ⟨hspent, howner hi hstart (Or.inl hnot)⟩

/-- A state that moves to the automaton that grows was in no other automaton before, and it leaves
the one it was in. -/
theorem disjoint_appended (hw : w.Parted) (hh : h < w.automata.size) (hk : k < w.automata.size)
    (hne : h ≠ k) (hattaches : (w.machine h).Attaches (w.automaton k)) {i j : Handle}
    (hi : i < w.automata.size) (hj : j < w.automata.size) {v : Vertex}
    (hvi : v ∈ ((w.appended h k).automaton i).states)
    (hvj : v ∈ ((w.appended h k).automaton j).states) : i = j := by
  obtain ⟨hik, hvi'⟩ := (mem_states_appended hh hne hattaches hi).1 hvi
  obtain ⟨hjk, hvj'⟩ := (mem_states_appended hh hne hattaches hj).1 hvj
  rcases hvi' with hold | ⟨hih, hmoved⟩
  · rcases hvj' with hold' | ⟨_, hmoved⟩
    · exact hw.disjoint i hi j hj v hold hold'
    · exact absurd (hw.disjoint i hi k hk v hold hmoved) hik
  · rcases hvj' with hold | ⟨hjh, _⟩
    · exact absurd (hw.disjoint j hj k hk v hold hmoved) hjk
    · rw [hih, hjh]

/-- An append that does not stray keeps the automata apart. This is the step of the induction over
the calls, with one part for each thing that is kept. -/
theorem appended (hw : w.Parted) (hh : h < w.automata.size) (hk : k < w.automata.size)
    (hlive : (w.automaton h).discarded = false) (hne : h ≠ k) (hstays : ¬w.Strays h k) :
    (w.appended h k).Parted := by
  -- it does not stray, so edges lead between states of the two automata only
  have hattaches := attaches_of_not_strays hlive hne hstays
  constructor
  · intro j hj hsome
    rw [size_appended] at hj
    by_cases hjh : j = h
    · rw [hjh, automaton_appended_self hh hne]
      exact hw.framed_append hh hk hlive hne hattaches
    by_cases hjk : j = k
    · rw [hjk, automaton_appended_other hk hne] at hsome
      exact absurd rfl hsome
    · rw [automaton_appended_beside hj hjh hjk] at hsome ⊢
      exact (hw.framed j hj hsome).congr_nodes
        (fun v hv => hw.node_append hh hk hattaches hj hjh hjk hv)
        (size_le_append (m := w.machine h))
  · intro j hj hnone
    rw [size_appended] at hj ⊢
    rw [start_appended hne hattaches hj]
    exact hw.spent_appended hh hk hlive hne hattaches hj hnone
  · intro i hi j hj v hvi hvj
    rw [size_appended] at hi hj
    exact hw.disjoint_appended hh hk hne hattaches hi hj hvi hvj
  · intro i hi j hj u hu v hv hid
    rw [size_appended] at hi hj
    -- identifiers stay, and no state comes from outside the automata
    have hold : ∀ {i v}, i < w.automata.size → v ∈ ((w.appended h k).automaton i).states →
        ∃ j < w.automata.size, v ∈ (w.automaton j).states := by
      intro i v hi hv
      rcases ((mem_states_appended hh hne hattaches hi).1 hv).2 with hv | ⟨_, hv⟩
      · exact ⟨i, hi, hv⟩
      · exact ⟨k, hk, hv⟩
    obtain ⟨i', hi', hu'⟩ := hold hi hu
    obtain ⟨j', hj', hv'⟩ := hold hj hv
    rw [graph_appended, id_append, id_append] at hid
    exact hw.id_injective i' hi' j' hj' u hu' v hv' hid

/-- After an append that strays, two automata share a state: the start state drawn in still belongs
to the automaton that it was handed over to. -/
theorem not_owned (hw : w.Parted) (hh : h < w.automata.size) (hk : k < w.automata.size)
    (hstrays : w.Strays h k) : ¬(w.appended h k).Owned := by
  obtain ⟨hlive, hne, v, hv, hacc, hvh, hvk⟩ := hstrays
  obtain ⟨hnone, j, hj, hmem, _⟩ := hw.exists_owner hk hvk
  have hjh : j ≠ h := by
    rintro rfl
    exact hvh hmem
  have hjk : j ≠ k := by
    rintro rfl
    exact hvk hmem
  intro howned
  have hdisjoint := howned.disjoint h (by rwa [size_appended]) j (by rwa [size_appended])
    (Ne.symm hjh) (w.automaton k).start
  rw [automaton_appended_self hh hne, automaton_appended_beside hj hjh hjk] at hdisjoint
  refine hdisjoint ?_ hmem
  -- the automaton that grows is led from a state that accepts to the start state that had moved
  rw [Machine.append_eq, automaton_unflag, mem_states_connectAll]
  exact Or.inr ⟨⟨v, .epsilon, _⟩, mem_bridges.2 ⟨⟨hv, hacc⟩, rfl, rfl⟩, Or.inr rfl⟩

end Parted

/-! ## Calls -/

/-- A property holds before the first of some calls, each of which appends an automaton to another
one, and after every call. -/
def Throughout (P : Workspace → Prop) (w : Workspace) : List (Handle × Handle) → Prop
  | [] => P w
  | (h, k) :: calls => P w ∧ Throughout P (leftBy (Work.append h k w)) calls

/-- Some of the calls strays when its turn comes. -/
def StraysAmong (w : Workspace) : List (Handle × Handle) → Prop
  | [] => False
  | (h, k) :: calls => w.Strays h k ∨ StraysAmong (leftBy (Work.append h k w)) calls

/-- Whether some call strays can be found out by making the calls. -/
instance decidableStraysAmong : (w : Workspace) → (calls : List (Handle × Handle)) →
    Decidable (w.StraysAmong calls)
  | _, [] => isFalse id
  | w, (h, k) :: calls =>
    have := decidableStraysAmong (leftBy (Work.append h k w)) calls
    inferInstanceAs (Decidable (w.Strays h k ∨ StraysAmong (leftBy (Work.append h k w)) calls))

/-- What holds throughout some calls holds before the first of them. -/
theorem Throughout.first {P : Workspace → Prop} {calls : List (Handle × Handle)}
    (hall : w.Throughout P calls) : P w := by
  cases calls with
  | nil => exact hall
  | cons c calls => exact hall.1

/-- A call that strays is carried out: neither reason to refuse it applies. -/
theorem Strays.leftBy_eq (hstrays : w.Strays h k) :
    leftBy (Work.append h k w) = w.appended h k := by
  rw [append_eq, if_neg (Bool.eq_false_iff.1 hstrays.1), if_neg hstrays.2.1]
  rfl

/-- No call makes or loses an automaton, refused or not. -/
theorem size_leftBy_append : (leftBy (Work.append h k w)).automata.size = w.automata.size := by
  rw [append_eq]
  split
  · rfl
  split
  · rfl
  · exact size_appended

/-- A call keeps the automata apart unless it strays. A call that is refused changes nothing. -/
theorem Parted.leftBy_append (hw : w.Parted) (hh : h < w.automata.size)
    (hk : k < w.automata.size) (hstays : ¬w.Strays h k) : (leftBy (Work.append h k w)).Parted := by
  rw [append_eq]
  split
  · exact hw
  · next hlive =>
    split
    · exact hw
    · next hne => exact hw.appended hh hk (Bool.eq_false_iff.2 hlive) hne hstays

/-- Calls leave every state with one owner unless one of them strays. By induction on the calls: up
to the first that strays the automata are kept apart, and after that one a state is shared. -/
theorem Parted.owned_iff {calls : List (Handle × Handle)} (hw : w.Parted)
    (hcalls : ∀ c ∈ calls, c.1 < w.automata.size ∧ c.2 < w.automata.size) :
    w.Throughout Owned calls ↔ ¬w.StraysAmong calls := by
  induction calls generalizing w with
  | nil => exact iff_of_true hw.owned id
  | cons c calls ih =>
    obtain ⟨h, k⟩ := c
    obtain ⟨hh, hk⟩ := hcalls (h, k) List.mem_cons_self
    rw [Throughout, StraysAmong, and_iff_right hw.owned]
    by_cases hstrays : w.Strays h k
    · refine iff_of_false (fun hall => ?_) (not_not_intro (Or.inl hstrays))
      have howned := hall.first
      rw [hstrays.leftBy_eq] at howned
      exact hw.not_owned hh hk hstrays howned
    · rw [or_iff_right hstrays]
      apply ih (hw.leftBy_append hh hk hstrays)
      intro c hc
      rw [size_leftBy_append]
      exact hcalls c (List.mem_cons_of_mem _ hc)

/-- In a family of automata, whatever is appended to whatever in whatever order: a call is refused
with nothing changed, because the automaton that should grow was handed over or because it is the
one to be appended, or it succeeds; and every automaton that was not handed over passes the check
and no two share a state after every call, exactly if no call strays. -/
theorem IsFamily.owned_throughout_iff (hw : w.IsFamily) {calls : List (Handle × Handle)}
    (hcalls : ∀ c ∈ calls, c.1 < w.automata.size ∧ c.2 < w.automata.size) :
    (∀ (w' : Workspace) (h k : Handle),
      Work.append h k w' = .error (.spent .append) w' ∧ (w'.automaton h).discarded = true ∨
      Work.append h k w' = .error .spliceIntoItself w' ∧ h = k ∨
      ∃ w'', Work.append h k w' = .ok () w'') ∧
    (w.Throughout Owned calls ↔ ¬w.StraysAmong calls) := by
  refine ⟨fun w' h k => ?_, hw.parted.owned_iff hcalls⟩
  rw [append_eq]
  split
  · next hspent => exact Or.inl ⟨rfl, hspent⟩
  split
  · next hself => exact Or.inr (Or.inl ⟨rfl, hself⟩)
  · exact Or.inr (Or.inr ⟨_, rfl⟩)

/-! ## Three states -/

/-- Three automata of one state each, which starts and accepts. -/
def threeStates : Workspace where
  graph := ⟨#[{ id := 0, isStart := true, isAccepting := true },
    { id := 1, isStart := true, isAccepting := true },
    { id := 2, isStart := true, isAccepting := true }]⟩
  automata := #[{ start := 0, states := {0}, alphabet := ∅ },
    { start := 1, states := {1}, alphabet := ∅ }, { start := 2, states := {2}, alphabet := ∅ }]

/-- Each of the three automata is made of the state with its own number. -/
theorem automaton_threeStates {h : Handle} (hh : h < 3) :
    threeStates.automaton h = { start := h, states := {h}, alphabet := ∅ } := by
  match h, hh with
  | 0, _ | 1, _ | 2, _ => rfl

/-- Each state starts and accepts. -/
theorem node_threeStates {v : Vertex} (hv : v < 3) :
    threeStates.graph.node v = { id := v, isStart := true, isAccepting := true } := by
  match v, hv with
  | 0, _ | 1, _ | 2, _ => rfl

/-- Three lone states make a family. Each automaton is the set of its one state, so that everything
comes down to a number below three. -/
theorem isFamily_threeStates : threeStates.IsFamily := by
  have hmem : ∀ h < 3, ∀ v ∈ (threeStates.automaton h).states, v = h := by
    intro h hh v hv
    rw [automaton_threeStates hh] at hv
    exact OrdSet.mem_singleton.1 hv
  have hstructure : ∀ h < 3, (threeStates.automaton h).WellFormed threeStates.graph ∧
      (threeStates.automaton h).Closed threeStates.graph := by
    intro h hh
    refine Automaton.wellFormed_closed_iff.2 ⟨?_, ?_, ?_, ?_⟩
    · rw [automaton_threeStates hh]
      exact OrdSet.mem_singleton.2 rfl
    · intro v hv
      rw [hmem h hh v hv, node_threeStates hh, automaton_threeStates hh]
      exact iff_of_true rfl rfl
    · intro u hu v hv _
      rw [hmem h hh u hu, hmem h hh v hv]
    · rw [automaton_threeStates hh]
      apply Unconnected.consistent
      constructor <;> rw [node_threeStates hh]
  exact {
    check := fun h hh => Automaton.violation?_eq_none_iff.2 (hstructure h hh).1
    closed := fun h hh => (hstructure h hh).2
    placed := fun h hh v hv => hmem h hh v hv ▸ hh
    disjoint := fun h hh k hk hne v hv hvk => hne ((hmem h hh v hv).symm.trans (hmem k hk v hvk))
    id_injective := fun h hh k hk u hu v hv hid => by
      rw [hmem h hh u hu, hmem k hk v hv] at hid ⊢
      rw [node_threeStates hh, node_threeStates hk] at hid
      exact Int.ofNat.inj hid }

/-- An automaton may be appended that gave its states to the automaton that grows, and calls may be
refused. -/
theorem owned_threeStates :
    threeStates.Throughout Owned [(0, 1), (0, 1), (1, 2), (0, 0), (0, 2), (2, 0)] :=
  (isFamily_threeStates.owned_throughout_iff (by decide)).2.2 (by decide +kernel)

/-- The second automaton is appended to the third, and then to the first. -/
theorem not_owned_threeStates : ¬∀ (w : Workspace) (calls : List (Handle × Handle)), w.IsFamily →
    (∀ c ∈ calls, c.1 < w.automata.size ∧ c.2 < w.automata.size) → w.Throughout Owned calls := by
  intro hall
  have howned := hall threeStates [(2, 1), (0, 1)] isFamily_threeStates (by decide)
  rw [isFamily_threeStates.parted.owned_iff (by decide)] at howned
  exact howned (by decide +kernel)

/-- The third automaton passes the check no longer: it counts an edge that comes from the first. -/
example : ((threeStates.appended 2 1).appended 0 1 |>.automaton 2).violation?
    ((threeStates.appended 2 1).appended 0 1).graph =
      some (.wrongIndegree ⟨1, "", false, true⟩ 2 1) := by
  cbv

end Workspace

end PatternAutomata
