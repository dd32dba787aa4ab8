/-
The structure of an automaton along any run of edits.

A run edits one automaton any number of times, in any order, with states that live in it or
are fresh. Between two edits anything may happen elsewhere in the graph, so new states may be
made and other automata may be built and edited, as long as the states of the automaton are
left alone.

Every edit keeps a sound automaton sound (`Alteration.sound_leftBy`), so a run does
(`Alters.sound`). An edit never fails halfway: it is refused with nothing changed, by
an automaton that was handed over or by a strict one that does not know a symbol, and
otherwise it succeeds (`Alteration.outcome`).
-/
import PatternAutomata.Proofs.Structure.Outcomes
import PatternAutomata.Proofs.Words.SilentEdges

set_option autoImplicit false

namespace PatternAutomata

/-! ## Edits as values -/

/-- What can be done to an automaton. -/
inductive Alteration where
  | connect (e : Edge)
  | disconnect (e : Edge)
  | collect (v : Vertex)
  /-- Moves the start from the current start state. -/
  | moveStart (new : Vertex)
  | merge (other target : Vertex)
  | absorb (other target : Vertex)
  | append (other : Automaton)
  | removeEpsilons
  | addTrap
  | markTraps
  | reset
  | readSymbol (l : Label)

namespace Alteration

/-- The edit itself, whatever it answers. -/
def edit : Alteration → Edit Unit
  | connect e => Edit.connect e
  | disconnect e => do let _ ← Edit.disconnect e
  | collect v => do let _ ← Edit.collect v
  | moveStart new => do Edit.moveStart (← get).automaton.start new
  | merge other target => Edit.merge other target
  | absorb other target => Edit.absorb other target
  | append other => Edit.append other
  | removeEpsilons => Edit.removeEpsilons
  | addTrap => do let _ ← Edit.addTrap
  | markTraps => do let _ ← Edit.markTraps
  | reset => Edit.reset
  | readSymbol l => Edit.readSymbol l

/-- The edit is given states of the automaton only, or fresh ones where it takes states in,
and another automaton only if that is sound and apart from it. -/
def Admissible (m : Machine) : Alteration → Prop
  | connect e => m.LiveOrFresh e.source ∧ m.LiveOrFresh e.target ∧
      (m.Fresh e.source → m.Fresh e.target → e.source ≠ e.target →
        (m.graph.node e.source).id ≠ (m.graph.node e.target).id)
  | disconnect e => e.source ∈ m.automaton.states ∧ e.target ∈ m.automaton.states
  | collect v => v ∈ m.automaton.states
  | moveStart new => m.LiveOrFresh new
  | merge other target => other ∈ m.automaton.states ∧ target ∈ m.automaton.states
  | absorb other target => other ∈ m.automaton.states ∧ target ∈ m.automaton.states
  | append other => other.Sound m.graph ∧ m.automaton.Apart m.graph other
  | _ => True

/-- A strict automaton is asked to read a symbol that it does not know. -/
def Unknown (m : Machine) (x : Alteration) : Prop :=
  ∃ l, x = readSymbol l ∧ l ∉ m.automaton.alphabet ∧ m.automaton.strict = true

variable {m : Machine}

/-- An automaton that was handed over refuses every edit. Each edit asks this first, before it looks
at what it is given. -/
theorem edit_of_discarded (hd : m.automaton.discarded = true) (x : Alteration) :
    ∃ f, x.edit m = .error f m := by
  have hlive := Edit.live_eq_error hd
  cases x <;>
    simp only [edit, Edit.connect, Edit.disconnect, Edit.collect, Edit.moveStart, Edit.merge,
      Edit.absorb, Edit.append, Edit.removeEpsilons, Edit.addTrap, Edit.markTraps, Edit.reset,
      Edit.readSymbol, outcome_bind, outcome_bind_fun, outcome_get, hlive,
      EStateM.Result.error.injEq, and_true, exists_eq']

/-- An admissible edit of a sound automaton that was not handed over succeeds and leaves a sound
automaton, unless it is to read a symbol that the automaton refuses. One case for each edit: what
the edit does comes from its specification, and its success from opening the steps. -/
theorem outcome (hm : m.automaton.Sound m.graph) (hd : m.automaton.discarded = false)
    {x : Alteration} (hx : x.Admissible m) :
    (∃ m', x.edit m = .ok () m' ∧ m'.automaton.Sound m'.graph) ∨
      x.Unknown m ∧ ∃ f, x.edit m = .error f m := by
  have hlive := Edit.live_eq_ok hd
  cases x with
  | connect e =>
    obtain ⟨hs, ht, hids⟩ := hx
    refine Or.inl ⟨m.connect e, ?_, Machine.sound_connect hm hs ht hids⟩
    simp only [edit, Edit.connect, outcome_bind, hlive, outcome_modify]
  | disconnect e =>
    obtain ⟨g, m', gone, hcut, _, hprunes, _⟩ := Machine.disconnect_spec hm hx.1 hx.2
    refine Or.inl ⟨m', ?_, hprunes.sound⟩
    simp only [edit, Edit.disconnect, outcome_bind, outcome_bind_fun, hlive, hcut, outcome_pure]
  | collect v =>
    obtain ⟨m', gone, hcollect, hprunes⟩ := Machine.collect_spec hm v
    refine Or.inl ⟨m', ?_, hprunes.sound⟩
    simp only [edit, Edit.collect, outcome_bind, outcome_bind_fun, hlive, hcollect, outcome_pure]
  | moveStart new =>
    refine Or.inl ⟨_, ?_, Machine.sound_shiftStart hm hx⟩
    have hflag : (m.graph.node m.automaton.start).isStart = true :=
      (hm.isStart_iff hm.start_mem).2 rfl
    simp only [edit, Edit.moveStart, outcome_bind, outcome_bind_fun, outcome_get, hlive,
      Machine.moveStart, hflag, and_self, if_true]
  | merge other target =>
    obtain ⟨ho, ht⟩ := hx
    -- a state that is merged into itself is left alone
    by_cases hne : other = target
    · refine Or.inl ⟨m, ?_, hm⟩
      simp only [edit, Edit.merge, outcome_bind_fun, hlive, Machine.merge, if_pos hne]
    · obtain ⟨m', hmerge, hworks, _⟩ := Machine.merge_spec hm ho ht hne
      refine Or.inl ⟨m', ?_, hworks.sound⟩
      simp only [edit, Edit.merge, outcome_bind_fun, hlive, hmerge]
  | absorb other target =>
    refine Or.inl ⟨m.absorb other target, ?_, (Machine.reworks_absorb hm hx.1 hx.2).sound⟩
    simp only [edit, Edit.absorb, outcome_bind, hlive, outcome_modify]
  | append other =>
    refine Or.inl ⟨m.append other, ?_, Machine.sound_append hm hx.1 hx.2⟩
    simp only [edit, Edit.append, outcome_bind, hlive, outcome_modify]
  | removeEpsilons =>
    obtain ⟨m', hremove, hkeeps, _⟩ := Machine.removeEpsilons_spec hm
    refine Or.inl ⟨m', ?_, hkeeps.sound⟩
    simp only [edit, Edit.removeEpsilons, outcome_bind_fun, hlive, hremove]
  | addTrap =>
    refine Or.inl ⟨m.addTrap.2, ?_, Machine.sound_addTrap hm⟩
    simp only [edit, Edit.addTrap, outcome_bind, hlive, outcome_get, outcome_set, outcome_pure]
  | markTraps =>
    refine Or.inl ⟨m.markTraps, ?_, Machine.sound_markTraps hm⟩
    simp only [edit, Edit.markTraps, outcome_bind, hlive, outcome_get, outcome_set, outcome_pure]
  | reset =>
    refine Or.inl ⟨m.reset, ?_, (Machine.reworks_reset hm).sound⟩
    simp only [edit, Edit.reset, outcome_bind, hlive, outcome_modify]
  | readSymbol l =>
    -- the only edit that may be refused, and only by a strict automaton
    by_cases hl : l ∉ m.automaton.alphabet ∧ m.automaton.strict = true
    · refine Or.inr ⟨⟨l, rfl, hl⟩, .unknownSymbol l m.automaton.alphabet.toList, ?_⟩
      simp only [edit, Edit.readSymbol, outcome_bind, hlive, outcome_get, if_pos hl,
        outcome_throw]
    · refine Or.inl ⟨m.advance l, ?_, (Machine.reworks_advance hm l).sound⟩
      simp only [edit, Edit.readSymbol, outcome_bind, hlive, outcome_get, if_neg hl, outcome_set]

/-- Whatever an admissible edit of a sound automaton leaves behind is sound. If the edit was
refused, that is what was there before. -/
theorem sound_leftBy (hm : m.automaton.Sound m.graph) {x : Alteration} (hx : x.Admissible m) :
    (leftBy (x.edit m)).automaton.Sound (leftBy (x.edit m)).graph := by
  by_cases hd : m.automaton.discarded = true
  · obtain ⟨f, hf⟩ := edit_of_discarded hd x
    rw [hf]
    exact hm
  · rcases outcome hm (by simpa using hd) hx with ⟨m', hm', hsound⟩ | ⟨_, f, hf⟩
    · rw [hm']
      exact hsound
    · rw [hf]
      exact hm

end Alteration

/-! ## Runs of edits -/

/-- A machine comes from another one by edits of its automaton, one after the other, and by
what happens in the graph outside that automaton in between. -/
inductive Alters : Machine → Machine → Prop where
  | refl (m : Machine) : Alters m m
  | edit {m m' : Machine} (run : Alters m m') (x : Alteration) (admissible : x.Admissible m') :
      Alters m (leftBy (x.edit m'))
  | elsewhere {m m' : Machine} (run : Alters m m') (g : Graph)
      (untouched : ∀ v ∈ m'.automaton.states, g.node v = m'.graph.node v)
      (grown : m'.graph.size ≤ g.size) : Alters m { m' with graph := g }

/-- An automaton that is sound before a run is sound after it. By induction on the run, with one
edit, or one change elsewhere in the graph, as the step. -/
theorem Alters.sound {m m' : Machine} (run : Alters m m') (hm : m.automaton.Sound m.graph) :
    m'.automaton.Sound m'.graph := by
  induction run with
  | refl => exact hm
  | edit _ x admissible ih => exact Alteration.sound_leftBy ih admissible
  | elsewhere _ g untouched grown ih => exact ih.congr_nodes untouched grown

/-- The check still passes after any run, everything noted at a state still comes from a
state, symbols are still in the alphabet, and the automaton can still only be in its own
states, if all this was so before. That states are places which the graph has (`placed`) is all
that is asked of the places themselves. -/
theorem Alters.structure_kept {m m' : Machine} (run : Alters m m')
    (check : m.automaton.violation? m.graph = none) (closed : m.automaton.Closed m.graph)
    (placed : ∀ v ∈ m.automaton.states, v < m.graph.size)
    (label_mem : ∀ v ∈ m.automaton.states, ∀ l, ∀ w ∈ m.graph.destinations v l,
      l ≠ .epsilon → l ∈ m.automaton.alphabet)
    (epsilon_not_mem : .epsilon ∉ m.automaton.alphabet)
    (current_mem : ∀ v ∈ m.automaton.run.current, v ∈ m.automaton.states) :
    m'.automaton.violation? m'.graph = none ∧ m'.automaton.Closed m'.graph ∧
      (∀ v ∈ m'.automaton.states, ∀ l, ∀ w ∈ m'.graph.destinations v l,
        l ≠ .epsilon → l ∈ m'.automaton.alphabet) ∧
      .epsilon ∉ m'.automaton.alphabet ∧
      ∀ v ∈ m'.automaton.run.current, v ∈ m'.automaton.states := by
  -- the check is the well-formedness that soundness asks for
  have hm : m.automaton.Sound m.graph :=
    ⟨Automaton.violation?_eq_none_iff.1 check, closed, placed, label_mem, epsilon_not_mem,
      current_mem⟩
  have hm' := run.sound hm
  exact ⟨Automaton.violation?_eq_none_iff.2 hm'.wellFormed, hm'.closed, hm'.label_mem,
    hm'.epsilon_not_mem, hm'.current_mem⟩

/-! ## A run -/

/-- One start state, and beside it a state that belongs to no automaton. -/
def loneStart : Machine where
  graph := ⟨#[{ id := 0, isStart := true }, { id := 1, isAccepting := true }]⟩
  automaton := { start := 0, states := {0}, alphabet := ∅ }

/-- A start state by itself is sound. -/
theorem sound_loneStart : loneStart.automaton.Sound loneStart.graph := by
  have hzero : ∀ v ∈ loneStart.automaton.states, v = 0 := fun v hv => OrdSet.mem_singleton.1 hv
  apply Automaton.Sound.of_consistent
  · decide
  · intro v hv
    rw [hzero v hv]
    decide
  · intro v hv w hw _
    rw [hzero v hv, hzero w hw]
  · exact Graph.Unconnected.consistent ⟨rfl, rfl, rfl⟩
  · intro v hv
    rw [hzero v hv]
    decide
  · intro v hv l w hw _
    rw [hzero v hv] at hw
    exact absurd hw (OrdSet.not_mem_empty w)
  · decide
  · intro v hv
    exact absurd hv (OrdSet.not_mem_empty v)

/-- The state beside it is fresh, so that an edge may lead there. -/
theorem fresh_loneStart : loneStart.Fresh 1 := by
  constructor
  · decide
  · exact ⟨rfl, rfl, rfl⟩
  · rfl
  · intro u hu
    rw [OrdSet.mem_singleton.1 hu]
    decide

/-- The start state reads a symbol and moves to the other state, which leads back without
reading; then the silent edge is removed and the symbol read. -/
def loneStartAltered : Machine :=
  [.connect ⟨0, .symbol "a", 1⟩, .connect ⟨1, .epsilon, 0⟩, .removeEpsilons, .reset,
    .readSymbol (.symbol "a")].foldl (fun m x => leftBy (Alteration.edit x m)) loneStart

/-- The edits that were made are a run, each of them admissible when its turn came. -/
theorem alters_loneStart : Alters loneStart loneStartAltered := by
  have hfirst : Alteration.Admissible loneStart (.connect ⟨0, .symbol "a", 1⟩) :=
    ⟨Or.inl (by decide), Or.inr fresh_loneStart, fun h => absurd rfl (h.id_ne 0 (by decide))⟩
  have hstates : (0 : Vertex) ∈ (leftBy (Alteration.edit (.connect ⟨0, .symbol "a", 1⟩)
      loneStart)).automaton.states ∧ (1 : Vertex) ∈ (leftBy (Alteration.edit
        (.connect ⟨0, .symbol "a", 1⟩) loneStart)).automaton.states := by decide
  have hsecond : Alteration.Admissible (leftBy (Alteration.edit (.connect ⟨0, .symbol "a", 1⟩)
      loneStart)) (.connect ⟨1, .epsilon, 0⟩) :=
    ⟨Or.inl hstates.2, Or.inl hstates.1, fun h => absurd rfl (h.id_ne 1 hstates.2)⟩
  exact ((((Alters.refl loneStart).edit _ hfirst).edit _ hsecond).edit .removeEpsilons
    trivial).edit .reset trivial |>.edit (.readSymbol (.symbol "a")) trivial

/-- The run leaves an automaton that passes the check. -/
theorem structure_kept_loneStart :
    loneStartAltered.automaton.violation? loneStartAltered.graph = none := by
  have hm := sound_loneStart
  exact (alters_loneStart.structure_kept (Automaton.violation?_eq_none_iff.2 hm.wellFormed)
    hm.closed hm.placed hm.label_mem hm.epsilon_not_mem hm.current_mem).1

end PatternAutomata
