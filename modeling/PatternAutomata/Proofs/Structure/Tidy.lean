/-
No run of edits leaves a state behind that the start state does not reach.

The edits are those that collect what they cut off, and those that cut nothing off: a state that
is merged away is collected right after (`Edit.mergeAway`), and another automaton is only read
on in where some state accepts. Each of them leads from a rooted automaton to a rooted one
(`Alteration.outcome_of_tidy`), so a run of any length does (`Tidies.rooted`).

Removing the edges that read nothing is a walk of such steps by itself. Between folding a target
in and disconnecting it the automaton is rooted at that target only, also where the start has
moved away from it.
-/
import PatternAutomata.Proofs.Structure.Rooted
import PatternAutomata.Proofs.Structure.Runs

set_option autoImplicit false

namespace PatternAutomata

open Automaton

/-! ## Removing the edges that read nothing -/

namespace Machine

variable {m : Machine} {v target : Vertex}

/-- Starting over touches nothing that reaching looks at. -/
theorem rooted_reset {cs : List Vertex} (hr : m.automaton.Rooted m.graph cs) :
    m.reset.automaton.Rooted m.reset.graph cs :=
  hr.congr rfl rfl (fun v _ => .refl m.graph v) (fun _ _ => rfl) (Nat.le_refl _)

/-- After folding a target in, it is the only state that may have to be collected. If it was merged,
the start may have moved away from it; if it was absorbed, it is reached as it was. -/
theorem rooted_foldIn (hr : m.automaton.Rooted m.graph []) (hv : v ∈ m.automaton.states)
    (ht : target ∈ m.automaton.states) (n : FoldCount) :
    ∃ n' m', m.foldIn v target n = .ok n' m' ∧ m'.automaton.Rooted m'.graph [target] ∧
      m'.automaton.states = m.automaton.states ∧
      m'.automaton.discarded = m.automaton.discarded := by
  rw [foldIn]
  split
  · obtain ⟨m', hmerge, hr', hstates, hdiscarded⟩ := rooted_merge hr ht hv
    rw [hmerge]
    exact ⟨_, m', rfl, hr', hstates, hdiscarded⟩
  · have hr' := rooted_absorb hr ht hv
    exact ⟨_, _, rfl, hr'.of_nil _, states_absorb (hr.consistent.target_mem _ ht) hv,
      discarded_absorb⟩

/-- Folding a target in and disconnecting it leaves nothing that cannot be reached, since
disconnecting ends with collecting just that target. -/
theorem rooted_fold (hr : m.automaton.Rooted m.graph []) (hv : v ∈ m.automaton.states)
    (ht : target ∈ m.automaton.states) (n : FoldCount) :
    ∃ n' m' m'' gone, m.foldIn v target n = .ok n' m' ∧
      m'.disconnect ⟨v, .epsilon, target⟩ = .ok gone m'' ∧ m''.automaton.Rooted m''.graph [] ∧
      m''.automaton.discarded = m.automaton.discarded := by
  obtain ⟨n', m', hfold, hr', hstates, hdiscarded⟩ := rooted_foldIn hr hv ht n
  obtain ⟨m'', gone, hcut, hr'', hdiscarded'⟩ :=
    rooted_disconnect (e := ⟨v, .epsilon, target⟩) hr' (hstates ▸ hv) (hstates ▸ ht)
  exact ⟨n', m', m'', gone, hfold, hcut, hr'', hdiscarded'.trans hdiscarded⟩

/-- Removing the silent edges of one state leaves nothing that cannot be reached. The induction is
the recursion of the loop, which has a case for each way a turn may end. Three of them are failures
that cannot occur, because the automaton is rooted whenever an edge is cut. -/
theorem rooted_removeEpsilonsAt (hr : m.automaton.Rooted m.graph []) (pending : VertexSet)
    (n : FoldCount) :
    ∃ n' m', m.removeEpsilonsAt v pending n = .ok n' m' ∧ m'.automaton.Rooted m'.graph [] ∧
      m'.automaton.discarded = m.automaton.discarded := by
  fun_induction removeEpsilonsAt m v pending n with
  | case1 m pending n hv hnone => exact ⟨n, m, rfl, hr, rfl⟩
  | case2 m pending n hv target htarget _ hpending f m' hfold =>
    obtain ⟨_, _, _, _, hfold', _⟩ := rooted_fold hr hv (hr.target_mem hv htarget) n
    rw [hfold] at hfold'
    cases hfold'
  | case3 m pending n hv target htarget _ hpending n' m' hfold f m'' hcut =>
    obtain ⟨_, _, _, _, hfold', hcut', _⟩ := rooted_fold hr hv (hr.target_mem hv htarget) n
    rw [hfold] at hfold'
    cases hfold'
    rw [hcut] at hcut'
    cases hcut'
  -- the target is folded in and then disconnected
  | case4 m pending n hv target htarget _ hpending n' m' hfold r m'' hcut ih =>
    obtain ⟨_, _, _, _, hfold', hcut', hr', hdiscarded⟩ :=
      rooted_fold hr hv (hr.target_mem hv htarget) n
    rw [hfold] at hfold'
    cases hfold'
    rw [hcut] at hcut'
    cases hcut'
    obtain ⟨n'', m₃, hrest, hr'', hdiscarded'⟩ := ih hr'
    exact ⟨n'', m₃, hrest, hr'', hdiscarded'.trans hdiscarded⟩
  | case5 m pending n hv target htarget _ hpending _ cut f m' =>
    rename_i hcut
    obtain ⟨_, _, hcut', _⟩ := rooted_disconnect (e := ⟨v, .epsilon, target⟩) (hr.of_nil _) hv
      (hr.target_mem hv htarget)
    rw [show m.disconnect ⟨v, .epsilon, target⟩ = .error f m' from hcut] at hcut'
    cases hcut'
  -- the target was folded in before, so it is only disconnected
  | case6 m pending n hv target htarget _ hpending _ cut gone m' hcut =>
    rename_i ih
    obtain ⟨m'', _, hcut', hr', hdiscarded⟩ :=
      rooted_disconnect (e := ⟨v, .epsilon, target⟩) (hr.of_nil _) hv
        (hr.target_mem hv htarget)
    have hleft : leftBy cut = m'' := by
      rw [show cut = _ from hcut']
      rfl
    rw [hleft] at ih ⊢
    obtain ⟨n'', m₃, hrest, hr'', hdiscarded'⟩ := ih hr'
    exact ⟨n'', m₃, hrest, hr'', hdiscarded'.trans hdiscarded⟩
  | case7 m pending n hv => exact ⟨n, m, rfl, hr, rfl⟩

/-- So does removing them state after state. A state whose turn comes may have gone by then. -/
theorem rooted_removeEpsilonsFrom (hr : m.automaton.Rooted m.graph []) (vs : List Vertex)
    (n : FoldCount) :
    ∃ n' m', m.removeEpsilonsFrom vs n = .ok n' m' ∧ m'.automaton.Rooted m'.graph [] ∧
      m'.automaton.discarded = m.automaton.discarded := by
  induction vs generalizing m n with
  | nil => exact ⟨n, m, rfl, hr, rfl⟩
  | cons v vs ih =>
    obtain ⟨n₁, m₁, hat, hr₁, hdiscarded₁⟩ :=
      rooted_removeEpsilonsAt hr ((m.graph.closure {v}).erase v) n
    obtain ⟨n₂, m₂, hfrom, hr₂, hdiscarded₂⟩ := ih hr₁ n₁
    refine ⟨n₂, m₂, ?_, hr₂, hdiscarded₂.trans hdiscarded₁⟩
    rw [removeEpsilonsFrom, hat]
    exact hfrom

/-- Removing all edges that read nothing leaves nothing that cannot be reached. At the end the
automaton starts over, which does not matter here. -/
theorem rooted_removeEpsilons (hr : m.automaton.Rooted m.graph []) :
    ∃ m', m.removeEpsilons = .ok () m' ∧ m'.automaton.Rooted m'.graph [] ∧
      m'.automaton.discarded = m.automaton.discarded := by
  obtain ⟨n, m₁, hfrom, hr₁, hdiscarded⟩ :=
    rooted_removeEpsilonsFrom hr (m.graph.inOrder m.automaton.states).reverse {}
  rw [removeEpsilons, hfrom]
  exact ⟨_, rfl, rooted_reset hr₁, hdiscarded⟩

end Machine

/-! ## Edits that leave nothing behind -/

/-- Merges a state away: another one gets its edges, and it is collected if nothing that can be
reached leads to it. -/
def Edit.mergeAway (other target : Vertex) : Edit Unit := do
  Edit.merge other target
  let _ ← Edit.collect other

namespace Alteration

/-- The edit cuts nothing off that it does not collect: it is given states of the automaton, or a
spare one as the target of an edge, and another automaton is only read on in if that is rooted
and apart, and if some state accepts. -/
def Tidy (m : Machine) : Alteration → Prop
  | connect e => e.source ∈ m.automaton.states ∧
      (e.target ∈ m.automaton.states ∨ m.graph.Spare e.target)
  | disconnect e => e.source ∈ m.automaton.states ∧ e.target ∈ m.automaton.states
  | collect v => v ∈ m.automaton.states
  | absorb other target => other ∈ m.automaton.states ∧ target ∈ m.automaton.states
  | append other => other.Rooted m.graph [] ∧ (∀ v ∈ m.automaton.states, v ∉ other.states) ∧
      ∃ v ∈ m.automaton.states, (m.graph.node v).isAccepting = true
  | removeEpsilons | addTrap | reset => True
  | _ => False

variable {m : Machine}

/-- A tidy edit of a rooted automaton that was not handed over succeeds and leaves a rooted
automaton. The edits that are not tidy are excluded by what it is to be tidy, so they need no case
of their own. -/
theorem outcome_of_tidy (hr : m.automaton.Rooted m.graph [])
    (hd : m.automaton.discarded = false) {x : Alteration} (hx : x.Tidy m) :
    ∃ m', x.edit m = .ok () m' ∧ m'.automaton.Rooted m'.graph [] := by
  have hlive := Edit.live_eq_ok hd
  cases x with
  -- in each case the edit is not refused, and what it does to the machine was looked at before
  | connect e =>
    refine ⟨m.connect e, ?_, Machine.rooted_connect hr hx.1 hx.2⟩
    simp only [edit, Edit.connect, outcome_bind, hlive, outcome_modify]
  | disconnect e =>
    obtain ⟨m', gone, hcut, hr', _⟩ := Machine.rooted_disconnect (hr.of_nil _) hx.1 hx.2
    refine ⟨m', ?_, hr'⟩
    simp only [edit, Edit.disconnect, outcome_bind, outcome_bind_fun, hlive, hcut, outcome_pure]
  | collect v =>
    obtain ⟨m', gone, hcollect, hr', _⟩ := Machine.rooted_collect (v := v) (hr.of_nil _)
    refine ⟨m', ?_, hr'⟩
    simp only [edit, Edit.collect, outcome_bind, outcome_bind_fun, hlive, hcollect, outcome_pure]
  | absorb other target =>
    refine ⟨m.absorb other target, ?_, Machine.rooted_absorb hr hx.1 hx.2⟩
    simp only [edit, Edit.absorb, outcome_bind, hlive, outcome_modify]
  | append other =>
    obtain ⟨ho, hapart, v, hv, hacc⟩ := hx
    refine ⟨m.append other, ?_, Machine.rooted_append hr ho hapart hv hacc⟩
    simp only [edit, Edit.append, outcome_bind, hlive, outcome_modify]
  | removeEpsilons =>
    obtain ⟨m', hremove, hr', _⟩ := Machine.rooted_removeEpsilons hr
    refine ⟨m', ?_, hr'⟩
    simp only [edit, Edit.removeEpsilons, outcome_bind_fun, hlive, hremove]
  | addTrap =>
    refine ⟨m.addTrap.2, ?_, Machine.rooted_addTrap hr⟩
    simp only [edit, Edit.addTrap, outcome_bind, hlive, outcome_get, outcome_set, outcome_pure]
  | reset =>
    refine ⟨m.reset, ?_, Machine.rooted_reset hr⟩
    simp only [edit, Edit.reset, outcome_bind, hlive, outcome_modify]
  | moveStart => exact hx.elim
  | merge => exact hx.elim
  | markTraps => exact hx.elim
  | readSymbol => exact hx.elim

/-- Whatever a tidy edit of a rooted automaton leaves behind is rooted. An automaton that was handed
over refuses the edit, and then it is left as it was. -/
theorem rooted_leftBy (hr : m.automaton.Rooted m.graph []) {x : Alteration} (hx : x.Tidy m) :
    (leftBy (x.edit m)).automaton.Rooted (leftBy (x.edit m)).graph [] := by
  by_cases hd : m.automaton.discarded = true
  · obtain ⟨f, hf⟩ := edit_of_discarded hd x
    rw [hf]
    exact hr
  · obtain ⟨m', hm', hr'⟩ := outcome_of_tidy hr (by simpa using hd) hx
    rw [hm']
    exact hr'

end Alteration

namespace Machine

variable {m : Machine} {other target : Vertex}

/-- Merging a state away from an automaton that was not handed over succeeds: the merge leaves the
state as the one candidate, and collecting it is what follows. -/
theorem outcome_mergeAway (hr : m.automaton.Rooted m.graph [])
    (hd : m.automaton.discarded = false) (ho : other ∈ m.automaton.states)
    (ht : target ∈ m.automaton.states) :
    ∃ m', Edit.mergeAway other target m = .ok () m' ∧ m'.automaton.Rooted m'.graph [] := by
  obtain ⟨m₁, hmerge, hr₁, _, hdiscarded⟩ := rooted_merge hr ho ht
  obtain ⟨m₂, gone, hcollect, hr₂, _⟩ := rooted_collect hr₁
  refine ⟨m₂, ?_, hr₂⟩
  have hlive := Edit.live_eq_ok hd
  have hlive₁ := Edit.live_eq_ok (hdiscarded.trans hd)
  simp only [Edit.mergeAway, Edit.merge, Edit.collect, outcome_bind, outcome_bind_fun, hlive,
    hmerge, hlive₁, hcollect, outcome_pure]

/-- Whatever merging a state away leaves behind is rooted, be it done or refused. -/
theorem rooted_leftBy_mergeAway (hr : m.automaton.Rooted m.graph [])
    (ho : other ∈ m.automaton.states) (ht : target ∈ m.automaton.states) :
    (leftBy (Edit.mergeAway other target m)).automaton.Rooted
      (leftBy (Edit.mergeAway other target m)).graph [] := by
  by_cases hd : m.automaton.discarded = true
  · have hrefused : Edit.mergeAway other target m = .error (.spent .merge) m := by
      simp only [Edit.mergeAway, Edit.merge, outcome_bind, outcome_bind_fun,
        Edit.live_eq_error hd]
    rw [hrefused]
    exact hr
  · obtain ⟨m', hm', hr'⟩ := outcome_mergeAway hr (by simpa using hd) ho ht
    rw [hm']
    exact hr'

end Machine

/-! ## Runs of such edits -/

/-- A machine comes from another one by edits of its automaton that leave nothing behind, one
after the other, and by what happens in the graph outside that automaton in between. -/
inductive Tidies : Machine → Machine → Prop where
  | refl (m : Machine) : Tidies m m
  | edit {m m' : Machine} (run : Tidies m m') (x : Alteration) (tidy : x.Tidy m') :
      Tidies m (leftBy (x.edit m'))
  | mergeAway {m m' : Machine} (run : Tidies m m') {other target : Vertex}
      (other_mem : other ∈ m'.automaton.states) (target_mem : target ∈ m'.automaton.states) :
      Tidies m (leftBy (Edit.mergeAway other target m'))
  | elsewhere {m m' : Machine} (run : Tidies m m') (g : Graph)
      (untouched : ∀ v ∈ m'.automaton.states, g.node v = m'.graph.node v)
      (grown : m'.graph.size ≤ g.size) : Tidies m { m' with graph := g }

/-- An automaton that is rooted before a run is rooted after it. By induction on the run; what
happens in the graph outside the automaton touches none of its states. -/
theorem Tidies.rooted {m m' : Machine} (run : Tidies m m')
    (hr : m.automaton.Rooted m.graph []) : m'.automaton.Rooted m'.graph [] := by
  induction run with
  | refl => exact hr
  | edit _ x tidy ih => exact Alteration.rooted_leftBy ih tidy
  | mergeAway _ other_mem target_mem ih =>
    exact Machine.rooted_leftBy_mergeAway ih other_mem target_mem
  | elsewhere _ g untouched grown ih => exact ih.congr_nodes untouched grown

/-- After any run, the states of the automaton are exactly those that its start state reaches, if
this was so before and the automaton passed the check. -/
theorem Tidies.states_eq_reachable {m m' : Machine} (run : Tidies m m')
    (check : m.automaton.violation? m.graph = none) (closed : m.automaton.Closed m.graph)
    (placed : ∀ v ∈ m.automaton.states, v < m.graph.size)
    (reached : m.automaton.states = m.graph.reachable m.automaton.start) :
    m'.automaton.states = m'.graph.reachable m'.automaton.start :=
  (run.rooted (.of_check check closed placed reached)).states_eq

/-! ## A run -/

/-- The start state reads a symbol and moves to a spare state, is merged into that one, so that
the start moves along, and is collected. -/
def loneStartTidied : Machine :=
  leftBy (Edit.mergeAway 0 1
    (leftBy (Alteration.edit (.connect ⟨0, .symbol "a", 1⟩) loneStart)))

/-- The edits that were made are a run of tidy edits. -/
theorem tidies_loneStart : Tidies loneStart loneStartTidied := by
  have hspare : loneStart.graph.Spare 1 := fresh_loneStart.spare
  have hconnected : (0 : Vertex) ∈ (leftBy (Alteration.edit (.connect ⟨0, .symbol "a", 1⟩)
      loneStart)).automaton.states ∧ (1 : Vertex) ∈ (leftBy (Alteration.edit
        (.connect ⟨0, .symbol "a", 1⟩) loneStart)).automaton.states := by decide
  exact ((Tidies.refl loneStart).edit (.connect ⟨0, .symbol "a", 1⟩)
    ⟨by decide, Or.inr hspare⟩).mergeAway hconnected.1 hconnected.2

/-- After the run the automaton consists of what its start state reaches. -/
theorem states_loneStartTidied :
    loneStartTidied.automaton.states =
      loneStartTidied.graph.reachable loneStartTidied.automaton.start := by
  have hm := sound_loneStart
  refine tidies_loneStart.states_eq_reachable (Automaton.violation?_eq_none_iff.2 hm.wellFormed)
    hm.closed hm.placed ?_
  -- no edge leads on from the start state
  have hreach : ∀ v ∈ loneStart.graph.reachable 0, v = 0 := by
    apply Graph.forall_mem_reachable (p := (· = 0)) rfl
    intro v hv l w hw
    rw [hv] at hw
    exact absurd hw (OrdSet.not_mem_empty w)
  ext v
  constructor
  · intro hv
    rw [OrdSet.mem_singleton.1 hv]
    exact Graph.self_mem_reachable _ _
  · intro hv
    rw [hreach v hv]
    decide

end PatternAutomata
