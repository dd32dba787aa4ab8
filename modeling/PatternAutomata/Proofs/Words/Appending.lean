/-
Appending is concatenation.

An automaton of a workspace that passes the check may be joined from outside: states of other
automata may lead into it. Its states that accept may lead on, and its start state may be one of
them or be come back to. None of this matters when another such automaton is appended: a run leaves
the first automaton once, from a state where it accepted, and cannot come back. So the words that
are accepted afterwards are those of the one followed by those of the other
(`Workspace.append_concatenates`).

What the two automata must not share are states and identifiers.
-/
import PatternAutomata.Proofs.Structure.Ownership
import PatternAutomata.Proofs.Words.Parts
import PatternAutomata.Proofs.Words.Tracking

set_option autoImplicit false

namespace PatternAutomata

open PatternAutomata.Graph Machine

namespace Workspace

variable {w : Workspace} {h k : Handle}

/-- An automaton of a workspace is intact: its states were not handed over, it passes the check, and
its alphabet has the symbols of its edges and nothing that reads nothing. -/
structure Intact (w : Workspace) (h : Handle) : Prop where
  lt : h < w.automata.size
  live : (w.automaton h).discarded = false
  check : (w.automaton h).violation? w.graph = none
  label_mem : ∀ v ∈ (w.automaton h).states, ∀ l, ∀ u ∈ w.graph.destinations v l,
    l ≠ .epsilon → l ∈ (w.automaton h).alphabet
  epsilon_not_mem : .epsilon ∉ (w.automaton h).alphabet

/-- The words that an automaton of a workspace is found to accept. -/
def Accepts (w : Workspace) (h : Handle) (word : List Label) : Prop :=
  ∃ m, Edit.accepts word (w.machine h) = .ok true m

namespace Intact

/-- The part of being intact that reading asks for. -/
theorem labelled (hh : w.Intact h) : (w.automaton h).Labelled w.graph :=
  ⟨Automaton.violation?_eq_none_iff.1 hh.check, hh.label_mem, hh.epsilon_not_mem⟩

/-- For an automaton that is intact, to be found to accept a word is to have it in the language. -/
theorem accepts_iff (hh : w.Intact h) (word : List Label) :
    w.Accepts h word ↔ word ∈ (w.automaton h).language w.graph :=
  Edit.exists_accepts_iff (m := w.machine h) hh.labelled hh.live word

/-- An automaton that was not handed over is not handed over by growing. -/
theorem discarded_append (hh : w.Intact h) (hk : w.Intact k) :
    ((w.machine h).append (w.automaton k)).automaton.discarded = false := by
  rw [automaton_append (m := w.machine h) hk.labelled.start_mem]
  exact hh.live

/-- The automaton that grows stays intact, whether its states accept, whether its start is come back
to, and whatever leads into it from outside. -/
theorem appended (hh : w.Intact h) (hk : w.Intact k) (hne : h ≠ k)
    (hapart : (w.automaton h).Apart w.graph (w.automaton k)) : (w.appended h k).Intact h := by
  have hlabelled : ((w.appended h k).automaton h).Labelled (w.appended h k).graph := by
    rw [automaton_appended_self hh.lt hne]
    exact labelled_append (m := w.machine h) hh.labelled hk.labelled hapart
  refine ⟨by rw [size_appended]; exact hh.lt, ?_, ?_, hlabelled.label_mem,
    hlabelled.epsilon_not_mem⟩
  · rw [automaton_appended_self hh.lt hne]
    exact hh.discarded_append hk
  · exact Automaton.violation?_eq_none_iff.2 hlabelled.wellFormed

/-- A word is accepted afterwards if it is put together of a word of each automaton. Since the two
have no states in common, this is `languageFrom_series` with the two sets of states. -/
theorem accepts_appended_iff (hh : w.Intact h) (hk : w.Intact k) (hne : h ≠ k)
    (hapart : (w.automaton h).Apart w.graph (w.automaton k)) (word : List Label) :
    (w.appended h k).Accepts h word ↔
      ∃ x y, word = x ++ y ∧ w.Accepts h x ∧ w.Accepts k y := by
  have hlanguage := language_append (m := w.machine h) hh.labelled.wellFormed
    hk.labelled.wellFormed hapart
  rw [(hh.appended hk hne hapart).accepts_iff, automaton_appended_self hh.lt hne, graph_appended,
    hlanguage, Language.mem_mul]
  simp only [hh.accepts_iff, hk.accepts_iff]
  constructor
  · rintro ⟨x, hx, y, hy, rfl⟩
    exact ⟨x, y, rfl, hx, hy⟩
  · rintro ⟨x, y, rfl, hx, hy⟩
    exact ⟨x, hx, y, hy, rfl⟩

end Intact

/-- Of two automata that are intact and apart, one can be appended to the other. What is accepted
then are the words of the one followed by words of the other, in the states where the appended
automaton accepted. The automaton that grew passes the check, and the other one is left without
states. -/
theorem append_concatenates (hh : w.Intact h) (hk : w.Intact k) (hne : h ≠ k)
    (hapart : (w.automaton h).Apart w.graph (w.automaton k)) :
    ∃ w', Work.append h k w = .ok () w' ∧
      (∀ word, w'.Accepts h word ↔ ∃ x y, word = x ++ y ∧ w.Accepts h x ∧ w.Accepts k y) ∧
      (w'.automaton h).accepting w'.graph = (w.automaton k).accepting w.graph ∧
      (w'.automaton h).violation? w'.graph = none ∧
      (w'.automaton k).discarded = true ∧ (w'.automaton k).states = ∅ := by
  have hlive : ¬(w.automaton h).discarded = true := by simp [hh.live]
  refine ⟨w.appended h k, by rw [append_eq, if_neg hlive, if_neg hne],
    hh.accepts_appended_iff hk hne hapart, ?_, (hh.appended hk hne hapart).check, ?_⟩
  · rw [automaton_appended_self hh.lt hne, graph_appended]
    exact accepting_append (m := w.machine h) hk.labelled.start_mem hapart.not_mem
  · rw [automaton_appended_other hk.lt hne]
    exact ⟨rfl, rfl⟩

/-- Two automata of one state each, which starts, accepts and leads to itself. A third state leads
into the first one without being counted there. -/
def twoLoops : Workspace where
  graph := ⟨#[
    { id := 0, isStart := true, isAccepting := true, indegree := 1,
      next := .ofList [(.symbol "a", {0})],
      previous := .ofList [(.symbol "a", {0}), (.symbol "b", {2})] },
    { id := 1, isStart := true, isAccepting := true, indegree := 1,
      next := .ofList [(.symbol "b", {1})],
      previous := .ofList [(.symbol "b", {1})] },
    { id := 2, next := .ofList [(.symbol "b", {0})] }]⟩
  automata := #[{ start := 0, states := {0}, alphabet := {.symbol "a"} },
    { start := 1, states := {1}, alphabet := {.symbol "b"} }]

/-- Each of the two automata is intact: the check counts no edge from outside. -/
theorem intact_twoLoops (hh : h < 2) : twoLoops.Intact h := by
  -- there are few edges, and the tables list them
  have hedges : ∀ v ∈ (twoLoops.automaton h).states.toList, ∀ e ∈ twoLoops.graph.outEdges v,
      e.1 ∈ (twoLoops.automaton h).alphabet := by
    match h, hh with
    | 0, _ | 1, _ => decide +kernel
  refine ⟨hh, ?_, ?_, ?_, ?_⟩
  · match h, hh with
    | 0, _ | 1, _ => rfl
  · match h, hh with
    | 0, _ | 1, _ => decide +kernel
  · exact fun v hv l u hu _ => hedges v hv (l, u) (mem_outEdges.2 hu)
  · match h, hh with
    | 0, _ | 1, _ => decide

/-- Rounds of the first automaton come before those of the second one, which accepts for both. -/
theorem append_concatenates_twoLoops : twoLoops.Intact 0 ∧ twoLoops.Intact 1 ∧
    (twoLoops.automaton 0).Apart twoLoops.graph (twoLoops.automaton 1) ∧
    ∃ w', Work.append 0 1 twoLoops = .ok () w' ∧
      w'.Accepts 0 [.symbol "a", .symbol "a", .symbol "b"] ∧
      ¬w'.Accepts 0 [.symbol "b", .symbol "a"] ∧
      (w'.automaton 0).accepting w'.graph = {1} ∧
      (w'.automaton 0).violation? w'.graph = none ∧
      (w'.automaton 1).discarded = true ∧ (w'.automaton 1).states = ∅ := by
  have hfirst : twoLoops.Intact 0 := intact_twoLoops (by decide)
  have hsecond : twoLoops.Intact 1 := intact_twoLoops (by decide)
  have hapart : (twoLoops.automaton 0).Apart twoLoops.graph (twoLoops.automaton 1) :=
    ⟨by decide +kernel, by decide +kernel⟩
  obtain ⟨w', happend, haccepts, haccepting, hcheck, hother⟩ :=
    append_concatenates hfirst hsecond (by decide) hapart
  refine ⟨hfirst, hsecond, hapart, w', happend, ?_, ?_, ?_, hcheck, hother⟩
  · refine (haccepts _).2 ⟨[.symbol "a", .symbol "a"], [.symbol "b"], rfl, ?_, ?_⟩
    · exact (hfirst.accepts_iff _).2
        ⟨0, .read (by decide) (by decide : 0 ∈ _)
          (.read (by decide) (by decide : 0 ∈ _) (.stay 0)), rfl⟩
    · exact (hsecond.accepts_iff _).2 ⟨1, .read (by decide) (by decide : 1 ∈ _) (.stay 1), rfl⟩
  · -- the first symbol cannot be read by the one automaton, nor the second one by the other
    rw [haccepts]
    rintro ⟨x, y, heq, hx, hy⟩
    have hxs := hfirst.labelled.mem_alphabet ((hfirst.accepts_iff x).1 hx)
    have hys := hsecond.labelled.mem_alphabet ((hsecond.accepts_iff y).1 hy)
    cases x with
    | nil =>
      rw [List.nil_append] at heq
      exact absurd (hys (.symbol "a") (heq ▸ by decide)) (by decide)
    | cons l x =>
      obtain ⟨rfl, -⟩ := List.cons.inj heq
      exact absurd (hxs (.symbol "b") List.mem_cons_self) (by decide)
  · rw [haccepting]
    decide +kernel

end Workspace

end PatternAutomata
