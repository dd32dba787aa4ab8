/-
Completing an automaton with a trap.

An automaton is complete if each of its states has a way on for each symbol of its alphabet. Where
a way is missing, completing leads to a trap. The trap lies in a place that was free before, from
which nothing is accepted, and its own edges lead back to it. So the new edges do not change what is
accepted from any place (`Machine.languageFrom_addTrap`).

In a complete deterministic automaton every word over the alphabet leads to one state, so two
states that accept the same words have the same runs. Minimizing leaves no two states with the
same runs, and any other complete deterministic automaton for the language has to tell its states
apart (`Automaton.size_le_card`).
-/
import Mathlib.Computability.DFA
import Mathlib.Data.Fintype.Card
import PatternAutomata.Proofs.Canonical.Idempotence
import PatternAutomata.Proofs.Structure.Stranded
import PatternAutomata.Proofs.Words.Composing

set_option autoImplicit false

namespace PatternAutomata

open PatternAutomata.Graph

/-! ## Complete automata -/

namespace Automaton

variable {g : Graph} {a : Automaton}

/-- Each state has a way on for each symbol of the alphabet. -/
def Complete (g : Graph) (a : Automaton) : Prop :=
  ∀ v ∈ a.states, ∀ l ∈ a.alphabet, ∃ w, w ∈ g.destinations v l

/-- In a complete automaton every word over the alphabet leads on. By induction on the word. -/
theorem Complete.exists_path (hc : a.Complete g) (ha : a.SelfContained g) {word : List Label}
    (hword : ∀ l ∈ word, l ∈ a.alphabet) {v : Vertex} (hv : v ∈ a.states) :
    ∃ w, Path g v word w := by
  induction word generalizing v with
  | nil => exact ⟨v, .stay v⟩
  | cons l word ih =>
    rw [List.forall_mem_cons] at hword
    obtain ⟨u, hu⟩ := hc v hv l hword.1
    obtain ⟨w, hw⟩ := ih hword.2 (ha.target_mem v hv l u hu)
    have hl : l ≠ .epsilon := fun heq => ha.epsilon_not_mem (heq ▸ hword.1)
    exact ⟨w, .read hl hu hw⟩

/-- In a complete deterministic automaton, states that accept the same words have the same runs: a
word leads on from both, and to acceptance from both or from neither. Without completeness a word
could lead nowhere from one of them, and to a state that accepts nothing from the other one. -/
theorem Complete.sameRuns (hc : a.Complete g) (ha : a.Sound g) (hd : g.Deterministic a.states)
    {v w : Vertex} (hv : v ∈ a.states) (hw : w ∈ a.states)
    (h : g.languageFrom v = g.languageFrom w) : g.SameRuns v w := by
  have hrun : ∀ {p q : Vertex}, p ∈ a.states → q ∈ a.states → ∀ {word : List Label},
      (∃ u, Path g p word u) → ∃ u, Path g q word u := by
    rintro p q hp hq word ⟨u, hu⟩
    exact hc.exists_path ha.selfContained (ha.mem_alphabet_of_path hd hp hu) hq
  have haccept : ∀ {p u : Vertex} {word : List Label}, p ∈ a.states → Path g p word u →
      (word ∈ g.languageFrom p ↔ (g.node u).isAccepting = true) := by
    intro p u word hp hu
    constructor
    · rintro ⟨x, hx, hacc⟩
      rwa [ha.path_unique hd hp hu hx]
    · exact fun hacc => ⟨u, hu, hacc⟩
  intro word
  refine ⟨⟨hrun hv hw, hrun hw hv⟩, ?_⟩
  intro u x hu hx
  rw [Bool.eq_iff_iff, ← haccept hv hu, ← haccept hw hx, h]

/-- If no two states have the same runs and each is reached, then every complete deterministic
automaton for the language has at least as many states: where it ends up after a word that leads to
a state tells which state that is. -/
theorem size_le_card (ha : a.Sound g) (hd : g.Deterministic a.states) (hc : a.Complete g)
    (hreach : ∀ v ∈ a.states, v ∈ g.reachable a.start)
    (hreduced : ∀ v ∈ a.states, ∀ w ∈ a.states, g.SameRuns v w → v = w) {A : Alphabet}
    (hA : a.alphabet = A) {σ : Type} [Fintype σ] (M : DFA { l // l ∈ A } σ)
    (hM : ∀ word, word ∈ M.accepts ↔ word.map Subtype.val ∈ a.language g) :
    a.states.size ≤ Fintype.card σ := by
  subst hA
  have hspell : ∀ {v w : Vertex} {word : List Label}, v ∈ a.states → Path g v word w →
      ∃ letters : List { l // l ∈ a.alphabet }, letters.map Subtype.val = word :=
    fun hv hpath => ⟨_, List.attachWith_map_subtype_val (ha.mem_alphabet_of_path hd hv hpath)⟩
  have hword : ∀ v ∈ a.states, ∃ letters : List { l // l ∈ a.alphabet },
      Path g a.start (letters.map Subtype.val) v := by
    intro v hv
    obtain ⟨word, hpath⟩ := mem_reachable_iff.1 (hreach v hv)
    obtain ⟨letters, rfl⟩ := hspell ha.start_mem hpath
    exact ⟨letters, hpath⟩
  -- one word for each state, and the state of the other automaton where that word ends up
  choose! letters hpath using hword
  -- what such a word may be followed by is the same in both automata
  have hrest : ∀ v ∈ a.states, ∀ rest : List { l // l ∈ a.alphabet },
      rest.map Subtype.val ∈ g.languageFrom v ↔
        M.evalFrom (M.eval (letters v)) rest ∈ M.accept := by
    intro v hv rest
    rw [ha.languageFrom_eq hd ha.start_mem (hpath v hv), Language.mem_leftQuotient,
      ← List.map_append, DFA.eval, ← DFA.evalFrom_of_append]
    exact (hM _).symm
  have hsub : ∀ v ∈ a.states, ∀ w ∈ a.states, M.eval (letters v) = M.eval (letters w) →
      g.languageFrom v ≤ g.languageFrom w := by
    rintro v hv w hw heq word ⟨u, hu, hacc⟩
    obtain ⟨rest, rfl⟩ := hspell hv hu
    have hend := (hrest v hv rest).1 ⟨u, hu, hacc⟩
    rw [heq] at hend
    exact (hrest w hw rest).2 hend
  -- different states have different words, or they would accept the same and so have the same runs
  have hnodup : (a.states.toList.map fun v => M.eval (letters v)).Nodup := by
    refine a.states.nodup_toList.map_on fun v hv w hw heq => ?_
    have hlanguage := le_antisymm (hsub v hv w hw heq) (hsub w hw v hv heq.symm)
    exact hreduced v hv w hw (hc.sameRuns ha hd hv hw hlanguage)
  have hcard := hnodup.length_le_card
  rwa [List.length_map] at hcard

end Automaton

/-! ## Adding a trap -/

namespace Machine

variable {m : Machine}

/-- A state without empty entries has a way on for each symbol that has an entry. The check makes
sure that there are no empty entries. -/
theorem contains_iff (hm : m.automaton.WellFormed m.graph) {v : Vertex}
    (hv : v ∈ m.automaton.states) {l : Label} :
    (m.graph.node v).next.contains l = true ↔ ∃ w, w ∈ m.graph.destinations v l := by
  constructor
  · intro hentry
    rw [OrdMap.contains, Option.isSome_iff_exists] at hentry
    obtain ⟨vs, hget⟩ := hentry
    have hne : vs ≠ ∅ := fun heq => hm.next_ne_empty v hv l (heq ▸ hget)
    have hunder : m.graph.destinations v l = vs := by
      rw [destinations, Table.under, hget, Option.getD_some]
    rw [hunder]
    exact not_forall_not.1 fun hnone => hne (OrdSet.eq_empty_iff.2 hnone)
  · rintro ⟨w, hw⟩
    exact Table.contains_of_mem_under hw

/-- What is missing are the ways that a complete automaton would have. -/
theorem mem_missingSteps_iff (hm : m.automaton.WellFormed m.graph) {v : Vertex} {l : Label} :
    (v, l) ∈ m.missingSteps ↔ v ∈ m.automaton.states ∧ l ∈ m.automaton.alphabet ∧
      ¬∃ w, w ∈ m.graph.destinations v l := by
  rw [mem_missingSteps, ← and_assoc, ← and_assoc, and_congr_right_iff]
  rintro ⟨hv, _⟩
  rw [← contains_iff hm hv, Bool.not_eq_true]

/-- Nothing is missing exactly if the automaton is complete. -/
theorem missingSteps_eq_nil_iff (hm : m.automaton.WellFormed m.graph) :
    m.missingSteps = [] ↔ m.automaton.Complete m.graph := by
  constructor
  · intro hnil v hv l hl
    by_contra hnone
    have hmem := (mem_missingSteps_iff hm).2 ⟨hv, hl, hnone⟩
    rw [hnil] at hmem
    exact List.not_mem_nil hmem
  · intro hc
    rw [List.eq_nil_iff_forall_not_mem]
    rintro ⟨v, l⟩ hmem
    obtain ⟨hv, hl, hnone⟩ := (mem_missingSteps_iff hm).1 hmem
    exact hnone (hc v hv l hl)

/-- A new edge leads to the trap, either from where a way was missing, or from the trap itself by
any symbol. -/
theorem mem_trapEdges {v w : Vertex} {l : Label} {trap : Vertex} :
    ⟨v, l, w⟩ ∈ m.trapEdges trap ↔
      w = trap ∧ ((v, l) ∈ m.missingSteps ∨ v = trap ∧ l ∈ m.automaton.alphabet) := by
  rw [trapEdges, List.mem_append, List.mem_map, List.mem_map]
  constructor
  · rintro (⟨⟨u, k⟩, hmem, heq⟩ | ⟨k, hk, heq⟩)
    · obtain ⟨rfl, rfl, rfl⟩ := Edge.mk.inj heq
      exact ⟨rfl, Or.inl hmem⟩
    · obtain ⟨rfl, rfl, rfl⟩ := Edge.mk.inj heq
      exact ⟨rfl, Or.inr ⟨rfl, hk⟩⟩
  · rintro ⟨rfl, hmem | ⟨rfl, hl⟩⟩
    · exact Or.inl ⟨(v, l), hmem, rfl⟩
    · exact Or.inr ⟨l, hl, rfl⟩

section Trap

variable (hmissing : m.missingSteps ≠ [])
include hmissing

/-- The trap is one more state, and all sources of new edges are states already. -/
theorem mem_states_addTrap {v : Vertex} :
    v ∈ m.addTrap.2.automaton.states ↔ v = m.graph.size ∨ v ∈ m.automaton.states := by
  rw [addTrap_takeIn hmissing, states_connectAll ends_trapEdges, mem_states_takeIn]
  rfl

/-- No state starts or stops accepting. The trap does not accept. -/
theorem isAccepting_addTrap (v : Vertex) :
    (m.addTrap.2.graph.node v).isAccepting = (m.graph.node v).isAccepting := by
  have hgrown : (m.withTrap.graph.node v).isAccepting = (m.graph.node v).isAccepting := by
    by_cases hv : v = m.graph.size
    · rw [hv, node_trap, node_eq_blank (Nat.le_refl _)]
      rfl
    · rw [withTrap, node_add_of_ne hv]
  rw [addTrap_takeIn hmissing, graph_connectAll, graph_takeIn, ← hgrown]
  exact isAccepting_eq_of_shell_eq (shell_linkAll ..)

omit hmissing in
/-- Nothing is accepted from a free place. -/
theorem languageFrom_size : m.graph.languageFrom m.graph.size = 0 := by
  rw [languageFrom_of_no_way (destinations_eq_empty (Nat.le_refl _)),
    node_eq_blank (Nat.le_refl _)]
  rfl

/-- A trap lies in a place that was free, so edges to it lead to no acceptance that was not there
before. For each state the languages before the change are closed under the new edges as well, since
the trap accepts nothing. -/
theorem languageFrom_addTrap (v : Vertex) :
    m.addTrap.2.graph.languageFrom v = m.graph.languageFrom v := by
  apply le_antisymm
  -- the old languages satisfy the equations of the new graph, whose languages are the least that do
  · apply languageFrom_le_family (F := m.graph.languageFrom) (P := fun _ => True)
    · exact fun _ _ _ _ _ => trivial
    · intro v _ hacc
      rw [isAccepting_addTrap hmissing] at hacc
      exact nil_mem_languageFrom hacc
    · intro v _ l w hw word hword
      rcases (mem_destinations_addTrap hmissing).1 hw with hw | hw
      · exact append_mem_languageFrom (.single hw) hword
      · rw [(mem_trapEdges.1 hw).1, languageFrom_size] at hword
        exact absurd hword (Language.notMem_zero word)
    · trivial
  · apply languageFrom_mono
    · intro v hacc
      rwa [isAccepting_addTrap hmissing]
    · exact fun v l w hw => (mem_destinations_addTrap hmissing).2 (Or.inl hw)

/-- The start state stays. -/
theorem start_addTrap : m.addTrap.2.automaton.start = m.automaton.start := by
  rw [addTrap_takeIn hmissing, start_connectAll, start_takeIn, withTrap]

/-- The automaton is as usable as before. -/
theorem discarded_addTrap : m.addTrap.2.automaton.discarded = m.automaton.discarded := by
  rw [addTrap_takeIn hmissing, discarded_connectAll]
  rfl

/-- So the automaton accepts the same words. -/
theorem language_addTrap : m.addTrap.2.automaton.language m.addTrap.2.graph =
    m.automaton.language m.graph := by
  rw [Automaton.language, start_addTrap hmissing, languageFrom_addTrap hmissing, Automaton.language]

/-- The new edges read symbols that were in the alphabet. -/
theorem alphabet_addTrap : m.addTrap.2.automaton.alphabet = m.automaton.alphabet := by
  ext l
  rw [addTrap_takeIn hmissing, mem_alphabet_connectAll]
  constructor
  · rintro (hl | ⟨_, ⟨v, k, w⟩, he, rfl⟩)
    · exact hl
    · rcases (mem_trapEdges.1 he).2 with hmem | ⟨_, hk⟩
      · exact (mem_missingSteps.1 hmem).2.1
      · exact hk
  · exact fun hl => Or.inl hl

/-- Then each state has a way on: one that it had, or one to the trap. -/
theorem complete_addTrap (hm : m.automaton.WellFormed m.graph) :
    m.addTrap.2.automaton.Complete m.addTrap.2.graph := by
  intro v hv l hl
  rw [alphabet_addTrap hmissing] at hl
  have hnew : (v, l) ∈ m.missingSteps ∨ v = m.graph.size →
      m.graph.size ∈ m.addTrap.2.graph.destinations v l := by
    intro h
    refine (mem_destinations_addTrap hmissing).2 (Or.inr (mem_trapEdges.2 ⟨rfl, ?_⟩))
    exact h.imp_right fun hv => ⟨hv, hl⟩
  rcases (mem_states_addTrap hmissing).1 hv with rfl | hv
  · exact ⟨_, hnew (Or.inr rfl)⟩
  · by_cases hsome : ∃ w, w ∈ m.graph.destinations v l
    · obtain ⟨w, hw⟩ := hsome
      exact ⟨w, (mem_destinations_addTrap hmissing).2 (Or.inl hw)⟩
    · exact ⟨_, hnew (Or.inl ((mem_missingSteps_iff hm).2 ⟨hv, hl, hsome⟩))⟩

/-- A way to the trap stands alone, since there was none before. So no state gets two ways by one
symbol, and none of the new edges is silent. -/
theorem deterministic_addTrap (hm : m.automaton.Labelled m.graph)
    (hd : m.graph.Deterministic m.automaton.states) :
    m.addTrap.2.graph.Deterministic m.addTrap.2.automaton.states := by
  have hold : ∀ {v w : Vertex} {l : Label}, v ∈ m.addTrap.2.automaton.states →
      w ∈ m.graph.destinations v l → v ∈ m.automaton.states := by
    intro v w l hv hw
    rcases (mem_states_addTrap hmissing).1 hv with rfl | hv
    · rw [destinations_eq_empty (Nat.le_refl _)] at hw
      exact absurd hw (OrdSet.not_mem_empty w)
    · exact hv
  -- a new edge stands where there was no way before, so it meets no old edge
  have hnew : ∀ {v w : Vertex} {l : Label}, ⟨v, l, w⟩ ∈ m.trapEdges m.graph.size →
      l ∈ m.automaton.alphabet ∧ ¬∃ u, u ∈ m.graph.destinations v l := by
    intro v w l he
    rcases (mem_trapEdges.1 he).2 with hmem | ⟨rfl, hl⟩
    · exact ((mem_missingSteps_iff hm.wellFormed).1 hmem).2
    · refine ⟨hl, ?_⟩
      rw [destinations_eq_empty (Nat.le_refl _)]
      rintro ⟨u, hu⟩
      exact OrdSet.not_mem_empty u hu
  constructor
  · intro v hv
    rw [OrdSet.eq_empty_iff]
    intro w hw
    rcases (mem_destinations_addTrap hmissing).1 hw with hw | hw
    · exact hd.ne_epsilon (hold hv hw) hw rfl
    · exact hm.epsilon_not_mem (hnew hw).1
  · intro v hv l w hw u hu
    rcases (mem_destinations_addTrap hmissing).1 hw with hw | hw
    · rcases (mem_destinations_addTrap hmissing).1 hu with hu | hu
      · exact hd.unique v (hold hv hw) l w hw u hu
      · exact absurd ⟨w, hw⟩ (hnew hu).2
    · rcases (mem_destinations_addTrap hmissing).1 hu with hu | hu
      · exact absurd ⟨u, hu⟩ (hnew hw).2
      · rw [(mem_trapEdges.1 hw).1, (mem_trapEdges.1 hu).1]

/-- The trap is reached from where a way was missing. It has to be missing somewhere, or there is no
trap. -/
theorem reachable_addTrap
    (hreach : ∀ v ∈ m.automaton.states, v ∈ m.graph.reachable m.automaton.start) :
    ∀ v ∈ m.addTrap.2.automaton.states,
      v ∈ m.addTrap.2.graph.reachable m.addTrap.2.automaton.start := by
  have hold : ∀ v ∈ m.automaton.states,
      v ∈ m.addTrap.2.graph.reachable m.addTrap.2.automaton.start := by
    intro v hv
    rw [start_addTrap hmissing]
    exact reachable_mono (fun u l w hw => (mem_destinations_addTrap hmissing).2 (Or.inl hw))
      (hreach v hv)
  intro v hv
  rcases (mem_states_addTrap hmissing).1 hv with rfl | hv
  · obtain ⟨⟨u, l⟩, hmem⟩ := List.exists_mem_of_ne_nil _ hmissing
    exact mem_reachable_of_mem_destinations (hold u (mem_missingSteps.1 hmem).1)
      ((mem_destinations_addTrap hmissing).2 (Or.inr (mem_trapEdges.2 ⟨rfl, Or.inl hmem⟩)))
  · exact hold v hv

end Trap

end Machine

/-! ## Minimizing a complete automaton -/

namespace MadeOfBlocks

variable {g h : Graph} {a d : Automaton} {blocks : List VertexSet}

/-- A block has the ways on of its members. -/
theorem complete (hd : MadeOfBlocks g a blocks h d) (ha : a.Labelled g)
    (halphabet : d.alphabet = a.alphabet) (hc : a.Complete g) : d.Complete h := by
  intro v hv l hl
  rw [halphabet] at hl
  obtain ⟨i, hi, rfl⟩ := hd.exists_number hv
  obtain ⟨x, hx⟩ := hd.blocking.inhabited _ (List.getElem_mem hi)
  have hx_mem := hd.mem_states_old hi hx
  obtain ⟨w, hw⟩ := hc x hx_mem l hl
  obtain ⟨j, hj, hwj⟩ := (hd.blocking.cover w).1 (ha.target_mem hx_mem hw)
  exact ⟨g.size + j, (hd.mem_destinations i hi j hj l).2 ⟨x, hx, w, hwj, hw⟩⟩

/-- A block is reached where a member is. -/
theorem reachable (hd : MadeOfBlocks g a blocks h d) (ha : a.Labelled g)
    (hreach : ∀ v ∈ a.states, v ∈ g.reachable a.start) :
    ∀ v ∈ d.states, v ∈ h.reachable d.start := by
  intro v hv
  obtain ⟨j, hj, rfl⟩ := hd.exists_number hv
  obtain ⟨x, hx⟩ := hd.blocking.inhabited _ (List.getElem_mem hj)
  obtain ⟨word, hpath⟩ := mem_reachable_iff.1 (hreach x (hd.mem_states_old hj hx))
  obtain ⟨i, hi, hstart, heq⟩ := hd.start_eq
  obtain ⟨k, hk, hxk, hpath'⟩ := hd.path_of_path ha hpath hi hstart
  obtain rfl := hd.blocking.unique k hk j hj x hxk hx
  rw [heq]
  exact mem_reachable_iff.2 ⟨word, hpath'⟩

end MadeOfBlocks

/-- A complete deterministic automaton over an alphabet accepts a language, and no such automaton
has fewer states, of whatever kind these are. -/
structure Automaton.Smallest (A : Alphabet) (L : Language Label) (g : Graph) (a : Automaton) :
    Prop where
  isDeterministic : a.isDeterministic g = true
  complete : a.Complete g
  alphabet_eq : a.alphabet = A
  language_eq : a.language g = L
  size_le_card : ∀ {σ : Type} [Fintype σ] (M : DFA { l // l ∈ A } σ),
    (∀ word, word ∈ M.accepts ↔ word.map Subtype.val ∈ L) → a.states.size ≤ Fintype.card σ

/-- Minimizing makes the smallest of the complete automata for a language from one whose states are
all reached. What is made is complete and reached as well, and no two of its states have the same
runs, which is all that `Automaton.size_le_card` asks for. -/
theorem Edit.minimize_smallest {m : Machine} (hm : m.automaton.Labelled m.graph)
    (hd : m.graph.Deterministic m.automaton.states) (hlive : m.automaton.discarded = false)
    (hc : m.automaton.Complete m.graph)
    (hreach : ∀ v ∈ m.automaton.states, v ∈ m.graph.reachable m.automaton.start) :
    ∃ d n, Edit.minimize m = .ok d n ∧
      Automaton.Smallest m.automaton.alphabet (m.automaton.language m.graph) n.graph d := by
  obtain ⟨d, n, hrun, hmade, _, halphabet, _⟩ := minimize_spec hm hd hlive
  have hcomplete := hmade.complete hm halphabet hc
  have hlanguage := hmade.language_eq hm
  refine ⟨d, n, hrun, hmade.sound.isDeterministic hmade.deterministic, hcomplete, halphabet,
    hlanguage, ?_⟩
  intro σ _ M hM
  rw [← hlanguage] at hM
  exact Automaton.size_le_card hmade.sound hmade.deterministic hcomplete
    (hmade.reachable hm hreach) (hmade.eq_of_sameRuns hm hd) halphabet M hM

/-! ## The edit -/

/-- A machine was completed, with a trap if one was needed. -/
structure Machine.Completes (m : Machine) (trap : Option Vertex) (m' : Machine) : Prop where
  complete : m'.automaton.Complete m'.graph
  mem_states_iff : ∀ v, v ∈ m'.automaton.states ↔ v ∈ m.automaton.states ∨ trap = some v
  trap_not_mem : ∀ v, trap = some v → v ∉ m.automaton.states
  start_eq : m'.automaton.start = m.automaton.start
  alphabet_eq : m'.automaton.alphabet = m.automaton.alphabet
  languageFrom_eq : ∀ v ∈ m.automaton.states,
    m'.graph.languageFrom v = m.graph.languageFrom v
  languageFrom_trap : ∀ v, trap = some v → m'.graph.languageFrom v = 0
  violation?_eq : m'.automaton.violation? m'.graph = none
  isDeterministic : m.automaton.isDeterministic m.graph = true →
    m'.automaton.isDeterministic m'.graph = true
  again : Edit.addTrap m' = .ok none m'
  none_iff : trap = none ↔ m.automaton.Complete m.graph
  eq_self : trap = none → m' = m

namespace Edit

/-- Completing succeeds as long as the automaton was not discarded. -/
theorem addTrap_eq_ok {m : Machine} (hlive : m.automaton.discarded = false) :
    Edit.addTrap m = .ok m.addTrap.1 m.addTrap.2 := by
  simp only [addTrap, outcome_bind, live_eq_ok hlive, outcome_get, outcome_set, outcome_pure]

/-- A complete automaton is left as it is. -/
theorem addTrap_of_complete {m : Machine} (hm : m.automaton.WellFormed m.graph)
    (hlive : m.automaton.discarded = false) (hc : m.automaton.Complete m.graph) :
    Edit.addTrap m = .ok none m := by
  rw [addTrap_eq_ok hlive, Machine.addTrap_eq, if_pos ((Machine.missingSteps_eq_nil_iff hm).2 hc)]

/-- A complete automaton counts as completed without a trap. -/
theorem completes_self {m : Machine} (hm : m.automaton.WellFormed m.graph)
    (hlive : m.automaton.discarded = false) (hc : m.automaton.Complete m.graph) :
    m.Completes none m where
  complete := hc
  mem_states_iff := fun v => by simp
  trap_not_mem := by simp
  start_eq := rfl
  alphabet_eq := rfl
  languageFrom_eq := fun v _ => rfl
  languageFrom_trap := by simp
  violation?_eq := Automaton.violation?_eq_none_iff.2 hm
  isDeterministic := id
  again := addTrap_of_complete hm hlive hc
  none_iff := iff_of_true rfl hc
  eq_self := fun _ => rfl

/-- An automaton in which some way is missing is completed by the trap. The second call finds
nothing missing, and so changes nothing. -/
theorem completes_addTrap {m : Machine} (hmissing : m.missingSteps ≠ [])
    (hm : m.automaton.Labelled m.graph) (hplaced : ∀ v ∈ m.automaton.states, v < m.graph.size)
    (hlive : m.automaton.discarded = false) :
    m.Completes (some m.graph.size) m.addTrap.2 := by
  have hwf := (Machine.labelled_addTrap hm hplaced).wellFormed
  have hcomplete := Machine.complete_addTrap hmissing hm.wellFormed
  constructor
  · exact hcomplete
  · intro v
    rw [Machine.mem_states_addTrap hmissing, or_comm, Option.some_inj, eq_comm]
  · rintro v heq hv
    rw [← Option.some.inj heq] at hv
    exact Nat.lt_irrefl _ (hplaced _ hv)
  · exact Machine.start_addTrap hmissing
  · exact Machine.alphabet_addTrap hmissing
  · exact fun v _ => Machine.languageFrom_addTrap hmissing v
  · intro v heq
    rw [← Option.some.inj heq, Machine.languageFrom_addTrap hmissing, Machine.languageFrom_size]
  · exact Automaton.violation?_eq_none_iff.2 hwf
  · intro hdet
    have hd := hm.wellFormed.isDeterministic_iff.1 hdet
    exact hwf.isDeterministic_iff.2 (Machine.deterministic_addTrap hmissing hm hd)
  · exact addTrap_of_complete hwf ((Machine.discarded_addTrap hmissing).trans hlive) hcomplete
  · refine iff_of_false (Option.some_ne_none _) ?_
    exact fun hc => hmissing ((Machine.missingSteps_eq_nil_iff hm.wellFormed).2 hc)
  · exact fun heq => absurd heq (Option.some_ne_none _)

/-- Completing adds a trap where a way is missing, and nothing otherwise. Each state has a way on
for each symbol then, and the same words are accepted from it as before. Of a deterministic
automaton whose states are all reached, minimizing makes the smallest complete one after that. -/
theorem addTrap_completes {m : Machine} (hcheck : m.automaton.violation? m.graph = none)
    (hlabel : ∀ v ∈ m.automaton.states, ∀ l, ∀ w ∈ m.graph.destinations v l, l ≠ .epsilon →
      l ∈ m.automaton.alphabet)
    (hepsilon : .epsilon ∉ m.automaton.alphabet)
    (hplaced : ∀ v ∈ m.automaton.states, v < m.graph.size)
    (hlive : m.automaton.discarded = false) :
    ∃ trap m', Edit.addTrap m = .ok trap m' ∧ m.Completes trap m' ∧
      (m.automaton.isDeterministic m.graph = true →
        (∀ v ∈ m.automaton.states, v ∈ m.graph.reachable m.automaton.start) →
          ∃ d n, Edit.minimize m' = .ok d n ∧
            Automaton.Smallest m.automaton.alphabet (m.automaton.language m.graph) n.graph d) := by
  have hwf := Automaton.violation?_eq_none_iff.1 hcheck
  have hm : m.automaton.Labelled m.graph := ⟨hwf, hlabel, hepsilon⟩
  by_cases hmissing : m.missingSteps = []
  · have hc := (Machine.missingSteps_eq_nil_iff hwf).1 hmissing
    refine ⟨none, m, addTrap_of_complete hwf hlive hc, completes_self hwf hlive hc, ?_⟩
    exact fun hdet hreach => minimize_smallest hm (hwf.isDeterministic_iff.1 hdet) hlive hc hreach
  · refine ⟨some m.graph.size, m.addTrap.2, ?_, completes_addTrap hmissing hm hplaced hlive, ?_⟩
    · rw [addTrap_eq_ok hlive, Machine.addTrap_eq, if_neg hmissing]
    · intro hdet hreach
      have hd := Machine.deterministic_addTrap hmissing hm (hwf.isDeterministic_iff.1 hdet)
      rw [← Machine.language_addTrap hmissing, ← Machine.alphabet_addTrap hmissing]
      exact minimize_smallest (Machine.labelled_addTrap hm hplaced) hd
        ((Machine.discarded_addTrap hmissing).trans hlive) (Machine.complete_addTrap hmissing hwf)
        (Machine.reachable_addTrap hmissing hreach)

end Edit

/-- Two steps in a row, each of which lacks the symbol of the other one. -/
def twoSteps : Machine :=
  threeBare.connectAll [⟨0, .symbol "a", 1⟩, ⟨1, .symbol "b", 2⟩]

/-- The three states make up a sound automaton. -/
theorem sound_twoSteps : twoSteps.automaton.Sound twoSteps.graph :=
  sound_threeBare.connectAll (by decide)

/-- All three states lack a symbol, and so all lead to the trap. -/
theorem Edit.addTrap_completes_twoSteps :
    twoSteps.automaton.violation? twoSteps.graph = none ∧
      twoSteps.automaton.isDeterministic twoSteps.graph = true ∧
        (∀ v ∈ twoSteps.automaton.states, v ∈ twoSteps.graph.reachable twoSteps.automaton.start) ∧
          ∃ trap m', Edit.addTrap twoSteps = .ok trap m' ∧ twoSteps.Completes trap m' ∧
            ∃ d n, Edit.minimize m' = .ok d n ∧ Automaton.Smallest twoSteps.automaton.alphabet
              (twoSteps.automaton.language twoSteps.graph) n.graph d := by
  have hcheck := Automaton.violation?_eq_none_iff.2 sound_twoSteps.wellFormed
  have hdet : twoSteps.automaton.isDeterministic twoSteps.graph = true := by decide
  have hreach : ∀ v ∈ twoSteps.automaton.states,
      v ∈ twoSteps.graph.reachable twoSteps.automaton.start := by
    have hfirst := twoSteps.graph.self_mem_reachable 0
    have hsecond := mem_reachable_of_mem_destinations (w := 1) (l := .symbol "a") hfirst (by decide)
    have hthird := mem_reachable_of_mem_destinations (w := 2) (l := .symbol "b") hsecond (by decide)
    have hstates : twoSteps.automaton.states = .ofList [0, 1, 2] := by decide
    intro v hv
    rw [hstates, OrdSet.mem_ofList] at hv
    rcases List.mem_cons.1 hv with rfl | hv
    · exact hfirst
    · rcases List.mem_cons.1 hv with rfl | hv
      · exact hsecond
      · rw [List.mem_singleton.1 hv]
        exact hthird
  obtain ⟨trap, m', hrun, hcompletes, hsmallest⟩ := Edit.addTrap_completes hcheck
    sound_twoSteps.label_mem sound_twoSteps.epsilon_not_mem sound_twoSteps.placed rfl
  exact ⟨hcheck, hdet, hreach, trap, m', hrun, hcompletes, hsmallest hdet hreach⟩

end PatternAutomata
