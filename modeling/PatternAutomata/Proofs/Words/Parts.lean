/-
Automata that are put together from parts.

`Automaton.Recognizes` says that an automaton is sound, accepts the words of a language, and
wastes nothing: each of its states leads to acceptance, and each symbol of its alphabet occurs
in an accepted word. An option that can never be taken would break the latter, so it is only
promised under a condition that says there is none.

Each way of putting automata together has one statement: reading on in another automaton
(`recognizes_append`), offering one more option (`Choosing.offer`), and starting over
(`recognizes_loop`, or `recognizes_rounds` and then `recognizes_restart`).
-/
import PatternAutomata.Proofs.Structure.Joining
import PatternAutomata.Proofs.Words.Composing

set_option autoImplicit false

namespace PatternAutomata

open PatternAutomata.Graph Computability

namespace Automaton

/-- A sound automaton accepts the words of a language, and wastes nothing if it is made of
useful parts. It was not used before, and does not refuse symbols. -/
structure Recognizes (useful : Prop) (g : Graph) (a : Automaton) (L : Language Label) : Prop where
  sound : a.Sound g
  plain : a = { start := a.start, states := a.states, alphabet := a.alphabet }
  language_eq : a.language g = L
  alive : useful → ∀ v ∈ a.states, ∃ word, word ∈ g.languageFrom v
  occurs : useful → ∀ l ∈ a.alphabet, ∃ word ∈ L, l ∈ word

namespace Recognizes

variable {useful : Prop} {g h : Graph} {a : Automaton} {L : Language Label}

/-- The words accepted from a state do not depend on the graph outside the automaton, since no edge
of the automaton leaves it. -/
theorem languageFrom_congr (ha : a.Sound g) (node_eq : ∀ v ∈ a.states, h.node v = g.node v)
    {v : Vertex} (hv : v ∈ a.states) : h.languageFrom v = g.languageFrom v := by
  apply Graph.languageFrom_congr (P := (· ∈ a.states))
  · exact fun v hv l w hw => ha.target_mem hv hw
  · intro v hv l
    exact (SameTables.of_node_eq (node_eq v hv)).destinations_eq l
  · intro v hv
    rw [node_eq v hv]
  · exact hv

/-- What an automaton recognizes does not depend on the graph outside it. So a part that was built
stays as it is while other parts are built beside it. -/
theorem congr (ha : a.Recognizes useful g L) (node_eq : ∀ v ∈ a.states, h.node v = g.node v)
    (size_le : g.size ≤ h.size) : a.Recognizes useful h L where
  sound := ha.sound.congr_nodes node_eq size_le
  plain := ha.plain
  language_eq := (languageFrom_congr ha.sound node_eq ha.sound.start_mem).trans ha.language_eq
  alive hu v hv := by
    rw [languageFrom_congr ha.sound node_eq hv]
    exact ha.alive hu v hv
  occurs := ha.occurs

/-- There is a word if the parts are useful: the start state leads to acceptance like every other
state. -/
theorem exists_word (ha : a.Recognizes useful g L) (hu : useful) : ∃ word, word ∈ L := by
  rw [← ha.language_eq]
  exact ha.alive hu a.start ha.sound.start_mem

end Recognizes

end Automaton

namespace Machine

open Automaton

variable {useful : Prop} {m : Machine} {other : Automaton} {L M : Language Label}

/-! ## One symbol -/

/-- Connecting two states may add them to the states and their label to the alphabet. The rest of
the automaton stays. -/
theorem automaton_connect (e : Edge) : (m.connect e).automaton = { m.automaton with
    states := (m.connect e).automaton.states
    alphabet := (m.connect e).automaton.alphabet } := rfl

section Letter

variable {stop : Vertex} {l : Label}

/-- Both ends of the new edge had no edges before, so it is the only way out of either. -/
theorem mem_destinations_letter (hbare : m.graph.Unconnected m.automaton.start)
    (hstop : m.Fresh stop) {v w : Vertex} {k : Label} (hv : v = m.automaton.start ∨ v = stop) :
    w ∈ (m.connect ⟨m.automaton.start, l, stop⟩).graph.destinations v k ↔
      v = m.automaton.start ∧ k = l ∧ w = stop := by
  have hnone : m.graph.destinations v k = ∅ := by
    rcases hv with rfl | rfl
    · exact hbare.destinations_eq k
    · exact hstop.unconnected.destinations_eq k
  rw [graph_connect, mem_destinations_link, hnone, Edge.mk.injEq]
  exact or_iff_right (OrdSet.not_mem_empty w)

/-- The accepting end has no way on, so it accepts the empty word and nothing else. -/
theorem languageFrom_letter_stop (hbare : m.graph.Unconnected m.automaton.start)
    (hstop : m.Fresh stop) (hne : stop ≠ m.automaton.start)
    (hacc : (m.graph.node stop).isAccepting = true) :
    (m.connect ⟨m.automaton.start, l, stop⟩).graph.languageFrom stop = 1 := by
  rw [languageFrom_of_no_way, if_pos ((isAccepting_connect _ stop).trans hacc)]
  intro k
  ext w
  rw [mem_destinations_letter hbare hstop (Or.inr rfl)]
  exact iff_of_false (fun h => hne h.1) (OrdSet.not_mem_empty w)

/-- A start state that accepted nothing accepts what the new edge reads. -/
theorem languageFrom_letter_start (hbare : m.graph.Unconnected m.automaton.start)
    (hstop : m.Fresh stop) (hne : stop ≠ m.automaton.start)
    (hacc : (m.graph.node stop).isAccepting = true)
    (hlang : m.automaton.language m.graph = 0) :
    (m.connect ⟨m.automaton.start, l, stop⟩).graph.languageFrom m.automaton.start = {l.word} := by
  have hstart : (m.graph.node m.automaton.start).isAccepting = false := by
    -- a lone start state that accepts would accept the empty word
    by_contra h
    have hnil : [] ∈ m.automaton.language m.graph := nil_mem_languageFrom (by simpa using h)
    rw [hlang] at hnil
    exact Language.notMem_zero _ hnil
  apply languageFrom_of_one_way (w := stop) ?_ ((isAccepting_connect _ _).trans hstart)
    (languageFrom_letter_stop hbare hstop hne hacc)
  intro k u
  rw [mem_destinations_letter hbare hstop (Or.inl rfl)]
  exact and_iff_right rfl

/-- An edge from a lone start state to a fresh accepting one recognizes what it reads: the symbol of
its label, or the empty word if it is silent. Nothing is wasted, since both ends lead to acceptance
and the symbol of the alphabet is the one that is read. -/
theorem recognizes_letter (hm : m.automaton.Recognizes False m.graph 0)
    (hstates : ∀ v, v ∈ m.automaton.states ↔ v = m.automaton.start)
    (halphabet : m.automaton.alphabet = ∅) (hbare : m.graph.Unconnected m.automaton.start)
    (hstop : m.Fresh stop) (hacc : (m.graph.node stop).isAccepting = true) (l : Label) :
    (m.connect ⟨m.automaton.start, l, stop⟩).automaton.Recognizes useful
      (m.connect ⟨m.automaton.start, l, stop⟩).graph {l.word} := by
  have hsound := hm.sound
  have hne : stop ≠ m.automaton.start := fun h => hstop.not_mem (h ▸ hsound.start_mem)
  have hstart : (m.connect ⟨m.automaton.start, l, stop⟩).automaton.start = m.automaton.start := by
    rw [automaton_connect]
  -- what the two states accept says all of the fragment
  have hstoplang := languageFrom_letter_stop (l := l) hbare hstop hne hacc
  have hlang := languageFrom_letter_start (l := l) hbare hstop hne hacc hm.language_eq
  constructor
  · exact sound_connect hsound (Or.inl hsound.start_mem) (Or.inr hstop)
      fun h => absurd hsound.start_mem h.not_mem
  · rw [automaton_connect, hm.plain]
  · rw [Automaton.language, hstart]
    exact hlang
  · intro _ v hv
    rw [mem_states_connect, hstates, ← or_assoc, or_self] at hv
    rcases hv with rfl | rfl
    · rw [hlang]
      exact ⟨l.word, rfl⟩
    · rw [hstoplang]
      exact ⟨[], Language.nil_mem_one⟩
  · intro _ k hk
    rcases mem_alphabet_connect.1 hk with hk | ⟨hk, hkl⟩
    · rw [halphabet] at hk
      exact absurd hk (OrdSet.not_mem_empty k)
    · have hkl : l = k := hkl
      refine ⟨l.word, rfl, ?_⟩
      rw [hkl, Label.word_of_ne hk]
      exact List.mem_singleton.2 rfl

end Letter

/-! ## Reading on -/

section Reading

variable (hm : m.automaton.WellFormed m.graph) (ho : other.WellFormed m.graph)
  (hapart : m.automaton.Apart m.graph other)

include ho hapart in
/-- The states of the other automaton accept what they accepted, because the new edges lead there
and not back. -/
theorem languageFrom_append_other {v : Vertex} (hv : v ∈ other.states) :
    (m.append other).graph.languageFrom v = m.graph.languageFrom v :=
  languageFrom_series_second ho.target_mem hapart.not_mem
    (fun _ _ _ => mem_destinations_append) isAccepting_append hv

include hm ho hapart in
/-- The states of the automaton accept what they accepted, followed by what the other automaton
accepts: each state that accepted leads to the start state of the other one instead. -/
theorem languageFrom_append {v : Vertex} (hv : v ∈ m.automaton.states) :
    (m.append other).graph.languageFrom v =
      m.graph.languageFrom v * other.language m.graph :=
  languageFrom_series hm.target_mem ho.target_mem hapart.not_mem ho.start_mem
    (fun _ _ _ => mem_destinations_append) isAccepting_append hv

include hm ho hapart in
/-- So the automaton accepts the words of the first language followed by words of the second. -/
theorem language_append : (m.append other).automaton.language (m.append other).graph =
    m.automaton.language m.graph * other.language m.graph := by
  rw [Automaton.language, automaton_append ho.start_mem]
  exact languageFrom_append hm ho hapart hm.start_mem

end Reading

/-- Reading on in another automaton recognizes the words put together. If both parts are useful,
nothing is wasted: what leads to acceptance in the first part goes on with any word of the second,
and each symbol of either part stands in a word of that part. -/
theorem recognizes_append (hm : m.automaton.Recognizes useful m.graph L)
    (ho : other.Recognizes useful m.graph M) (hapart : m.automaton.Apart m.graph other) :
    (m.append other).automaton.Recognizes useful (m.append other).graph (L * M) := by
  have hautomaton := automaton_append (m := m) ho.sound.start_mem
  have hfirst : ∀ v ∈ m.automaton.states, (m.append other).graph.languageFrom v =
      m.graph.languageFrom v * M := by
    intro v hv
    rw [languageFrom_append hm.sound.wellFormed ho.sound.wellFormed hapart hv, ho.language_eq]
  constructor
  · exact sound_append hm.sound ho.sound hapart
  · rw [hautomaton, hm.plain]
  · rw [language_append hm.sound.wellFormed ho.sound.wellFormed hapart, hm.language_eq,
      ho.language_eq]
  · intro hu v hv
    rw [hautomaton] at hv
    rcases OrdSet.mem_union.1 hv with hv | hv
    · obtain ⟨x, hx⟩ := hm.alive hu v hv
      -- a word of the first part needs any word of the second to go on with
      obtain ⟨y, hy⟩ := ho.exists_word hu
      rw [hfirst v hv]
      exact ⟨x ++ y, Language.append_mem_mul hx hy⟩
    · rw [languageFrom_append_other ho.sound.wellFormed hapart hv]
      exact ho.alive hu v hv
  · intro hu l hl
    rw [hautomaton] at hl
    rcases OrdSet.mem_union.1 hl with hl | hl
    · obtain ⟨x, hx, hlx⟩ := hm.occurs hu l hl
      obtain ⟨y, hy⟩ := ho.exists_word hu
      exact ⟨x ++ y, Language.append_mem_mul hx hy, List.mem_append_left y hlx⟩
    · obtain ⟨x, hx⟩ := hm.exists_word hu
      obtain ⟨y, hy, hly⟩ := ho.occurs hu l hl
      exact ⟨x ++ y, Language.append_mem_mul hx hy, List.mem_append_right x hly⟩

/-! ## Offering options -/

/-- An automaton offers options: nothing leads back to its start state, and what it accepts
are the words of the options. -/
structure Choosing (useful : Prop) (m : Machine) (L : Language Label) : Prop where
  sound : m.automaton.Sound m.graph
  plain : m.automaton =
    { start := m.automaton.start, states := m.automaton.states, alphabet := m.automaton.alphabet }
  back : ∀ v ∈ m.automaton.states, ∀ l, m.automaton.start ∉ m.graph.destinations v l
  language_eq : m.automaton.language m.graph = L
  alive : useful → ∀ v ∈ m.automaton.states, v ≠ m.automaton.start →
    ∃ word, word ∈ m.graph.languageFrom v
  occurs : useful → ∀ l ∈ m.automaton.alphabet, ∃ word ∈ L, l ∈ word

/-- The machine with one more option. -/
def offer (m : Machine) (other : Automaton) : Machine :=
  (m.join other).connect ⟨m.automaton.start, .epsilon, other.start⟩

/-- The only new edge leads without reading from the start state to where the option starts. -/
theorem mem_destinations_offer {v w : Vertex} {l : Label} :
    w ∈ (m.offer other).graph.destinations v l ↔ w ∈ m.graph.destinations v l ∨
      v = m.automaton.start ∧ l = .epsilon ∧ w = other.start := by
  rw [offer, graph_connect, mem_destinations_link, (sameTables_join v).destinations_eq,
    Edge.mk.injEq]

/-- Offering an option changes no accepting state: where the option accepts, the choice does. -/
theorem isAccepting_offer (v : Vertex) :
    ((m.offer other).graph.node v).isAccepting = (m.graph.node v).isAccepting := by
  rw [offer, isAccepting_connect, isAccepting_join]

/-- Offering an option keeps all identifiers. -/
theorem id_offer (v : Vertex) :
    ((m.offer other).graph.node v).id = (m.graph.node v).id := by
  rw [offer, id_connect, id_join]

/-- Nothing outside the choice and the option is touched. -/
theorem node_offer_of_not_mem (hm : m.automaton.Sound m.graph) (ho : other.Sound m.graph)
    {v : Vertex} (hv : v ∉ m.automaton.states) (hvo : v ∉ other.states) :
    (m.offer other).graph.node v = m.graph.node v := by
  have hsource : v ≠ m.automaton.start := fun h => hv (h ▸ hm.start_mem)
  have htarget : v ≠ other.start := fun h => hvo (h ▸ ho.start_mem)
  rw [offer, node_connect_of_ne hsource htarget, node_join_of_ne htarget]

/-- No place is added to the graph. -/
theorem size_offer (hm : m.automaton.Sound m.graph) (ho : other.Sound m.graph) :
    (m.offer other).graph.size = m.graph.size := by
  rw [offer, graph_connect, size_link, size_join ho.framed,
    Nat.max_eq_left (hm.placed _ hm.start_mem), Nat.max_eq_left (ho.placed _ ho.start_mem)]

/-- Offering an option takes over states and alphabet and changes the automaton in no other
way. -/
theorem automaton_offer (hm : m.automaton.Sound m.graph) (ho : other.Sound m.graph) :
    (m.offer other).automaton = { m.automaton with
      states := m.automaton.states ∪ other.states
      alphabet := m.automaton.alphabet ∪ other.alphabet } := by
  have hconnect : m.offer other =
      (m.join other).connectAll [⟨m.automaton.start, .epsilon, other.start⟩] := rfl
  rw [hconnect, automaton_connectAll_silent]
  · rfl
  · intro e he
    rw [List.mem_singleton.1 he]
  · intro e he
    rw [List.mem_singleton.1 he]
    exact ⟨mem_states_join.2 (Or.inl hm.start_mem), mem_states_join.2 (Or.inr ho.start_mem)⟩

/-- Neither the choice nor an option that is apart from it leads back to the start state of the
choice. -/
theorem Choosing.back_union (hm : m.Choosing useful L) (ho : other.Sound m.graph)
    (hapart : m.automaton.Apart m.graph other) {v : Vertex}
    (hv : v ∈ m.automaton.states ∪ other.states) (l : Label) :
    m.automaton.start ∉ m.graph.destinations v l := by
  intro hmem
  rcases OrdSet.mem_union.1 hv with hv | hv
  · exact hm.back v hv l hmem
  · exact hapart.not_mem _ hm.sound.start_mem (ho.target_mem hv hmem)

/-- No edge leads out of two sound automata together. -/
theorem target_mem_union (hm : m.automaton.Sound m.graph) (ho : other.Sound m.graph)
    {v w : Vertex} {l : Label} (hv : v ∈ m.automaton.states ∪ other.states)
    (hw : w ∈ m.graph.destinations v l) : w ∈ m.automaton.states ∪ other.states := by
  rcases OrdSet.mem_union.1 hv with hv | hv
  · exact OrdSet.mem_union.2 (Or.inl (hm.target_mem hv hw))
  · exact OrdSet.mem_union.2 (Or.inr (ho.target_mem hv hw))

/-- One more option adds its words. Since nothing leads back to the start state of the choice, a
word that was accepted there still takes the same way, and a word that is new goes through the new
edge first. So every other state accepts what it accepted. -/
theorem Choosing.offer (hm : m.Choosing useful L) (ho : other.Recognizes useful m.graph M)
    (hapart : m.automaton.Apart m.graph other) : (m.offer other).Choosing useful (L + M) := by
  have hautomaton := automaton_offer hm.sound ho.sound
  have hmem : ∀ v, v ∈ (m.offer other).automaton.states ↔
      v ∈ m.automaton.states ∪ other.states := by
    intro v
    rw [hautomaton]
  have hstart : (m.offer other).automaton.start = m.automaton.start := by rw [hautomaton]
  have hne : other.start ≠ m.automaton.start := fun h =>
    hapart.not_mem _ hm.sound.start_mem (h ▸ ho.sound.start_mem)
  have hback := fun v hv => hm.back_union ho.sound hapart (v := v) hv
  have hclosed : ∀ v ∈ m.automaton.states ∪ other.states, ∀ l, ∀ w ∈ m.graph.destinations v l,
      w ∈ m.automaton.states ∪ other.states :=
    fun _ hv _ _ hw => target_mem_union hm.sound ho.sound hv hw
  constructor
  · exact (sound_join hm.sound ho.sound hapart).connect
      (mem_states_join.2 (Or.inl hm.sound.start_mem))
      (mem_states_join.2 (Or.inr ho.sound.start_mem))
  · rw [hautomaton, hm.plain]
  · intro v hv l hl
    rw [hstart] at hl
    rcases mem_destinations_offer.1 hl with hl | ⟨_, _, he⟩
    · exact hback v ((hmem v).1 hv) l hl
    · exact hne he.symm
  · rw [Automaton.language, hstart, ← hm.language_eq, ← ho.language_eq]
    exact languageFrom_choice hclosed hback (OrdSet.mem_union.2 (Or.inr ho.sound.start_mem)) hne
      (fun _ _ _ => mem_destinations_offer) isAccepting_offer
      (OrdSet.mem_union.2 (Or.inl hm.sound.start_mem))
  · intro hu v hv hvr
    rw [hstart] at hvr
    -- all states but the start state of the choice accept what they accepted
    rw [languageFrom_choice_of_ne hclosed hback (fun _ _ _ => mem_destinations_offer)
      isAccepting_offer ((hmem v).1 hv) hvr]
    rcases OrdSet.mem_union.1 ((hmem v).1 hv) with hv | hv
    · exact hm.alive hu v hv hvr
    · exact ho.alive hu v hv
  · intro hu l hl
    rw [hautomaton] at hl
    rcases OrdSet.mem_union.1 hl with hl | hl
    · obtain ⟨word, hword, hlw⟩ := hm.occurs hu l hl
      exact ⟨word, Or.inl hword, hlw⟩
    · obtain ⟨word, hword, hlw⟩ := ho.occurs hu l hl
      exact ⟨word, Or.inr hword, hlw⟩

/-- Once a word is offered, nothing is wasted: the start state leads to acceptance by that word, and
the other states do by themselves. -/
theorem Choosing.recognizes (hm : m.Choosing useful L) (hword : useful → ∃ word, word ∈ L) :
    m.automaton.Recognizes useful m.graph L where
  sound := hm.sound
  plain := hm.plain
  language_eq := hm.language_eq
  alive hu v hv := by
    by_cases hvr : v = m.automaton.start
    · rw [hvr, show m.graph.languageFrom m.automaton.start = L from hm.language_eq]
      exact hword hu
    · exact hm.alive hu v hv hvr
  occurs := hm.occurs

/-! ## Starting over -/

/-- The machine in which every accepting state leads back to the start. -/
def loop (m : Machine) : Machine := m.connectAll (m.bridges m.automaton)

/-- The edges of the loop lead from states of the automaton to its start state. -/
theorem ends_loop (hm : m.automaton.Sound m.graph) : ∀ e ∈ m.bridges m.automaton,
    e.source ∈ m.automaton.states ∧ e.target ∈ m.automaton.states := by
  rintro ⟨v, l, w⟩ he
  obtain ⟨⟨hv, _⟩, _, rfl⟩ := mem_bridges.1 he
  exact ⟨hv, hm.start_mem⟩

/-- The loop adds no state and no symbol: both ends of its edges are there, and its edges read
nothing. -/
theorem automaton_loop (hm : m.automaton.Sound m.graph) : m.loop.automaton = m.automaton := by
  apply automaton_connectAll_silent ?_ (ends_loop hm)
  rintro ⟨v, l, w⟩ he
  exact (mem_bridges.1 he).2.1

/-- The new edges lead without reading from the accepting states to the start state. -/
theorem mem_destinations_loop {v w : Vertex} {l : Label} :
    w ∈ m.loop.graph.destinations v l ↔ w ∈ m.graph.destinations v l ∨
      (v ∈ m.automaton.states ∧ (m.graph.node v).isAccepting = true) ∧
        l = .epsilon ∧ w = m.automaton.start := by
  rw [loop, graph_connectAll, mem_destinations_linkAll, mem_bridges]

/-- A loop changes the edges of a state only, and what is counted of them. -/
theorem shell_loop (v : Vertex) : (m.loop.graph.node v).shell = (m.graph.node v).shell := by
  rw [loop, graph_connectAll, shell_linkAll]

/-- No place is added to the graph. -/
theorem size_loop (hm : m.automaton.Sound m.graph) : m.loop.graph.size = m.graph.size := by
  rw [loop, graph_connectAll, size_linkAll]
  intro e he
  obtain ⟨hs, ht⟩ := ends_loop hm e he
  exact ⟨hm.placed _ hs, hm.placed _ ht⟩

/-- Nothing outside the automaton is touched. -/
theorem node_loop_of_not_mem (hm : m.automaton.Sound m.graph) {v : Vertex}
    (hv : v ∉ m.automaton.states) : m.loop.graph.node v = m.graph.node v := by
  rw [loop, graph_connectAll, node_linkAll_of_not_mem]
  intro e he
  obtain ⟨hs, ht⟩ := ends_loop hm e he
  constructor
  · rintro rfl
    exact hv hs
  · rintro rfl
    exact hv ht

/-- An automaton that loops is sound, because each edge of the loop is added between two states of
it. -/
theorem sound_loop (hm : m.automaton.Sound m.graph) : m.loop.automaton.Sound m.loop.graph :=
  hm.connectAll (ends_loop hm)

/-- All states accept what they accepted, followed by any number of rounds: each new edge begins one
more round. -/
theorem languageFrom_loop (hm : m.automaton.Sound m.graph) {v : Vertex}
    (hv : v ∈ m.automaton.states) :
    m.loop.graph.languageFrom v =
      m.graph.languageFrom v * (m.automaton.language m.graph)∗ :=
  Graph.languageFrom_loop (fun _ hv _ _ hw => hm.target_mem hv hw) hm.start_mem
    (fun _ _ _ => mem_destinations_loop) (fun v => isAccepting_eq_of_shell_eq (shell_loop v)) hv

/-- Flagging a state of the loop adds no edge. -/
theorem mem_destinations_loop_flagged {v w : Vertex} {l : Label} :
    w ∈ (m.loop.flagAccepting m.automaton.start true).graph.destinations v l ↔
      w ∈ m.graph.destinations v l ∨
        (v ∈ m.automaton.states ∧ (m.graph.node v).isAccepting = true) ∧
          l = .epsilon ∧ w = m.automaton.start := by
  rw [(sameTables_flagAccepting _ v true).destinations_eq, mem_destinations_loop]

/-- A loop whose start state was flagged accepts where it did, and at its start. -/
theorem isAccepting_loop_flagged (v : Vertex) :
    ((m.loop.flagAccepting m.automaton.start true).graph.node v).isAccepting =
      ((m.graph.node v).isAccepting || decide (v = m.automaton.start)) := by
  rw [isAccepting_flagAccepting, isAccepting_eq_of_shell_eq (shell_loop v)]
  by_cases hv : v = m.automaton.start
  · rw [if_pos hv, decide_eq_true hv, Bool.or_true]
  · rw [if_neg hv, decide_eq_false hv, Bool.or_false]

/-- If an automaton cannot come back to its start without accepting there, it recognizes any number
of rounds once it loops and its start state accepts. Without the condition a word could come back to
the start state halfway through a round and be accepted there. The condition is given as the test
that is made when a repetition is built: the start state accepts, or it has no edges that lead to
it. -/
theorem recognizes_loop (hm : m.automaton.Recognizes useful m.graph L)
    (hback : (m.graph.node m.automaton.start).isAccepting = true ∨
      (m.graph.node m.automaton.start).indegree ≤ 0) :
    (m.loop.flagAccepting m.automaton.start true).automaton.Recognizes useful
      (m.loop.flagAccepting m.automaton.start true).graph L∗ := by
  have hsound := hm.sound
  have hautomaton : (m.loop.flagAccepting m.automaton.start true).automaton = m.automaton :=
    automaton_loop hsound
  have hstart : (m.graph.node m.automaton.start).isAccepting = true ∨
      ∀ v ∈ m.automaton.states, ∀ l, m.automaton.start ∉ m.graph.destinations v l :=
    hback.imp_right fun hzero _ hv l hmem =>
      hsound.consistent.not_mem_origins_of_indegree hsound.start_mem hzero l
        ((hsound.consistent.mem_origins_iff hsound.start_mem).2 ⟨hv, hmem⟩)
  constructor
  · exact (sound_loop hsound).flagAccepting _ true
  · rw [hautomaton]
    exact hm.plain
  · rw [Automaton.language, hautomaton, ← hm.language_eq]
    exact languageFrom_loop_accepting (fun _ hv _ _ hw => hsound.target_mem hv hw)
      hsound.start_mem (fun _ _ _ => mem_destinations_loop_flagged) isAccepting_loop_flagged hstart
  · intro hu v hv
    rw [hautomaton] at hv
    obtain ⟨word, hword⟩ := hm.alive hu v hv
    -- edges and accepting states were only added, so the word is still accepted
    refine ⟨word, languageFrom_mono ?_ ?_ v hword⟩
    · intro v hv
      rw [isAccepting_loop_flagged, hv]
      rfl
    · exact fun v l w hw => mem_destinations_loop_flagged.2 (Or.inl hw)
  · intro hu l hl
    rw [hautomaton] at hl
    obtain ⟨word, hword, hlw⟩ := hm.occurs hu l hl
    exact ⟨word, le_kstar (a := L) hword, hlw⟩

/-- A looping machine that starts in a new state which accepts and leads to the former
start. -/
def restart (m : Machine) (new : Vertex) : Machine :=
  (m.connect ⟨new, .epsilon, m.automaton.start⟩).shiftStart m.automaton.start new

section Restarting

variable {new : Vertex}

/-- The only new edge leads without reading from the new start state to the former one. -/
theorem mem_destinations_restart {v w : Vertex} {l : Label} :
    w ∈ (m.restart new).graph.destinations v l ↔ w ∈ m.graph.destinations v l ∨
      v = new ∧ l = .epsilon ∧ w = m.automaton.start := by
  rw [restart, (sameTables_shiftStart _ _ v).destinations_eq, graph_connect,
    mem_destinations_link, Edge.mk.injEq]

/-- The former states accept where they did. -/
theorem isAccepting_restart (v : Vertex) :
    ((m.restart new).graph.node v).isAccepting = (m.graph.node v).isAccepting := by
  rw [restart, isAccepting_shiftStart, isAccepting_connect]

/-- Starting anew keeps all identifiers. -/
theorem id_restart (v : Vertex) :
    ((m.restart new).graph.node v).id = (m.graph.node v).id := by
  rw [restart, id_shiftStart, id_connect]

/-- Only the two start states are touched, the former and the new one. -/
theorem node_restart_of_ne {v : Vertex} (hs : v ≠ m.automaton.start) (hn : v ≠ new) :
    (m.restart new).graph.node v = m.graph.node v := by
  rw [restart, node_shiftStart_of_ne hs hn, node_connect_of_ne hn hs]

/-- No place is added to the graph. -/
theorem size_restart (hs : m.automaton.start < m.graph.size) (hn : new < m.graph.size) :
    (m.restart new).graph.size = m.graph.size := by
  have hconnect : (m.connect ⟨new, .epsilon, m.automaton.start⟩).graph.size = m.graph.size :=
    size_connect hn hs
  have hflag : ((m.connect ⟨new, .epsilon, m.automaton.start⟩).flagStart m.automaton.start
      false).graph.size = m.graph.size := by
    rw [size_flagStart false (by rw [hconnect]; exact hs), hconnect]
  rw [restart, graph_shiftStart, size_flagStart true (by rw [hflag]; exact hn), hflag]

/-- A new start state is one more state, and the edge from it to the former one adds nothing
else. -/
theorem automaton_restart (hs : m.automaton.start ∈ m.automaton.states) :
    (m.restart new).automaton = { m.automaton with
      start := new, states := m.automaton.states.insert new } := by
  have hstates : ((m.automaton.states.insert new).insert m.automaton.start).insert new =
      m.automaton.states.insert new := by
    ext v
    simp only [OrdSet.mem_insert]
    constructor
    · rintro (rfl | rfl | hv)
      · exact Or.inl rfl
      · exact Or.inr hs
      · exact hv
    · exact fun hv => Or.inr (Or.inr hv)
  show { m.automaton with
    start := new
    states := ((m.automaton.states.insert new).insert m.automaton.start).insert new } = _
  rw [hstates]

/-- Nothing leads to a fresh state, neither from the automaton nor from itself. -/
theorem Fresh.not_mem_destinations (hn : m.Fresh new) (hm : m.automaton.Sound m.graph)
    {v : Vertex} (hv : v ∈ m.automaton.states.insert new) (l : Label) :
    new ∉ m.graph.destinations v l := by
  intro hl
  rcases OrdSet.mem_insert.1 hv with rfl | hv
  · rw [hn.unconnected.destinations_eq] at hl
    exact OrdSet.not_mem_empty _ hl
  · exact hn.not_mem (hm.target_mem hv hl)

/-- No edge leads out of an automaton with a fresh state. -/
theorem Fresh.target_mem (hn : m.Fresh new) (hm : m.automaton.Sound m.graph) {v w : Vertex}
    {l : Label} (hv : v ∈ m.automaton.states.insert new) (hw : w ∈ m.graph.destinations v l) :
    w ∈ m.automaton.states.insert new :=
  (sound_takeIn hm hn).target_mem hv hw

/-- The former states accept what they accepted. -/
theorem languageFrom_restart (hm : m.automaton.Sound m.graph) (hn : m.Fresh new) {v : Vertex}
    (hv : v ∈ m.automaton.states) :
    (m.restart new).graph.languageFrom v = m.graph.languageFrom v := by
  apply languageFrom_choice_of_ne (fun _ hv _ _ hw => hn.target_mem hm hv hw)
    (fun _ hv l => hn.not_mem_destinations hm hv l) (fun _ _ _ => mem_destinations_restart)
    isAccepting_restart (OrdSet.mem_insert.2 (Or.inr hv))
  rintro rfl
  exact hn.not_mem hv

/-- The new state accepts what the former start did, and the empty word. It is a choice between
stopping at once and going on from there. -/
theorem languageFrom_restart_new (hm : m.automaton.Sound m.graph) (hn : m.Fresh new)
    (hacc : (m.graph.node new).isAccepting = true) :
    (m.restart new).graph.languageFrom new = 1 + m.automaton.language m.graph := by
  rw [languageFrom_choice (fun _ hv _ _ hw => hn.target_mem hm hv hw)
    (fun _ hv l => hn.not_mem_destinations hm hv l)
    (OrdSet.mem_insert.2 (Or.inr hm.start_mem)) (fun h => hn.not_mem (h ▸ hm.start_mem))
    (fun _ _ _ => mem_destinations_restart) isAccepting_restart
    (OrdSet.mem_insert.2 (Or.inl rfl)),
    languageFrom_of_no_way hn.unconnected.destinations_eq, if_pos hacc]
  rfl

/-- Starting in a new accepting state adds the empty word. Nothing leads back to the new state, so
all other states accept what they accepted. -/
theorem recognizes_restart (hm : m.automaton.Recognizes useful m.graph L) (hn : m.Fresh new)
    (hacc : (m.graph.node new).isAccepting = true) :
    (m.restart new).automaton.Recognizes useful (m.restart new).graph (1 + L) := by
  have hsound := hm.sound
  have hautomaton := @automaton_restart m new hsound.start_mem
  have hnew : (m.restart new).graph.languageFrom new = 1 + L := by
    rw [languageFrom_restart_new hsound hn hacc, hm.language_eq]
  constructor
  · have hconnected := sound_connect hsound (e := ⟨new, .epsilon, m.automaton.start⟩)
      (Or.inr hn) (Or.inl hsound.start_mem) fun _ h => absurd hsound.start_mem h.not_mem
    exact hconnected.shiftStart (mem_states_connect.2 (Or.inr (Or.inl rfl)))
  · rw [hautomaton, hm.plain]
  · rw [Automaton.language, hautomaton]
    exact hnew
  · intro hu v hv
    rw [hautomaton] at hv
    rcases OrdSet.mem_insert.1 hv with rfl | hv
    · rw [hnew]
      exact ⟨[], Or.inl Language.nil_mem_one⟩
    · rw [languageFrom_restart hsound hn hv]
      exact hm.alive hu v hv
  · intro hu l hl
    rw [hautomaton] at hl
    obtain ⟨word, hword, hlw⟩ := hm.occurs hu l hl
    exact ⟨word, Or.inr hword, hlw⟩

end Restarting

/-- An automaton that loops recognizes one round or more. It needs no condition, since no state that
did not accept accepts now. -/
theorem recognizes_rounds (hm : m.automaton.Recognizes useful m.graph L) :
    m.loop.automaton.Recognizes useful m.loop.graph (L * L∗) := by
  have hautomaton := automaton_loop hm.sound
  have hlang : ∀ v ∈ m.automaton.states, m.loop.graph.languageFrom v =
      m.graph.languageFrom v * L∗ := by
    intro v hv
    rw [languageFrom_loop hm.sound hv, hm.language_eq]
  -- what is read in one round needs no further one
  have hone : ∀ word, word ∈ L → word ∈ L * L∗ := by
    intro word hword
    rw [← List.append_nil word]
    exact Language.append_mem_mul hword (Language.nil_mem_kstar L)
  constructor
  · exact sound_loop hm.sound
  · rw [hautomaton]
    exact hm.plain
  · rw [Automaton.language, hautomaton, hlang _ hm.sound.start_mem, ← hm.language_eq]
    rfl
  · intro hu v hv
    rw [hautomaton] at hv
    obtain ⟨word, hword⟩ := hm.alive hu v hv
    rw [hlang v hv]
    exact ⟨word ++ [], Language.append_mem_mul hword (Language.nil_mem_kstar L)⟩
  · intro hu l hl
    rw [hautomaton] at hl
    obtain ⟨word, hword, hlw⟩ := hm.occurs hu l hl
    exact ⟨word, hone word hword, hlw⟩

end Machine

end PatternAutomata
