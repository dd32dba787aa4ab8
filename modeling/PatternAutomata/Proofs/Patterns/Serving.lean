/-
What holds of an automaton of a pattern, and goes on to hold.

An automaton serves a pattern if it is sound, accepts the words of the pattern, and has no
state and no symbol that is not needed for one of them (`Serves`). Each construction on the
way from a tree to the smallest automaton makes a serving automaton of a serving one.

An automaton stays what it is while other automata are made beside it and while it reads:
its states are as they were, and reading does not lead out of them (`Stays`). What is said
here of an automaton holds for as long as it stays.
-/
import PatternAutomata.Proofs.Canonical.Determinizing
import PatternAutomata.Proofs.Canonical.Uniqueness
import PatternAutomata.Proofs.Words.Acceptance
import PatternAutomata.Proofs.Words.Fragments
import PatternAutomata.Proofs.Words.SilentEdges

set_option autoImplicit false

namespace PatternAutomata

open PatternAutomata.Graph

/-! ## Staying -/

namespace Automaton

variable {g h k : Graph} {a b c : Automaton} {strict : Bool} {L : Language Label}

/-- The states of an automaton are as they were, and it differs at most in how far it has read. Its
graph may have got more states, which are none of its own. -/
structure Stays (g : Graph) (a : Automaton) (h : Graph) (b : Automaton) : Prop where
  size_le : g.size ≤ h.size
  node_eq : ∀ v ∈ a.states, h.node v = g.node v
  automaton_eq : b = { a with run := b.run }
  current_mem : ∀ v ∈ b.run.current, v ∈ a.states

namespace Stays

/-- It has the same start state. -/
theorem start_eq (hab : a.Stays g h b) : b.start = a.start := by rw [hab.automaton_eq]

/-- It has the same states. -/
theorem states_eq (hab : a.Stays g h b) : b.states = a.states := by rw [hab.automaton_eq]

/-- It is still sound: the states that it has read up to are among its own. -/
theorem sound (hab : a.Stays g h b) (ha : a.Sound g) : b.Sound h := by
  rw [hab.automaton_eq]
  exact (ha.congr_nodes hab.node_eq hab.size_le).withRun hab.current_mem

/-- Its states have the edges that they had. -/
theorem destinations_eq (hab : a.Stays g h b) {v : Vertex} (hv : v ∈ a.states) (l : Label) :
    h.destinations v l = g.destinations v l :=
  (SameTables.of_node_eq (hab.node_eq v hv)).destinations_eq l

/-- Its states accept what they accepted. -/
theorem languageFrom_eq (hab : a.Stays g h b) (ha : a.Sound g) {v : Vertex}
    (hv : v ∈ a.states) : h.languageFrom v = g.languageFrom v :=
  Recognizes.languageFrom_congr ha hab.node_eq hv

/-- The same words lead from its states to the same states. A path cannot leave the automaton, so it
only passes states that are as they were. -/
theorem path_iff (hab : a.Stays g h b) (ha : a.Sound g) {v w : Vertex} {word : List Label}
    (hv : v ∈ a.states) : Path h v word w ↔ Path g v word w := by
  -- an edge from one of the states leads to one of them
  have hclosed : ∀ u, u ∈ a.states → ∀ l, ∀ x ∈ g.destinations u l, x ∈ a.states :=
    fun u hu l x hx => ha.target_mem hu hx
  constructor
  · apply Path.congr (P := (· ∈ a.states))
    · intro u hu l x hx
      rw [hab.destinations_eq hu] at hx
      exact hclosed u hu l x hx
    · exact fun u hu l => (hab.destinations_eq hu l).symm
    · exact hv
  · exact Path.congr hclosed (fun u hu l => hab.destinations_eq hu l) hv

/-- It is deterministic if it was. -/
theorem deterministic (hab : a.Stays g h b) (hd : g.Deterministic a.states) :
    h.Deterministic b.states := by
  rw [hab.states_eq]
  exact hd.congr (fun _ hv => hv) fun _ hv l => hab.destinations_eq hv l

/-- If none of its states was noted as a trap, none is. -/
theorem isTrap_eq (hab : a.Stays g h b) (htrap : ∀ v ∈ a.states, (g.node v).isTrap = false) :
    ∀ v ∈ b.states, (h.node v).isTrap = false := by
  intro v hv
  rw [hab.states_eq] at hv
  rw [hab.node_eq v hv]
  exact htrap v hv

/-- If its states could all be left for an accepting one, they still can. -/
theorem alive (hab : a.Stays g h b) (ha : a.Sound g)
    (halive : ∀ v ∈ a.states, ∃ word, word ∈ g.languageFrom v) :
    ∀ v ∈ b.states, ∃ word, word ∈ h.languageFrom v := by
  intro v hv
  rw [hab.states_eq] at hv
  rw [hab.languageFrom_eq ha hv]
  exact halive v hv

/-- Its states are numbered by the same words. -/
theorem numbered (hab : a.Stays g h b) (ha : a.Sound g) {first : Nat}
    {words : List (List Label)} (hn : a.Numbered g first words) : b.Numbered h first words where
  start_eq := hab.start_eq.trans hn.start_eq
  mem_states v := by
    rw [hab.states_eq]
    exact hn.mem_states v
  id_eq i hi := by
    rw [hab.node_eq _ (hn.mem_number hi)]
    exact hn.id_eq i hi
  ascending := hn.ascending
  path i hi := by
    rw [hab.path_iff ha (hn.start_eq ▸ ha.start_mem)]
    exact hn.path i hi
  least i hi word hpath := by
    rw [hab.path_iff ha (hn.start_eq ▸ ha.start_mem)] at hpath
    exact hn.least i hi word hpath

/-- It is canonical if it was, with the same numbers and words. Each condition is one on its states,
its edges, or what its states accept. -/
theorem canonical (hab : a.Stays g h b) {first : Nat} {words : List (List Label)}
    (ha : a.Canonical g first words) : b.Canonical h first words where
  sound := hab.sound ha.sound
  deterministic := hab.deterministic ha.deterministic
  numbered := hab.numbered ha.sound ha.numbered
  alive := hab.alive ha.sound ha.alive
  reduced v hv w hw := by
    rw [hab.states_eq] at hv hw
    rw [hab.languageFrom_eq ha.sound hv, hab.languageFrom_eq ha.sound hw]
    exact ha.reduced v hv w hw
  isTrap_eq := hab.isTrap_eq ha.isTrap_eq

end Stays

/-! ## Serving -/

/-- An automaton that accepts the words of a language and has no state and no symbol that is
not needed for one of them. -/
structure Serves (g : Graph) (a : Automaton) (strict : Bool) (L : Language Label) : Prop where
  sound : a.Sound g
  live : a.discarded = false
  strict_eq : a.strict = strict
  language_eq : a.language g = L
  alive : ∀ v ∈ a.states, ∃ word, word ∈ g.languageFrom v
  occurs : ∀ l ∈ a.alphabet, ∃ word ∈ L, l ∈ word

/-- An automaton that serves goes on to serve for as long as it stays. -/
theorem Stays.serves (hab : a.Stays g h b) (ha : a.Serves g strict L) : b.Serves h strict L where
  sound := hab.sound ha.sound
  live := by
    rw [hab.automaton_eq]
    exact ha.live
  strict_eq := by
    rw [hab.automaton_eq]
    exact ha.strict_eq
  language_eq := by
    rw [language, hab.start_eq, hab.languageFrom_eq ha.sound ha.sound.start_mem]
    exact ha.language_eq
  alive := hab.alive ha.sound ha.alive
  occurs l hl := by
    rw [hab.automaton_eq] at hl
    exact ha.occurs l hl

namespace Serves

/-- The alphabet is made of the symbols in the words. A sound automaton has every symbol on its
edges in its alphabet, and one that serves has no other symbols there. -/
theorem mem_alphabet_iff (ha : a.Serves g strict L) {l : Label} :
    l ∈ a.alphabet ↔ ∃ word ∈ L, l ∈ word := by
  constructor
  · exact ha.occurs l
  · rintro ⟨word, hword, hl⟩
    rw [← ha.language_eq] at hword
    exact ha.sound.labelled.mem_alphabet hword l hl

/-- Automata that serve for the same words have the same alphabet. -/
theorem alphabet_eq {strict' : Bool} (ha : a.Serves g strict L) (hb : b.Serves h strict' L) :
    a.alphabet = b.alphabet := by
  apply OrdSet.ext
  intro l
  rw [ha.mem_alphabet_iff, hb.mem_alphabet_iff]

/-- A fragment that was built of useful parts serves, whatever it is to do about symbols that it
does not know. It stands at the beginning, where nothing has been read. -/
theorem ofRecognizes (ha : a.Recognizes True g L) (strict : Bool) :
    { a with run := .begin g (g.closure {a.start}), strict }.Serves g strict L where
  sound := by
    have hrun := ha.sound.begun
    exact hrun.congr rfl rfl rfl hrun.current_mem (fun v _ => .refl g v) (fun _ _ => rfl)
      (fun _ _ => rfl) (Nat.le_refl _)
  live := by rw [ha.plain]
  strict_eq := rfl
  language_eq := ha.language_eq
  alive := ha.alive trivial
  occurs := ha.occurs trivial

/-- Work inside an automaton that keeps what its states accept keeps it serving. States may be
dropped on the way, for those that are left accept what they did. -/
theorem keepsWords {m m' : Machine} (hm : m.automaton.Serves m.graph strict L)
    (h : m.KeepsWords m') : m'.automaton.Serves m'.graph strict L where
  sound := h.sound
  live := h.discarded_eq.trans hm.live
  strict_eq := h.strict_eq.trans hm.strict_eq
  language_eq := h.language_eq.trans hm.language_eq
  alive v hv := by
    rw [h.languageFrom_eq v hv]
    exact hm.alive v (h.states_sub v hv)
  occurs l hl := hm.occurs l (h.alphabet_eq ▸ hl)

/-- So does the subset construction. It takes symbols from the alphabet, and no set that it reaches
is without a state from which a word is accepted. -/
theorem madeOfSets {items : List (List Label × VertexSet)} {d : Automaton}
    (ha : a.Serves g strict L) (hd : MadeOfSets g a items h d) (halphabet : d.alphabet = a.alphabet)
    (hstrict : d.strict = a.strict) (hlive : d.discarded = false) : d.Serves h strict L where
  sound := hd.sound
  live := hlive
  strict_eq := hstrict.trans ha.strict_eq
  language_eq := (hd.language_eq ha.sound).trans ha.language_eq
  alive := hd.alive ha.sound ha.alive
  occurs l hl := ha.occurs l (halphabet ▸ hl)

/-- So does merging states that accept the same words: each block accepts what its states did. -/
theorem madeOfBlocks {blocks : List VertexSet} {d : Automaton} (ha : a.Serves g strict L)
    (hd : MadeOfBlocks g a blocks h d) (halphabet : d.alphabet = a.alphabet)
    (hstrict : d.strict = a.strict) (hlive : d.discarded = false) : d.Serves h strict L where
  sound := hd.sound
  live := hlive
  strict_eq := hstrict.trans ha.strict_eq
  language_eq := (hd.language_eq ha.sound.labelled).trans ha.language_eq
  alive := hd.alive ha.sound.labelled ha.alive
  occurs l hl := ha.occurs l (halphabet ▸ hl)

end Serves

end Automaton

end PatternAutomata
