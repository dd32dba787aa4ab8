/-
Reading keeps track of the runs.

After a word over the alphabet the current states are the ends of the paths from the start state
that spell it. A word with a symbol outside the alphabet is split where the first such symbol
stands. A strict automaton reads what comes before, names the symbol and stays as it is then. An
automaton that is not strict reads all of the word, but from that symbol on it is nowhere, whatever
follows (`Edit.read_tracks`).

So a word is found to be accepted exactly if it belongs to the language, in strict automata and in
others (`Edit.exists_accepts_iff`).
-/
import PatternAutomata.Proofs.Words.Visits

set_option autoImplicit false

namespace PatternAutomata

open PatternAutomata.Graph

namespace Machine

variable {m : Machine} {word : List Label}

/-- From the beginning as many symbols are counted as were read. -/
theorem position_advanceAll_reset (m : Machine) (word : List Label) :
    (m.reset.advanceAll word).automaton.run.position = word.length := by
  have hposition := (noted_advanceAll_take (m := m) word (Nat.le_refl word.length)).1
  rwa [List.take_length] at hposition

/-- A word over the alphabet leads to the ends of the paths that spell it. The start states are
closed under silent edges when a run begins, and so is each set of states that a symbol leads to. -/
theorem mem_current_iff_path (hepsilon : .epsilon ∉ m.automaton.alphabet)
    (hword : ∀ l ∈ word, l ∈ m.automaton.alphabet) (v : Vertex) :
    v ∈ (m.reset.advanceAll word).automaton.run.current ↔
      Path m.graph m.automaton.start word v := by
  rw [current_advanceAll_reset hword]
  exact mem_ends_singleton_iff fun hmem => hepsilon (hword _ hmem)

/-- Whether the word is accepted is seen at the ends of the paths that spell it: one of them
accepts. -/
theorem isAccepting_iff_path (hepsilon : .epsilon ∉ m.automaton.alphabet)
    (hword : ∀ l ∈ word, l ∈ m.automaton.alphabet) :
    (m.reset.advanceAll word).isAccepting = true ↔
      ∃ v, Path m.graph m.automaton.start word v ∧ (m.graph.node v).isAccepting = true := by
  have hgraph : (m.reset.advanceAll word).graph = m.graph := graph_advanceAll word
  rw [isAccepting, anyAccepting_iff, hgraph]
  simp only [mem_current_iff_path hepsilon hword]

end Machine

namespace Edit

open Machine

variable {m : Machine} {before rest : List Label} {l : Label}

/-! ## The first symbol outside the alphabet -/

/-- The first symbol outside the alphabet is the one that a strict automaton refuses. -/
theorem refused?_append (hbefore : ∀ k ∈ before, k ∈ m.automaton.alphabet)
    (hl : l ∉ m.automaton.alphabet) (hstrict : m.automaton.strict = true) (rest : List Label) :
    refused? m.automaton (before ++ l :: rest) = some l := by
  have hnone : before.find? (· ∉ m.automaton.alphabet) = none :=
    List.find?_eq_none.2 fun k hk => by simpa using hbefore k hk
  rw [refused?_of_strict hstrict, List.find?_append, hnone, Option.none_or,
    List.find?_cons_of_pos (by simpa using hl)]

/-- A strict automaton reads what stands before the first symbol that it refuses, and no more. -/
theorem readPart_append (hbefore : ∀ k ∈ before, k ∈ m.automaton.alphabet)
    (hl : l ∉ m.automaton.alphabet) (hstrict : m.automaton.strict = true) (rest : List Label) :
    readPart m.automaton (before ++ l :: rest) = before := by
  have hrefused : ¬Readable m.automaton l := by
    rintro (hmem | hlenient)
    · exact hl hmem
    · rw [hstrict] at hlenient
      cases hlenient
  have hread : ∀ k ∈ before, decide (Readable m.automaton k) = true :=
    fun k hk => decide_eq_true (Or.inl (hbefore k hk))
  rw [readPart, List.takeWhile_append_of_pos hread,
    List.takeWhile_cons_of_neg (by simpa using hrefused), List.append_nil]

/-! ## Reading from the beginning -/

/-- Reading keeps track of the runs. Over the alphabet the current states are the ends of the paths
that spell the word. From the first symbol outside it on, a strict automaton stays at what was read
before, and another one is nowhere. -/
theorem read_tracks (hlive : m.automaton.discarded = false)
    (hepsilon : .epsilon ∉ m.automaton.alphabet) :
    (∀ word : List Label, (∀ l ∈ word, l ∈ m.automaton.alphabet) → ∃ m',
      (do reset; read word : Edit Unit) m = .ok () m' ∧
        (∀ v, v ∈ m'.automaton.run.current ↔ Path m.graph m.automaton.start word v) ∧
          (m'.isAccepting = true ↔
            ∃ v, Path m.graph m.automaton.start word v ∧ (m.graph.node v).isAccepting = true)) ∧
    ∀ (before : List Label) (l : Label) (rest : List Label),
      (∀ k ∈ before, k ∈ m.automaton.alphabet) → l ∉ m.automaton.alphabet →
        (m.automaton.strict = true → ∃ m', (do reset; read before : Edit Unit) m = .ok () m' ∧
          (do reset; read (before ++ l :: rest) : Edit Unit) m =
            .error (.unknownSymbol l m.automaton.alphabet.toList) m') ∧
        (m.automaton.strict = false → ∃ m',
          (do reset; read (before ++ l :: rest) : Edit Unit) m = .ok () m' ∧
            m'.automaton.run.position = (before ++ l :: rest).length ∧
              m'.automaton.run.current = ∅) := by
  constructor
  · intro word hword
    exact ⟨_, reset_read_eq hlive hword, mem_current_iff_path hepsilon hword,
      isAccepting_iff_path hepsilon hword⟩
  intro before l rest hbefore hl
  constructor
  · intro hstrict
    refine ⟨_, reset_read_eq hlive hbefore, ?_⟩
    rw [reset_read_eq_readOutcome hlive, readOutcome, refused?_append hbefore hl hstrict,
      readPart_append hbefore hl hstrict]
  · intro hlenient
    have hread : ∀ k ∈ before ++ l :: rest, Readable m.reset.automaton k :=
      fun _ _ => Or.inr hlenient
    refine ⟨m.reset.advanceAll (before ++ l :: rest), ?_, position_advanceAll_reset m _, ?_⟩
    -- an automaton that is not strict refuses nothing
    · simp only [outcome_bind, reset_eq hlive, read_eq (m := m.reset) hlive hread]
    · exact current_advanceAll_of_not_mem
        (List.mem_append_right before List.mem_cons_self : l ∈ before ++ l :: rest) hl

/-- The silent round, but strict. -/
def strictRound : Machine := silentRound.onAutomaton fun a => { a with strict := true }

/-- The round leads back from its first symbol on. An unknown symbol after that is refused by the
strict round, and the other one reads on from nowhere. All three symbols are counted there. -/
theorem read_tracks_strictRound : strictRound.automaton.discarded = false ∧
    .epsilon ∉ strictRound.automaton.alphabet ∧ strictRound.automaton.strict = true ∧
    (∃ m', (do reset; read [.symbol "a"] : Edit Unit) strictRound = .ok () m' ∧
      ∀ v, v ∈ m'.automaton.run.current ↔
        Path strictRound.graph strictRound.automaton.start [.symbol "a"] v) ∧
    (∃ m', (do reset; read [.symbol "a"] : Edit Unit) strictRound = .ok () m' ∧
      (do reset; read [.symbol "a", .symbol "c", .symbol "a"] : Edit Unit) strictRound =
        .error (.unknownSymbol (.symbol "c") strictRound.automaton.alphabet.toList) m') ∧
    silentRound.automaton.strict = false ∧
      ∃ m', (do reset; read [.symbol "a", .symbol "c", .symbol "a"] : Edit Unit) silentRound =
        .ok () m' ∧ m'.automaton.run.position = 3 ∧ m'.automaton.run.current = ∅ := by
  have hepsilon := sound_silentRound.epsilon_not_mem
  have hfirst : ∀ k ∈ [Label.symbol "a"], k ∈ silentRound.automaton.alphabet := by decide
  have hunknown : .symbol "c" ∉ silentRound.automaton.alphabet := by decide
  obtain ⟨hover, houtside⟩ := read_tracks (m := strictRound) rfl hepsilon
  obtain ⟨m', hread, hcurrent, -⟩ := hover _ hfirst
  have hlenient := (read_tracks (m := silentRound) rfl hepsilon).2
  exact ⟨rfl, hepsilon, rfl, ⟨m', hread, hcurrent⟩,
    (houtside _ _ [.symbol "a"] hfirst hunknown).1 rfl, rfl,
    (hlenient _ _ [.symbol "a"] hfirst hunknown).2 rfl⟩

/-! ## Accepting -/

/-- A word is found to be accepted exactly if it belongs to the language. -/
theorem exists_accepts_iff (hm : m.automaton.Labelled m.graph)
    (hlive : m.automaton.discarded = false) (word : List Label) :
    (∃ m', Edit.accepts word m = .ok true m') ↔ word ∈ m.automaton.language m.graph := by
  have hover : (∀ l ∈ word, l ∈ m.automaton.alphabet) →
      (m.graph.anyAccepting (m.reached word) = true ↔ word ∈ m.automaton.language m.graph) := by
    intro hword
    rw [← current_reset_advanceAll, current_advanceAll_reset hword]
    exact (mem_languageFrom_iff fun hmem => hm.epsilon_not_mem (hword _ hmem)).symm
  constructor
  · rintro ⟨m', haccepts⟩
    obtain ⟨-, -, -, hanswer⟩ := of_accepts_eq_ok haccepts
    by_cases hword : ∀ l ∈ word, l ∈ m.automaton.alphabet
    · exact (hover hword).1 hanswer.symm
    · -- a symbol outside the alphabet leads nowhere, where nothing is accepted
      push Not at hword
      obtain ⟨l, hl, hno⟩ := hword
      have hnowhere := current_advanceAll_of_not_mem (m := m.reset) hl hno
      rw [← current_reset_advanceAll, hnowhere] at hanswer
      cases hanswer
  · intro hmem
    have hword := hm.mem_alphabet hmem
    have haccepts := accepts_eq hlive fun l hl => Or.inl (hword l hl)
    rw [(hover hword).2 hmem] at haccepts
    exact ⟨_, haccepts⟩

end Edit

end PatternAutomata
