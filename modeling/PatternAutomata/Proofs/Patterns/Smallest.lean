/-
The smallest automaton of a pattern is its normal form.

The smallest automata of two patterns are both canonical, and their alphabets are made of the
symbols in the words that are accepted. So they are drawn alike if the patterns match the same
texts, and only then (`Used.matches_tfae_drawing`); how a pattern is written, how it is read
and what it was used for before make no difference. A canonical automaton has as few states as
any deterministic automaton for its texts (`Used.size_minimalDfa_le_card`).
-/
import Mathlib.Data.List.TFAE
import PatternAutomata.Proofs.Patterns.Using

set_option autoImplicit false

namespace PatternAutomata

open PatternAutomata.Graph

variable {w w' : Workspace} {h k : Handle} {strict strict' : Bool} {L M : Language Label}

/-- An automaton of the workspace as it is drawn. -/
def Workspace.drawing (w : Workspace) (h : Handle) : Drawing := (w.automaton h).drawing w.graph

/-! ## Smallest automata -/

namespace Workspace.Offers

/-- Smallest automata for one language are drawn alike. A canonical automaton is determined by its
language and its alphabet, and both are the same here. -/
theorem drawing_eq (hw : w.Offers .minimalDfa h strict L)
    (hw' : w'.Offers .minimalDfa k strict' L) : w.drawing h = w'.drawing k := by
  obtain ⟨first, words, hc⟩ := hw.fits
  obtain ⟨first', words', hc'⟩ := hw'.fits
  apply hc.drawing_eq hc'
  · rw [hw.serves.language_eq, hw'.serves.language_eq]
  · exact hw.serves.alphabet_eq hw'.serves

/-- Automata that are drawn alike are for one language. This is so for automata of any stages. -/
theorem language_eq {s s' : Stage} (hw : w.Offers s h strict L) (hw' : w'.Offers s' k strict' M)
    (halike : (w.drawing h).Alike (w'.drawing k)) : L = M := by
  rw [← hw.serves.language_eq, ← hw'.serves.language_eq]
  exact Automaton.language_eq_of_alike hw.serves.sound hw'.serves.sound halike

end Workspace.Offers

namespace Regex

variable {b c : Bench} {t u : Tree}

/-! ## Normal forms -/

namespace Access

/-- The smallest deterministic automaton, if it is made at once from the automaton as it was
built. -/
def minimalOfBuilt : Access Handle := do
  work (.minimize (← work (.determinize (← nfa))))

/-- From a good bench this leads to a smallest automaton for the language of the tree. Determinizing
asks nothing of an automaton but that it serves, so it may have silent edges. -/
theorem yields_minimalOfBuilt : Yields strict t minimalOfBuilt .minimalDfa := by
  have hdfa : Yields strict t (do work (.determinize (← nfa))) .dfa :=
    leads_work (yields_stage .nfa) fun b h hb hoffers => by
      obtain ⟨k, w', hrun, hadds, _⟩ := Work.determinize_spec hoffers
      exact ⟨k, w', hrun, hb.later hadds.grows.later, hadds.offers⟩
  have hminimal : Yields strict t
      (do work (.minimize (← (do work (.determinize (← nfa)))))) .minimalDfa :=
    leads_work hdfa tended_good.minimize
  simp only [bind_assoc] at hminimal
  exact hminimal

end Access

/-- What a pattern matches, as words. A word of the language is a text, since every letter in it is
a single character, so patterns that match the same texts have the same language. -/
theorem Bench.Good.language_eq (hb : b.Good strict t) (hc : c.Good strict' u)
    (hsame : ∀ text, b.Matches text ↔ c.Matches text) : t.language = u.language := by
  -- one half, which is used in both directions
  have hle : ∀ {b c : Bench} {t u : Tree} {strict strict' : Bool}, b.Good strict t →
      c.Good strict' u → (∀ text, b.Matches text ↔ c.Matches text) → t.language ≤ u.language := by
    intro b c t u strict strict' hb hc hsame word hword
    obtain ⟨text, rfl⟩ := Tree.exists_text
      (t.language_le_texts (Parser.written_of_parse hb.reads) hword)
    exact hc.matches_iff.1 ((hsame text).1 (hb.matches_iff.2 hword))
  apply le_antisymm
  · exact hle hb hc hsame
  · exact hle hc hb fun text => (hsame text).symm

variable {p q : String} {d e : Dialect}

/-- Patterns match the same texts if and only if their smallest automata are the same graph,
whether that is compared in order or not. The same graph is made if the automaton is
determinized with its silent edges. -/
theorem Used.matches_tfae_drawing (hp : Parser.parse d p = .ok t)
    (hq : Parser.parse e q = .ok u) (hb : Used p d strict b) (hc : Used q e strict' c) :
    ∃ h b' k c' n b'', Access.minimalDfa b = .ok h b' ∧ Access.minimalDfa c = .ok k c' ∧
      Access.minimalOfBuilt b = .ok n b'' ∧
      [∀ text, b.Matches text ↔ c.Matches text,
        (b'.workspace.drawing h).Alike (c'.workspace.drawing k),
        b'.workspace.drawing h = c'.workspace.drawing k].TFAE ∧
      b''.workspace.drawing n = b'.workspace.drawing h := by
  have hb_good := hb.good hp
  have hc_good := hc.good hq
  obtain ⟨h, b', hrun_b, _, hoffers_b⟩ := Access.yields_stage .minimalDfa b hb_good
  obtain ⟨k, c', hrun_c, _, hoffers_c⟩ := Access.yields_stage .minimalDfa c hc_good
  obtain ⟨n, b'', hrun, _, hoffers⟩ := Access.yields_minimalOfBuilt b hb_good
  refine ⟨h, b', k, c', n, b'', hrun_b, hrun_c, hrun, ?_, hoffers.drawing_eq hoffers_b⟩
  -- equal matches are equal languages, and the smallest automaton is drawn from its language
  tfae_have 1 → 3 := by
    intro hsame
    rw [hb_good.language_eq hc_good hsame] at hoffers_b
    exact hoffers_b.drawing_eq hoffers_c
  tfae_have 3 → 2 := by
    intro heq
    rw [heq]
    exact .refl _
  -- an automaton accepts the same words as any other one that is drawn alike
  tfae_have 2 → 1 := by
    intro halike text
    rw [hb_good.matches_iff, hc_good.matches_iff, hoffers_b.language_eq hoffers_c halike]
  tfae_finish

/-- The tree of the pattern `aa*`. -/
def letterThenStar : Tree :=
  .concat [.char (.symbol "a") (some 0),
    .repeated .star (.char (.symbol "a") (some 1)) "*" (.between 2 3)] (.between 0 3)

/-- This is the tree that the pattern is read as. -/
theorem parse_letterThenStar : Parser.parse {} "aa*" = .ok letterThenStar := by
  with_unfolding_all rfl

/-- For `a+`, which is read strictly, and `aa*`, which is not. -/
theorem matches_tfae_drawing_oneOrMore :
    ∃ h b' k c', Access.minimalDfa ⟨{ pattern := "a+", strict := true }, {}⟩ = .ok h b' ∧
      Access.minimalDfa ⟨{ pattern := "aa*" }, {}⟩ = .ok k c' ∧
      ((∀ text, Bench.Matches ⟨{ pattern := "a+", strict := true }, {}⟩ text ↔
          Bench.Matches ⟨{ pattern := "aa*" }, {}⟩ text) ↔
        b'.workspace.drawing h = c'.workspace.drawing k) := by
  obtain ⟨h, b', k, c', _, _, hb, hc, _, htfae, _⟩ :=
    Used.matches_tfae_drawing parse_oneOrMore parse_letterThenStar
      (.fresh {}) (.fresh {})
  exact ⟨h, b', k, c', hb, hc, htfae.out 0 2⟩

/-! ## Nothing smaller -/

/-- No deterministic automaton that accepts exactly the texts that a pattern matches has fewer
states than the smallest automaton of the pattern. -/
theorem Used.size_minimalDfa_le_card (hp : Parser.parse d p = .ok t) (hb : Used p d strict b) :
    ∃ h b', Access.minimalDfa b = .ok h b' ∧ ∀ {σ : Type} [Fintype σ] (r : Rival σ),
      (∀ text, r.accepts text = true ↔ b.Matches text) →
        (b'.workspace.automaton h).states.size ≤ Fintype.card σ := by
  have hb_good := hb.good hp
  obtain ⟨h, b', hrun, _, hoffers⟩ := Access.yields_stage .minimalDfa b hb_good
  refine ⟨h, b', hrun, fun r hr => ?_⟩
  obtain ⟨first, words, hc⟩ := hoffers.fits
  have hlanguage := hoffers.serves.language_eq
  rw [hc.size_eq]
  -- there is one state for each of the shortest words that lead to them, and a rival has to tell
  -- these words apart
  apply hc.length_le_card
  · intro word hword
    rw [hlanguage] at hword
    exact Tree.exists_text (t.language_le_texts (Parser.written_of_parse hp) hword)
  · intro text
    rw [hr, hb_good.matches_iff, hlanguage]

/-- For `a+`. -/
theorem size_minimalDfa_le_card_oneOrMore :
    ∃ h b', Access.minimalDfa ⟨{ pattern := "a+" }, {}⟩ = .ok h b' ∧
      ∀ {σ : Type} [Fintype σ] (r : Rival σ),
        (∀ text, r.accepts text = true ↔ Bench.Matches ⟨{ pattern := "a+" }, {}⟩ text) →
          (b'.workspace.automaton h).states.size ≤ Fintype.card σ :=
  Used.size_minimalDfa_le_card parse_oneOrMore (.fresh {})

end Regex

end PatternAutomata
