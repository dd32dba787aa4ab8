/-
What a strict pattern refuses.

A strict pattern refuses a text with a symbol outside its alphabet and names the first such
symbol; any other text it answers for as it would if it were not strict. The alphabet that
counts is that of the words which the tree describes, and all automata of the pattern have this
alphabet and no other (`followsAlphabet_spelled`).

Where ranges are not written in braces, these are the letters of the tree
(`followsAlphabet_letters`). Under a repetition that allows no copies a letter is lost: though
it occurs in the pattern, it is refused (`isMatch_noCopies`).
-/
import PatternAutomata.Proofs.Patterns.Using

set_option autoImplicit false

namespace PatternAutomata.Regex

variable {pattern : String} {d : Dialect} {t : Tree} {b c : Bench} {A : Alphabet}

/-- Of two answers for a text, the first is a refusal that names the first symbol outside an
alphabet and, if there is no such symbol, the same as the second. -/
def ReadsBy (A : Alphabet) (text : String)
    (strictly leniently : EStateM.Result PatternFault Bench Bool) : Prop :=
  match (Label.ofText text).find? (· ∉ A) with
  | some l => ∃ b, strictly = .error (.faulty (.unknownSymbol l A.toList)) b
  | none => ∃ answer b c, strictly = .ok answer b ∧ leniently = .ok answer c

/-- However it was used before, the strict pattern differs from the lenient one in that it
refuses symbols outside the alphabet, and it is the alphabet of all automata of both. -/
structure FollowsAlphabet (pattern : String) (d : Dialect) (A : Alphabet) : Prop where
  isMatch {b c : Bench} (hb : Used pattern d true b) (hc : Used pattern d false c)
    (text : String) : ReadsBy A text (Access.isMatch text b) (Access.isMatch text c)
  accepts {b c : Bench} (hb : Used pattern d true b) (hc : Used pattern d false c) (s : Stage)
    (text : String) : ReadsBy A text (Access.onStage s (.accepts (Label.ofText text)) b)
      (Access.onStage s (.accepts (Label.ofText text)) c)
  alphabet_eq {strict : Bool} {b : Bench} (hb : Used pattern d strict b) (s : Stage) :
    ∃ h b', Access.stage s b = .ok h b' ∧ (b'.workspace.automaton h).alphabet = A

/-- A strict stage and a lenient one differ in the symbols that no word is spelled with. If there is
no such symbol in the text, both answer whether the text belongs to the language. -/
theorem readsBy_spelled (hb : b.Good true t) (hc : c.Good false t) (s : Stage) (text : String) :
    ReadsBy t.spelled text (Access.onStage s (.accepts (Label.ofText text)) b)
      (Access.onStage s (.accepts (Label.ofText text)) c) := by
  rw [ReadsBy]
  split
  · next l hl => exact Access.accepts_refused hb s hl
  · next hnone =>
    have hread : ∀ l ∈ Label.ofText text, l ∈ t.spelled := by
      simpa using List.find?_eq_none.1 hnone
    obtain ⟨answer, b', hrun, hanswer⟩ := Access.accepts_spec hb s (Or.inr hread)
    obtain ⟨answer', c', hrun', hanswer'⟩ := Access.accepts_spec hc s (Or.inl rfl)
    obtain rfl : answer = answer' := Bool.eq_iff_iff.2 (hanswer.trans hanswer'.symm)
    exact ⟨answer, b', c', hrun, hrun'⟩

/-- A pattern follows the alphabet that its words are spelled with. Matching reads with the smallest
automaton, so it is one case of what the stages do. -/
theorem followsAlphabet_spelled (hparse : Parser.parse d pattern = .ok t) :
    FollowsAlphabet pattern d t.spelled where
  isMatch hb hc text := readsBy_spelled (hb.good hparse) (hc.good hparse) .minimalDfa text
  accepts hb hc s text := readsBy_spelled (hb.good hparse) (hc.good hparse) s text
  alphabet_eq hb s := by
    obtain ⟨h, b', hrun, hb', hoffers⟩ := Access.yields_stage s _ (hb.good hparse)
    exact ⟨h, b', hrun, Access.alphabet_eq hb' hoffers⟩

/-- Where ranges are not written in braces, a pattern follows the alphabet of its tree. -/
theorem followsAlphabet_letters (hd : d.boundedRepetition = false)
    (hparse : Parser.parse d pattern = .ok t) : FollowsAlphabet pattern d t.letters := by
  rw [← Parser.spelled_of_parse hd hparse]
  exact followsAlphabet_spelled hparse

/-! ## The alphabet that counts -/

/-- The tree of the pattern `a{0}`. -/
def noCopies : Tree :=
  .repeated ⟨0, some 0, by simp⟩ (.char (.ofChar 'a') (some 0)) "\x7b0\x7d" (.between 1 4)

/-- This is the tree that the pattern is read as. -/
theorem parse_noCopies :
    Parser.parse { boundedRepetition := true } "a\x7b0\x7d" = .ok noCopies := by
  with_unfolding_all rfl

/-- The alphabet that a pattern follows is that of the words which its tree describes. There is no
other one, as the automata of a pattern have one alphabet each. -/
theorem followsAlphabet_iff (hparse : Parser.parse d pattern = .ok t) (A : Alphabet) :
    FollowsAlphabet pattern d A ↔ A = t.spelled := by
  have hspelled := followsAlphabet_spelled hparse
  constructor
  · intro hfollows
    -- each stage has one alphabet
    have hb : Used pattern d true ⟨{ pattern, strict := true, dialect := d }, {}⟩ := .fresh {}
    obtain ⟨h, b, hrun, hA⟩ := hfollows.alphabet_eq hb .nfa
    obtain ⟨k, c, hrun', ht⟩ := hspelled.alphabet_eq hb .nfa
    obtain ⟨rfl, rfl⟩ := EStateM.Result.ok.inj (hrun.symm.trans hrun')
    exact hA.symm.trans ht
  · rintro rfl
    exact hspelled

/-- Under a repetition of no copies a letter is in no alphabet. -/
theorem followsAlphabet_noCopies :
    FollowsAlphabet "a\x7b0\x7d" { boundedRepetition := true } ∅ :=
  (followsAlphabet_iff parse_noCopies ∅).2 rfl

/-- The letter of the pattern is refused, since no word is spelled with it. -/
theorem isMatch_noCopies (hb : Used "a\x7b0\x7d" { boundedRepetition := true } true b) :
    ∃ b', Access.isMatch "a" b = .error (.faulty (.unknownSymbol (.ofChar 'a') [])) b' := by
  have hunspelled : (Label.ofText "a").find? (· ∉ noCopies.spelled) = some (.ofChar 'a') := rfl
  exact Access.accepts_refused (hb.good parse_noCopies) .minimalDfa hunspelled

/-- Not all patterns follow the alphabet of their tree. -/
theorem not_followsAlphabet_noCopies : ¬∀ (pattern : String) (d : Dialect) (t : Tree),
    Parser.parse d pattern = .ok t → FollowsAlphabet pattern d t.letters := by
  intro hall
  have hfollows := hall _ _ _ parse_noCopies
  obtain ⟨b, hrefused⟩ := isMatch_noCopies (.fresh {})
  have hread := hfollows.isMatch (.fresh {}) (.fresh {}) "a"
  have hletters : (Label.ofText "a").find? (· ∉ noCopies.letters) = none := rfl
  -- the tree has the letter, so the text should be answered for
  simp only [ReadsBy, hletters] at hread
  obtain ⟨answer, b', c', hanswered, _⟩ := hread
  rw [hrefused] at hanswered
  nomatch hanswered

end PatternAutomata.Regex
