/-
Using a pattern.

A pattern is used by asking for its tree, its alphabet and its automata, and by reading with
them, in any order and any number of times; reading may be broken off by a symbol that a
strict automaton refuses. Whatever was done, the bench is still good (`Used.good`): each
access leads from a good bench to a good bench, and at the beginning nothing is kept.

So the answers do not depend on what was asked before. The automaton of any stage accepts a
text exactly if the text belongs to the language of the tree (`Access.accepts_spec`), unless
it is strict and refuses a symbol that occurs in no word of the language
(`Access.accepts_refused`).
-/
import PatternAutomata.Proofs.Patterns.Spelled
import PatternAutomata.Proofs.Patterns.Stages

set_option autoImplicit false

namespace PatternAutomata

open PatternAutomata.Graph

/-! ## Edits that only read -/

/-- Whether it succeeds or not, the edit changes at most how far an automaton has read. Only live
and sound automata are asked about; a pattern has no others. -/
def Edit.OnlyReads {α : Type} (x : Edit α) : Prop :=
  ∀ m : Machine, m.automaton.Sound m.graph → m.automaton.discarded = false →
    m.OnlyRead (leftBy (x m))

/-- Going back to the beginning only reads. -/
theorem Edit.onlyReads_reset : Edit.OnlyReads Edit.reset := by
  intro m hs hm
  rw [reset_eq hm]
  exact Machine.onlyRead_reset hs

/-- Reading only reads. If a symbol is refused, those before it have been read. -/
theorem Edit.onlyReads_read (ls : List Label) : Edit.OnlyReads (Edit.read ls) := by
  intro m hs hm
  cases hread : refused? m.automaton ls with
  | none =>
    rw [read_eq hm (refused?_eq_none.1 hread)]
    exact Machine.onlyRead_advanceAll hs ls
  | some l =>
    obtain ⟨m', hrefused, hm'⟩ := read_refused hs hm hread
    rw [hrefused]
    exact hm'

/-- Asking whether a word is accepted only reads: it goes back to the beginning, reads the word, and
looks where it has got. -/
theorem Edit.onlyReads_accepts (ls : List Label) : Edit.OnlyReads (Edit.accepts ls) := by
  intro m hs hm
  have hreset := Machine.onlyRead_reset hs
  have hread := onlyReads_read ls m.reset (hreset.sound hs) hm
  have hboth := hreset.trans hread
  simp only [accepts, outcome_bind, reset_eq hm]
  -- what is asked of the machine after reading leaves it alone
  cases hrun : Edit.read ls m.reset with
  | ok _ m' =>
    rw [hrun] at hboth
    exact hboth
  | error f m' =>
    rw [hrun] at hboth
    exact hboth

namespace Regex

variable {b b' : Bench} {strict : Bool} {t : Tree}

namespace Access

/-- Reading with the automaton of a stage is reading with an automaton that serves. The stage is had
first, and what is read with it cannot make it fail. -/
theorem onStage_spec {α : Type} (hb : b.Good strict t) (s : Stage) (x : Edit α) :
    ∃ (b₁ : Bench) (h : Handle), b₁.Good strict t ∧
      b₁.workspace.Offers s h strict t.language ∧ onStage s x b = work (.on h x) b₁ := by
  obtain ⟨h, b₁, hstage, hb₁, hoffers⟩ := yields_stage s b hb
  refine ⟨b₁, h, hb₁, hoffers, ?_⟩
  simp only [onStage, outcome_bind, hstage]

/-- Work that only reads in an automaton that serves leaves a workspace in which all that was
said of automata still holds. -/
theorem leftBy_work_on {α : Type} {s : Stage} {h : Handle} {L : Language Label} {x : Edit α}
    (hx : x.OnlyReads) (hoffers : b.workspace.Offers s h strict L) :
    ∃ w, b.workspace.Later w ∧ leftBy (work (.on h x) b) = { b with workspace := w } := by
  have hread := hx (b.workspace.machine h) hoffers.serves.sound hoffers.serves.live
  cases hrun : x (b.workspace.machine h) with
  | ok r m =>
    rw [hrun] at hread
    refine ⟨b.workspace.putBack h m, .onlyRead hread, ?_⟩
    simp only [work, Work.on, hrun, leftBy]
  | error f m =>
    rw [hrun] at hread
    refine ⟨b.workspace.putBack h m, .onlyRead hread, ?_⟩
    simp only [work, Work.on, hrun, leftBy]

/-- Reading with the automaton of a stage leaves a good bench good, also if a symbol is refused. -/
theorem good_onStage {α : Type} (hb : b.Good strict t) (s : Stage) {x : Edit α}
    (hx : x.OnlyReads) : (leftBy (onStage s x b)).Good strict t := by
  obtain ⟨b₁, h, hb₁, hoffers, heq⟩ := onStage_spec hb s x
  obtain ⟨w, hw, hleft⟩ := leftBy_work_on hx hoffers
  rw [heq, hleft]
  exact hb₁.later hw

/-! ## What is answered -/

/-- What an automaton of a stage may read is what the words of the tree are spelled with. Its
symbols are those in the words that it accepts, and these are the words of the tree. -/
theorem alphabet_eq {w : Workspace} {h : Handle} {s : Stage} (hb : b.Good strict t)
    (hoffers : w.Offers s h strict t.language) : (w.automaton h).alphabet = t.spelled := by
  ext l
  rw [hoffers.serves.mem_alphabet_iff]
  exact t.spells_language_iff (Parser.written_of_parse hb.reads)

/-- The automaton of a stage answers whether a text belongs to the language, if it may read all
symbols of the text. -/
theorem accepts_spec (hb : b.Good strict t) (s : Stage) {text : String}
    (hread : strict = false ∨ ∀ l ∈ Label.ofText text, l ∈ t.spelled) :
    ∃ answer b', onStage s (.accepts (Label.ofText text)) b = .ok answer b' ∧
      (answer = true ↔ Label.ofText text ∈ t.language) := by
  obtain ⟨b₁, h, hb₁, hoffers, heq⟩ := onStage_spec hb s (.accepts (Label.ofText text))
  have hserves := hoffers.serves
  have hreadable : ∀ l ∈ Label.ofText text, Edit.Readable (b₁.workspace.automaton h) l := by
    intro l hl
    rcases hread with hread | hread
    · exact Or.inr (hserves.strict_eq.trans hread)
    · rw [← alphabet_eq hb₁ hoffers] at hread
      exact Or.inl (hread l hl)
  obtain ⟨answer, m, hrun, _, hanswer⟩ := Edit.accepts_spec (m := b₁.workspace.machine h)
    hserves.sound hserves.live hreadable
  have hlanguage : (b₁.workspace.machine h).automaton.language (b₁.workspace.machine h).graph =
      t.language := hserves.language_eq
  rw [hlanguage] at hanswer
  exact ⟨answer, _, heq.trans (work_eq_ok (Work.on_eq_ok hrun)), hanswer⟩

/-- A strict automaton refuses a text at the first symbol that no word of the tree is spelled with.
The alphabet that it names in the refusal is that of these words. -/
theorem accepts_refused (hb : b.Good true t) (s : Stage) {text : String} {l : Label}
    (hl : (Label.ofText text).find? (· ∉ t.spelled) = some l) :
    ∃ b', onStage s (.accepts (Label.ofText text)) b =
      .error (.faulty (.unknownSymbol l t.spelled.toList)) b' := by
  obtain ⟨b₁, h, hb₁, hoffers, heq⟩ := onStage_spec hb s (.accepts (Label.ofText text))
  have hserves := hoffers.serves
  have hrefused : Edit.refused? (b₁.workspace.automaton h) (Label.ofText text) = some l := by
    rw [Edit.refused?_of_strict hserves.strict_eq, alphabet_eq hb₁ hoffers]
    exact hl
  obtain ⟨m, hrun, _⟩ := Edit.accepts_refused (m := b₁.workspace.machine h) hserves.sound
    hserves.live hrefused
  have halphabet : (b₁.workspace.machine h).automaton.alphabet = t.spelled :=
    alphabet_eq hb₁ hoffers
  rw [halphabet] at hrun
  refine ⟨{ b₁ with workspace := b₁.workspace.putBack h m }, ?_⟩
  rw [heq, work, Work.on, hrun]

end Access

/-- The pattern is found to match the text. -/
def Bench.Matches (b : Bench) (text : String) : Prop :=
  ∃ b', Access.isMatch text b = .ok true b'

/-- What matches is the language of the tree, whether the pattern is strict or not. -/
theorem Bench.Good.matches_iff (hb : b.Good strict t) {text : String} :
    b.Matches text ↔ Label.ofText text ∈ t.language := by
  have hmatch : Access.isMatch text = Access.onStage .minimalDfa (.accepts (Label.ofText text)) :=
    rfl
  rw [Matches, hmatch]
  -- a strict automaton refuses a text that it could not match anyway
  by_cases hread : strict = false ∨ ∀ l ∈ Label.ofText text, l ∈ t.spelled
  · obtain ⟨answer, b', hrun, hanswer⟩ := Access.accepts_spec hb .minimalDfa hread
    rw [hrun, ← hanswer]
    constructor
    · rintro ⟨b'', heq⟩
      exact (EStateM.Result.ok.inj heq).1
    · rintro rfl
      exact ⟨b', rfl⟩
  · rw [not_or, Bool.not_eq_false] at hread
    obtain ⟨rfl, hread⟩ := hread
    have hwritten := Parser.written_of_parse hb.reads
    cases hfind : (Label.ofText text).find? (· ∉ t.spelled) with
    | none => exact absurd (by simpa using List.find?_eq_none.1 hfind) hread
    | some l =>
      obtain ⟨b', hrun⟩ := Access.accepts_refused hb .minimalDfa hfind
      rw [hrun]
      constructor
      · rintro ⟨b'', heq⟩
        nomatch heq
      · intro hmem
        have hno : l ∉ t.spelled := by simpa using List.find?_some hfind
        exact absurd ((t.spells_language_iff hwritten).1
          ⟨_, hmem, List.mem_of_find?_eq_some hfind⟩) hno

/-! ## Whatever was done before -/

/-- The benches that a pattern can be left with: its tree, its alphabet and its automata have
been asked for, and have read, in some order. At first nothing is kept, and the workspace may
hold anything. -/
inductive Used (pattern : String) (d : Dialect) (strict : Bool) : Bench → Prop
  | fresh (w : Workspace) : Used pattern d strict ⟨{ pattern, strict, dialect := d }, w⟩
  | tree {b : Bench} (hb : Used pattern d strict b) :
      Used pattern d strict (leftBy (Access.tree b))
  | alphabet {b : Bench} (hb : Used pattern d strict b) :
      Used pattern d strict (leftBy (Access.alphabet b))
  | stage {b : Bench} (hb : Used pattern d strict b) (s : Stage) :
      Used pattern d strict (leftBy (Access.stage s b))
  | reset {b : Bench} (hb : Used pattern d strict b) (s : Stage) :
      Used pattern d strict (leftBy (Access.onStage s .reset b))
  | read {b : Bench} (hb : Used pattern d strict b) (s : Stage) (ls : List Label) :
      Used pattern d strict (leftBy (Access.onStage s (.read ls) b))
  | accepts {b : Bench} (hb : Used pattern d strict b) (s : Stage) (text : String) :
      Used pattern d strict (leftBy (Access.onStage s (.accepts (Label.ofText text)) b))
  | isMatch {b : Bench} (hb : Used pattern d strict b) (text : String) :
      Used pattern d strict (leftBy (Access.isMatch text b))

variable {pattern : String} {d : Dialect}

/-- However a pattern that can be read was used, its bench is good. By induction on the uses. -/
theorem Used.good (hparse : Parser.parse d pattern = .ok t) (hb : Used pattern d strict b) :
    b.Good strict t := by
  -- one use after the other keeps the bench good, whether it succeeds or not
  induction hb with
  | fresh w => exact ⟨hparse, rfl, nofun, nofun, fun s h hk => by cases s <;> nomatch hk⟩
  | tree _ ih =>
    obtain ⟨b', hrun, hb', _⟩ := Access.tree_spec ih
    rw [hrun]
    exact hb'
  | alphabet _ ih =>
    obtain ⟨b', hrun, hb', _⟩ := Access.alphabet_spec ih
    rw [hrun]
    exact hb'
  | stage _ s ih =>
    obtain ⟨h, b', hrun, hb', _⟩ := Access.yields_stage s _ ih
    rw [hrun]
    exact hb'
  | reset _ s ih => exact Access.good_onStage ih s Edit.onlyReads_reset
  | read _ s ls ih => exact Access.good_onStage ih s (Edit.onlyReads_read ls)
  | accepts _ s text ih => exact Access.good_onStage ih s (Edit.onlyReads_accepts _)
  | isMatch _ text ih => exact Access.good_onStage ih .minimalDfa (Edit.onlyReads_accepts _)

/-- A pattern that can be read and is not strict matches the texts in the language of its tree,
and the automaton of each stage accepts these texts and no others. This is so whatever the
pattern was used for before. -/
theorem Used.accepts_iff_mem_language (hparse : Parser.parse d pattern = .ok t)
    (hb : Used pattern d false b) (text : String) :
    (∃ answer b', Access.isMatch text b = .ok answer b' ∧
      (answer = true ↔ Label.ofText text ∈ t.language)) ∧
    ∀ s, ∃ answer b', Access.onStage s (.accepts (Label.ofText text)) b = .ok answer b' ∧
      (answer = true ↔ Label.ofText text ∈ t.language) := by
  have hgood := hb.good hparse
  refine ⟨?_, fun s => ?_⟩
  · exact Access.accepts_spec hgood .minimalDfa (Or.inl rfl)
  · exact Access.accepts_spec hgood s (Or.inl rfl)

/-- The tree of the pattern `a+`. -/
def oneOrMore : Tree := .repeated .plus (.char (.symbol "a") (some 0)) "+" (.between 1 2)

/-- This is the tree that the pattern is read as. -/
theorem parse_oneOrMore : Parser.parse {} "a+" = .ok oneOrMore := by with_unfolding_all rfl

/-- The letter `b` is outside the alphabet of `a+`, and is read as well. -/
theorem accepts_iff_mem_language_oneOrMore :
    (∃ answer b', Access.isMatch "aab" ⟨{ pattern := "a+" }, {}⟩ = .ok answer b' ∧
      (answer = true ↔ Label.ofText "aab" ∈ oneOrMore.language)) ∧
    ∀ s, ∃ answer b', Access.onStage s (.accepts (Label.ofText "aab"))
        ⟨{ pattern := "a+" }, {}⟩ = .ok answer b' ∧
      (answer = true ↔ Label.ofText "aab" ∈ oneOrMore.language) :=
  Used.accepts_iff_mem_language parse_oneOrMore (.fresh {}) "aab"

end Regex

end PatternAutomata
