/-
Alternatives side by side and in a chain.

A dialect says how the options between bars are held, and nothing that can be seen of a pattern
depends on it: the same texts are refused, for the same reason, and the trees of the others are
equally deep and have the same smallest automaton (`Parser.alternatives_agree`).

Two readings of one text are compared step by step. The levels that they keep agree
(`Level.Agrees`): part by part and option by option, the trees on them are equally deep and
describe the same words. A chain is as deep as its options side by side only because the last
option of a chain is no chain itself, so the trees that agree as parts are not chains. All that
reading asks of a tree is how deep it is, so both readings fail at the same step or at none.
-/
import PatternAutomata.Proofs.Grammar.Rereading
import PatternAutomata.Proofs.Patterns.Smallest

set_option autoImplicit false

namespace PatternAutomata

/-! ## Trees -/

namespace Tree

/-- The trees are equally deep and describe the same words. Nothing else of a tree plays a part in
how the rest of a text is read. -/
structure Agrees (t u : Tree) : Prop where
  depth_eq : t.depth = u.depth
  language_eq : t.language = u.language

/-- The trees agree, and neither is a chain of alternatives. This is what parts and options do; it
is needed where a chain is made, for a chain that ended in another chain would be deeper than its
options side by side. -/
structure AgreesAsPart (t u : Tree) : Prop extends Agrees t u where
  left_isEither : t.isEither = false
  right_isEither : u.isEither = false

/-- If the trees of two rows agree pair by pair, the deepest of one row is as deep as that of the
other. -/
theorem Agrees.greatestDepth_eq {ts us : List Tree} (h : List.Forall₂ Agrees ts us) :
    greatestDepth ts = greatestDepth us := by
  induction h with
  | nil => rfl
  | cons htu _ ih => rw [greatestDepth, greatestDepth, htu.depth_eq, ih]

/-- If the trees of two rows agree pair by pair, the rows describe the same words in sequence. -/
theorem Agrees.languageOfSequence_eq {ts us : List Tree} (h : List.Forall₂ Agrees ts us) :
    languageOfSequence ts = languageOfSequence us := by
  induction h with
  | nil => rfl
  | cons htu _ ih => rw [languageOfSequence, languageOfSequence, htu.language_eq, ih]

/-- If the trees of two rows agree pair by pair, choices between them describe the same words. -/
theorem Agrees.languageOfChoice_eq {ts us : List Tree} (h : List.Forall₂ Agrees ts us) :
    languageOfChoice ts = languageOfChoice us := by
  induction h with
  | nil => rfl
  | cons htu _ ih => rw [languageOfChoice, languageOfChoice, htu.language_eq, ih]

variable {t u : Tree}

/-- A letter agrees with itself, and is no chain. -/
theorem AgreesAsPart.char (label : Label) (place : Option Int) :
    (char label place).AgreesAsPart (.char label place) := ⟨⟨rfl, rfl⟩, rfl, rfl⟩

/-- Sequences whose parts agree agree. A sequence is no chain, whatever its parts are. -/
theorem AgreesAsPart.concat {ts us : List Tree} (h : List.Forall₂ Agrees ts us) (span : Span) :
    (concat ts span).AgreesAsPart (.concat us span) := by
  refine ⟨⟨?_, ?_⟩, rfl, rfl⟩
  · rw [depth, depth, Agrees.greatestDepth_eq h]
  · rw [language, language, Agrees.languageOfSequence_eq h]

/-- Groups around trees that agree agree. Here a choice becomes a part: the group around a chain is
no chain. -/
theorem Agrees.group (h : t.Agrees u) (span : Span) :
    (group t span).AgreesAsPart (.group u span) := by
  refine ⟨⟨?_, ?_⟩, rfl, rfl⟩
  · rw [depth, depth, h.depth_eq]
  · rw [language, language, h.language_eq]

/-- Repetitions of trees that agree agree, if their ranges are the same. -/
theorem Agrees.repeated (h : t.Agrees u) (b : Bounds) (spelling : String) (span : Span) :
    (repeated b t spelling span).AgreesAsPart (.repeated b u spelling span) := by
  refine ⟨⟨?_, ?_⟩, rfl, rfl⟩
  · rw [depth, depth, h.depth_eq]
  · rw [language, language, h.language_eq]

/-! ### Choices -/

/-- Choices between options that agree agree, however the options are held. Without a bar the choice
is its last option. With one it is one deeper than the deepest of its options, side by side as in a
chain, because the last option is no chain. -/
theorem Agrees.choice (d d' : Dialect) (start stop : Nat) {ended ended' : List (Tree × Nat)}
    (h : List.Forall₂ (fun o o' => o.1.Agrees o'.1) ended ended') (hlast : t.AgreesAsPart u) :
    (choice d start stop ended t).Agrees (choice d' start stop ended' u) := by
  have hoptions : List.Forall₂ Agrees (ended.map (·.1) ++ [t]) (ended'.map (·.1) ++ [u]) := by
    refine List.rel_append ?_ (.cons hlast.toAgrees .nil)
    rwa [List.forall₂_map_left_iff, List.forall₂_map_right_iff]
  constructor
  -- a text without bars leaves only the last option, and no choice at all
  · cases h with
    | nil => exact hlast.depth_eq
    | cons ho hrest =>
      rw [depth_choice (List.cons_ne_nil _ _) hlast.left_isEither,
        depth_choice (List.cons_ne_nil _ _) hlast.right_isEither,
        Agrees.greatestDepth_eq hoptions]
  · rw [language_choice, language_choice, Agrees.languageOfChoice_eq hoptions]

end Tree

namespace Parser

/-! ## Steps -/

/-- Both computations fail with the same error, or both succeed and the results are related. No
computation here succeeds where the other one fails. -/
inductive Agreed {α β : Type} (R : α → β → Prop) : Except ParseError α → Except ParseError β → Prop
  | error (e : ParseError) : Agreed R (.error e) (.error e)
  | ok {a : α} {b : β} (h : R a b) : Agreed R (.ok a) (.ok b)

namespace Agreed

variable {α β γ δ : Type} {R : α → β → Prop} {S : γ → δ → Prop}

/-- One step after another: if the first steps agree, and the second ones agree on related results,
the whole computations do. -/
theorem bind {x : Except ParseError α} {y : Except ParseError β} {f : α → Except ParseError γ}
    {g : β → Except ParseError δ} (h : Agreed R x y)
    (hfg : ∀ {a b}, R a b → Agreed S (f a) (g b)) : Agreed S (x >>= f) (y >>= g) := by
  cases h with
  | error e => exact .error e
  | ok hab => exact hfg hab

/-- What is made of related results without fail is all that has to be related. -/
theorem map {x : Except ParseError α} {y : Except ParseError β} {f : α → γ} {g : β → δ}
    (h : Agreed R x y) (hfg : ∀ {a b}, R a b → S (f a) (g b)) : Agreed S (x.map f) (y.map g) := by
  cases h with
  | error e => exact .error e
  | ok hab => exact .ok (hfg hab)

/-- After the same first step, only what follows needs to agree. The step may fail, but then it
fails on both sides with the same error. -/
theorem bind_same {x : Except ParseError α} {f : α → Except ParseError γ}
    {g : α → Except ParseError δ} (hfg : ∀ a, Agreed S (f a) (g a)) :
    Agreed S (x >>= f) (x >>= g) := by
  cases x with
  | error e => exact .error e
  | ok a => exact hfg a

end Agreed

/-- The levels are at the same place, and what has been read of them agrees: each part in the option
in progress, and each option that has been ended. -/
structure Level.Agrees (l l' : Level) : Prop where
  start_eq : l.start = l'.start
  optionStart_eq : l.optionStart = l'.optionStart
  options : List.Forall₂ (fun o o' => o.1.Agrees o'.1) l.options l'.options
  parts : List.Forall₂ Tree.AgreesAsPart l.parts l'.parts

variable {d : Dialect} {held : Bool} {l l' : Level} {t u : Tree}

/-- Levels that have just been begun at the same place agree. -/
theorem Level.Agrees.begin (start : Nat) : (Level.begin start).Agrees (.begin start) :=
  ⟨rfl, rfl, .nil, .nil⟩

/-- Parts that agree may be put on levels that agree. -/
theorem Level.Agrees.push (h : l.Agrees l') (htu : t.AgreesAsPart u) :
    (l.push t).Agrees (l'.push u) :=
  ⟨h.start_eq, h.optionStart_eq, h.options, .cons htu h.parts⟩

/-- On levels that agree, the options that are in progress agree, or both are refused for being
empty. What an option is depends on how many parts it has: with none it may be refused, with one it
is that part, and with more it is a sequence. -/
theorem Level.Agrees.option (h : l.Agrees l') (stop : Nat) :
    Agreed Tree.AgreesAsPart (l.option d stop)
      (l'.option { d with variadicAlternatives := held } stop) := by
  obtain ⟨_, _, optionStart, parts⟩ := l
  obtain ⟨_, _, _, parts'⟩ := l'
  obtain ⟨-, hstart, -, hparts⟩ := h
  obtain rfl : optionStart = _ := hstart
  cases hparts with
  | nil =>
    by_cases hempty : d.allowImplicitEmpty = true
    · simp only [Level.option, if_pos hempty]
      exact .ok (.concat .nil _)
    · simp only [Level.option, if_neg hempty]
      exact .error _
  | cons hpart hparts =>
    cases hparts with
    -- a single part stands for itself
    | nil => exact .ok hpart
    | cons hpart' hparts =>
      have hall := List.Forall₂.cons hpart (.cons hpart' hparts)
      refine .ok (.concat ?_ _)
      exact List.forall₂_reverse_iff.2 (hall.imp fun _ _ h => h.toAgrees)

/-- At a bar the option in progress is ended on both sides, and the next one is begun at the same
place. -/
theorem Level.Agrees.bar (h : l.Agrees l') (place : Nat) :
    Agreed Level.Agrees (l.bar d place)
      (l'.bar { d with variadicAlternatives := held } place) :=
  (h.option place).bind fun hoption =>
    .ok ⟨h.start_eq, rfl, .cons hoption.toAgrees h.options, .nil⟩

/-- The trees that levels stand for agree. This is where the dialects part: one makes a chain of the
options and the other holds them side by side. -/
theorem Level.Agrees.tree (h : l.Agrees l') (stop : Nat) :
    Agreed Tree.Agrees (l.tree d stop)
      (l'.tree { d with variadicAlternatives := held } stop) := by
  rw [Level.tree_eq, Level.tree_eq, h.start_eq]
  exact (h.option stop).map (.choice _ _ _ _ (List.forall₂_reverse_iff.2 h.options))

/-- What is refused for its depth is refused however alternatives are held, since trees that agree
are equally deep and the limit is the same. -/
theorem agreed_checkDepth (h : t.AgreesAsPart u) (place : Nat) :
    Agreed Tree.AgreesAsPart (checkDepth d place t)
      (checkDepth { d with variadicAlternatives := held } place u) := by
  rw [checkDepth, checkDepth, h.depth_eq]
  split
  · exact .error _
  · exact .ok h

/-- A quantifier repeats the last part on both sides, or is refused on both: because nothing stands
before it, because its range is none, or because the tree gets too deep. -/
theorem Level.Agrees.repeatLast (h : l.Agrees l') (bounds : Except BoundsError Bounds)
    (spelling : List Char) (place : Nat) :
    Agreed Level.Agrees (repeatLast d l bounds spelling place)
      (repeatLast { d with variadicAlternatives := held } l' bounds spelling place) := by
  obtain ⟨_, _, _, parts⟩ := l
  obtain ⟨_, _, _, parts'⟩ := l'
  obtain ⟨hstart, hoptionStart, hoptions, hparts⟩ := h
  cases hparts with
  | nil => exact .error _
  | cons hpart hparts =>
    cases bounds with
    | error e => exact .error _
    | ok b =>
      refine (agreed_checkDepth (hpart.toAgrees.repeated b _ _) place).bind fun hbody => ?_
      exact .ok ⟨hstart, hoptionStart, hoptions, .cons hbody hparts⟩

/-! ## Reading -/

/-- From levels that agree, the rest of a text is read alike. By induction on the reading under the
first dialect. The levels around the one in progress agree as well, so there are equally many of
them, and which case reading is in depends on the text and on their number alone. -/
theorem agreed_readRest {index : Nat} {outer outer' : List Level} {cs : List Char}
    (h : l.Agrees l') (houter : List.Forall₂ Level.Agrees outer outer') :
    Agreed Tree.Agrees (readRest d index l outer cs)
      (readRest { d with variadicAlternatives := held } index l' outer' cs) := by
  fun_induction readRest d index l outer cs generalizing l' outer' with
  | case1 index level =>
    cases houter
    rw [readRest_end]
    exact h.tree index
  | case2 index level head tail =>
    cases houter
    rw [readRest_unclosed, h.start_eq]
    exact .error _
  | case3 index level outer rest hdeep =>
    rw [houter.length_eq] at hdeep
    rw [readRest_open, if_pos hdeep]
    exact .error _
  | case4 index level outer rest hdeep ih =>
    rw [houter.length_eq] at hdeep
    rw [readRest_open, if_neg hdeep]
    exact ih (.begin _) (.cons h houter)
  | case5 index level rest =>
    cases houter
    rw [readRest_stray]
    exact .error _
  | case6 index level rest around outer _ ih =>
    cases houter with
    | cons haround houter =>
      rw [readRest_close, h.start_eq]
      -- the inner tree may be a chain on one side, but the group around it is none
      refine (h.tree index).bind fun hinner => ?_
      refine (agreed_checkDepth (hinner.group _) _).bind fun hgroup => ?_
      exact ih _ (haround.push hgroup) houter
  | case7 index level outer c rest _ _ hliteral ih =>
    rw [readRest_letter hliteral]
    exact ih (h.push (.char _ _)) houter
  | case8 index level outer rest _ _ _ ih =>
    rw [readRest_bar]
    exact (h.bar index).bind fun hl => ih _ hl houter
  | case9 index level outer c rest _ _ _ _ hbrace hsplit =>
    -- a range in braces is only looked at if the dialect has it, which both have or neither
    obtain ⟨rfl, hbounded⟩ := hbrace
    rw [readRest_brace (d := { d with variadicAlternatives := held }) hbounded, hsplit]
    exact .error _
  | case10 index level outer c rest _ _ _ _ hbrace body rest' hsplit _ ih =>
    obtain ⟨rfl, hbounded⟩ := hbrace
    rw [readRest_brace (d := { d with variadicAlternatives := held }) hbounded, hsplit]
    -- the numbers are taken from the text alone
    refine Agreed.bind_same fun counts => ?_
    exact (h.repeatLast _ _ _).bind fun hl => ih _ hl houter
  | case11 index level outer c rest _ _ _ _ _ b hb ih =>
    rw [readRest_quantifier hb]
    exact (h.repeatLast _ _ _).bind fun hl => ih _ hl houter
  | case12 index level outer c rest hopen hclose hliteral hbar hbrace hb =>
    rw [readRest_unknown (d := { d with variadicAlternatives := held }) hopen hclose hliteral hbar
      hbrace hb]
    exact .error _

/-- A text is read alike under both dialects. Pairing the parentheses is the same step in both, and
so is looking for an empty text. -/
theorem agreed_parse (d : Dialect) (held : Bool) (s : String) :
    Agreed Tree.Agrees (parse d s) (parse { d with variadicAlternatives := held } s) := by
  rw [parse, parse, parseChars, parseChars]
  refine Agreed.bind_same fun _ => ?_
  split
  · exact .error _
  · exact agreed_readRest (.begin 0) .nil

end Parser

/-! ## Smallest automata -/

open Regex

/-- However alternatives are held, a text is refused with the same error, or it is read as a tree
of the same depth and the smallest automaton of the pattern is the same, whatever the pattern was
used for before. -/
theorem Parser.alternatives_agree (d : Dialect) (s : String) :
    (∃ e, parse { d with variadicAlternatives := true } s = .error e ∧
      parse { d with variadicAlternatives := false } s = .error e) ∨
    ∃ t u, parse { d with variadicAlternatives := true } s = .ok t ∧
      parse { d with variadicAlternatives := false } s = .ok u ∧ t.depth = u.depth ∧
      ∀ {strict strict' : Bool} {b c : Bench},
        Used s { d with variadicAlternatives := true } strict b →
        Used s { d with variadicAlternatives := false } strict' c →
        ∃ h b' k c', Access.minimalDfa b = .ok h b' ∧ Access.minimalDfa c = .ok k c' ∧
          b'.workspace.drawing h = c'.workspace.drawing k := by
  have hagreed := agreed_parse { d with variadicAlternatives := true } false s
  generalize hread : parse { d with variadicAlternatives := true } s = x at hagreed
  generalize hread' : parse { d with variadicAlternatives := false } s = y at hagreed
  cases hagreed with
  | error e => exact Or.inl ⟨e, rfl, rfl⟩
  | @ok t u hagrees =>
    refine Or.inr ⟨t, u, rfl, rfl, hagrees.depth_eq, fun hb hc => ?_⟩
    -- the smallest automaton is drawn from the language, which the trees have in common
    obtain ⟨h, b', hrun, _, hoffers⟩ := Access.yields_stage .minimalDfa _ (hb.good hread)
    obtain ⟨k, c', hrun', _, hoffers'⟩ := Access.yields_stage .minimalDfa _ (hc.good hread')
    rw [hagrees.language_eq] at hoffers
    exact ⟨h, b', k, c', hrun, hrun', hoffers.drawing_eq hoffers'⟩

/-- For three options, one of which holds alternatives again. -/
theorem Parser.alternatives_agree_nested :
    ∃ t u h b' k c', parse { variadicAlternatives := true } "a|(b|)*|c" = .ok t ∧
      parse {} "a|(b|)*|c" = .ok u ∧ t.depth = u.depth ∧
      Access.minimalDfa ⟨{ pattern := "a|(b|)*|c", dialect := { variadicAlternatives := true } },
        {}⟩ = .ok h b' ∧
      Access.minimalDfa ⟨{ pattern := "a|(b|)*|c" }, {}⟩ = .ok k c' ∧
      b'.workspace.drawing h = c'.workspace.drawing k := by
  have hread : ∃ t, parse { variadicAlternatives := true } "a|(b|)*|c" = .ok t :=
    ⟨_, by with_unfolding_all rfl⟩
  rcases alternatives_agree {} "a|(b|)*|c" with ⟨e, he, _⟩ | ⟨t, u, ht, hu, hdepth, hagree⟩
  · obtain ⟨t, ht⟩ := hread
    rw [ht] at he
    cases he
  · obtain ⟨h, b', k, c', hrun, hrun', heq⟩ := hagree (.fresh {}) (.fresh {})
    exact ⟨t, u, h, b', k, c', ht, hu, hdepth, hrun, hrun', heq⟩

end PatternAutomata
