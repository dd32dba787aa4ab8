/-
What is written is read with its meaning.

A tree can have shapes that no pattern is read as: choices among the options of a choice, rows
of one part, empty rows under a repetition. Written out it may be read as another tree, but as
one that describes the same words (`Parser.exists_parse_toText`). The argument goes through the
grammar: the characters of any tree are a choice for its language, and with the parentheses that
the printer adds they are a part for it (`Tree.Reread`). Each operation on languages has a
phrase that stands for it.

How deep a pattern may be nested makes no difference to the grammar (`Derives.withDepth`), so the
tree that is read is the same for all depths that suffice.
-/
import PatternAutomata.Proofs.Grammar.Completeness
import PatternAutomata.Proofs.Grammar.Printing
import PatternAutomata.Syntax.Language

set_option autoImplicit false

namespace PatternAutomata

variable {d : Dialect} {i : Nat} {cs cs' : List Char}

/-! ## Depth -/

/-- A quantifier does not ask how deep a pattern may be nested. -/
theorem Quantifier.withDepth {q : List Char} {b : Bounds} (h : Quantifier d q b) (depth : Int) :
    Quantifier { d with maxDepth := depth } q b := by
  cases h with
  | star => exact .star
  | plus => exact .plus
  | optional => exact .optional
  | exactly bounded lo => exact .exactly bounded lo
  | atLeast bounded lo => exact .atLeast bounded lo
  | between bounded lo hi le =>
    exact Quantifier.between (d := { d with maxDepth := depth }) bounded lo hi le

/-- The grammar does not ask how deep a pattern may be nested. Only reading does. -/
theorem Derives.withDepth {p : Phrase} (h : Derives d i cs p) (depth : Int) :
    Derives { d with maxDepth := depth } i cs p := by
  induction h with
  | letter literal => exact .letter literal
  | group _ ih => exact .group ih
  | quantified _ quantifier ih => exact .quantified ih (quantifier.withDepth depth)
  | none => exact .none
  | more _ _ ih ih' => exact .more ih ih'
  | option _ empty ih => exact .option ih empty
  | first _ ih => exact .first ih
  | next _ _ ih ih' => exact .next ih ih'
  | choice _ ih => exact .choice ih

/-! ## Ranges -/

/-- The character of a digit has the value of the digit. -/
theorem decimalValue?_digitChar {v : Nat} (h : v < 10) :
    Text.decimalValue? v.digitChar = some v := by
  have hall : ∀ v < 10, Text.decimalValue? v.digitChar = some v := by decide
  exact hall v h

/-- The decimal digits of a number are a numeral for it. -/
theorem numeral_toDigits (n : Nat) : Numeral (Nat.toDigits 10 n) n := by
  induction n using Nat.strongRecOn with
  | _ n ih =>
    rw [Nat.toDigits_eq_if (by decide)]
    split
    · next hlt => exact .digit (decimalValue?_digitChar hlt)
    · next hge =>
      have hrow := (ih (n / 10) (by omega)).append
        (decimalValue?_digitChar (Nat.mod_lt n (by decide)))
      rwa [Nat.div_add_mod] at hrow

/-- So the text of a number is a numeral for it. -/
theorem numeral_toString (n : Nat) : Numeral (toString n).toList n := by
  rw [Nat.toString_eq_repr, Nat.toList_repr]
  exact numeral_toDigits n

/-- The shortest way to write a range is a quantifier for it. The cases are those of writing it: the
three single characters, at least a number, exactly a number, or between two numbers. -/
theorem quantifier_text (hd : d.boundedRepetition = true) (b : Bounds) :
    Quantifier d b.text.toList b := by
  obtain ⟨lo, hi, le⟩ := b
  rw [Bounds.text]
  split
  case h_1 hlo hhi =>
    obtain rfl : lo = 0 := hlo
    obtain rfl : hi = none := hhi
    exact .star
  case h_2 hlo hhi =>
    obtain rfl : lo = 1 := hlo
    obtain rfl : hi = none := hhi
    exact .plus
  case h_3 hlo hhi =>
    obtain rfl : lo = 0 := hlo
    obtain rfl : hi = some 1 := hhi
    exact .optional
  case h_4 hhi _ _ =>
    obtain rfl : hi = none := hhi
    have hchars : ("\x7b" ++ toString lo ++ ",\x7d").toList =
        '\x7b' :: ((toString lo).toList ++ [',']) ++ ['\x7d'] := by
      simp only [String.toList_append]
      simp
    rw [hchars]
    exact .atLeast hd (numeral_toString lo)
  case h_5 k hhi _ =>
    obtain rfl : hi = some k := hhi
    split
    · next heq =>
      obtain rfl : lo = k := heq
      have hchars : ("\x7b" ++ toString lo ++ "\x7d").toList =
          '\x7b' :: (toString lo).toList ++ ['\x7d'] := by
        simp only [String.toList_append]
        simp
      rw [hchars]
      exact .exactly hd (numeral_toString lo)
    · have hchars : ("\x7b" ++ toString lo ++ "," ++ toString k ++ "\x7d").toList =
          '\x7b' :: ((toString lo).toList ++ ',' :: (toString k).toList) ++ ['\x7d'] := by
        simp only [String.toList_append]
        simp
      rw [hchars]
      exact .between hd (numeral_toString lo) (numeral_toString k) (le k rfl)

/-! ## Options after options -/

/-- A choice may be followed by a bar and a choice. By induction on the second one, whose options
are added from the left. -/
theorem Derives.options_append {ended ended' : List (Tree × Nat)} {t u : Tree}
    (h : Derives d i cs (.options ended t))
    (h' : Derives d (i + cs.length + 1) cs' (.options ended' u)) :
    Derives d i (cs ++ '|' :: cs') (.options (ended ++ (t, i + cs.length) :: ended') u) := by
  -- the later options are added one by one
  generalize hp : Phrase.options ended' u = p at h'
  generalize hj : i + cs.length + 1 = j at h'
  induction h' generalizing ended' u with
  | first option =>
    cases hp
    rw [← hj] at option
    exact h.next option
  | @next j cs' cs'' ended' _ _ _ option ih _ =>
    cases hp
    subst hj
    have hrow := ih rfl rfl
    have hstop : i + cs.length + 1 + cs'.length = i + (cs ++ '|' :: cs').length := by
      rw [List.length_append, List.length_cons]
      omega
    rw [hstop] at option ⊢
    have hnext := hrow.next option
    simpa only [List.append_assoc, List.cons_append] using hnext
  | _ => cases hp

/-! ## Phrases for languages -/

namespace Tree

/-- An option describes what its parts describe one after the other. -/
theorem language_sequence (start stop : Nat) (ts : List Tree) :
    (sequence start stop ts).language = languageOfSequence ts := by
  rw [sequence.eq_def]
  split
  · rw [languageOfSequence_singleton]
  · rw [language]

/-- A chain describes what any of its options describes. -/
theorem language_foldr_either (ended : List (Tree × Nat)) (last : Tree) :
    (ended.foldr (fun o right => either o.1 right (some (o.2 : Int))) last).language =
      languageOfChoice (ended.map (·.1) ++ [last]) := by
  induction ended with
  | nil => rw [List.foldr_nil, List.map_nil, List.nil_append, languageOfChoice, languageOfChoice,
      add_zero]
  | cons o ended ih =>
    rw [List.foldr_cons, language, ih, List.map_cons, List.cons_append, languageOfChoice.eq_2]

/-- Side by side or in a chain, a choice describes what any of its options describes. -/
theorem language_choice (start stop : Nat) (ended : List (Tree × Nat)) (last : Tree) :
    (choice d start stop ended last).language =
      languageOfChoice (ended.map (·.1) ++ [last]) := by
  rw [choice]
  split
  · next hnone =>
    rw [hnone, List.map_nil, List.nil_append, languageOfChoice, languageOfChoice, add_zero]
  split
  · rw [language]
  · exact language_foldr_either ended last

end Tree

/-- Wherever they stand in a text, the characters are a part for the language. -/
def IsPart (d : Dialect) (cs : List Char) (L : Language Label) : Prop :=
  ∀ i, ∃ t, Derives d i cs (.part t) ∧ t.language = L

/-- Wherever they stand in a text, the characters are a row of parts for the language. -/
def IsRow (d : Dialect) (cs : List Char) (L : Language Label) : Prop :=
  ∀ i, ∃ ts, Derives d i cs (.parts ts) ∧ Tree.languageOfSequence ts = L

/-- Wherever they stand in a text, the characters are options for the language. -/
def IsChoice (d : Dialect) (cs : List Char) (L : Language Label) : Prop :=
  ∀ i, ∃ ended last, Derives d i cs (.options ended last) ∧
    Tree.languageOfChoice (ended.map (·.1) ++ [last]) = L

section Phrases

variable {L M : Language Label}

/-- A letter or digit is a part wherever it stands. -/
theorem IsPart.letter {c : Char} (literal : c.isAlphanum = true) (place : Option Int) :
    IsPart d [c] (Tree.char (.ofChar c) place).language := fun _ =>
  ⟨_, .letter literal, rfl⟩

/-- A part with a range behind it is a part for the powers in the range. -/
theorem IsPart.repeated (h : IsPart d cs L) (hd : d.boundedRepetition = true) (b : Bounds) :
    IsPart d (cs ++ b.text.toList) (b.powers L) := by
  intro i
  obtain ⟨t, hbody, rfl⟩ := h i
  exact ⟨_, hbody.quantified (quantifier_text hd b), Tree.language.eq_7 ..⟩

/-- Options in parentheses are a part. -/
theorem IsChoice.group (h : IsChoice d cs L) : IsPart d ('(' :: cs ++ [')']) L := by
  intro i
  obtain ⟨ended, last, hinner, rfl⟩ := h (i + 1)
  refine ⟨_, hinner.choice.group, ?_⟩
  rw [Tree.language, Tree.language_choice]

/-- No characters are a row of no parts, which describes the empty word. -/
theorem isRow_nil : IsRow d [] 1 := fun _ => ⟨[], .none, Tree.languageOfSequence.eq_1⟩

/-- A part behind a row makes it longer. -/
theorem IsRow.more (h : IsRow d cs L) (h' : IsPart d cs' M) : IsRow d (cs ++ cs') (L * M) := by
  intro i
  obtain ⟨ts, hrow, rfl⟩ := h i
  obtain ⟨t, hpart, rfl⟩ := h' (i + cs.length)
  refine ⟨_, hrow.more hpart, ?_⟩
  rw [Tree.languageOfSequence_append, Tree.languageOfSequence_singleton]

/-- A row is an option, also if it is empty. -/
theorem IsRow.choice (h : IsRow d cs L) (hd : d.allowImplicitEmpty = true) :
    IsChoice d cs L := by
  intro i
  obtain ⟨ts, hrow, rfl⟩ := h i
  refine ⟨[], _, (hrow.option fun _ => hd).first, ?_⟩
  rw [List.map_nil, List.nil_append, Tree.languageOfChoice, Tree.languageOfChoice, add_zero,
    Tree.language_sequence]

/-- A part is an option by itself. -/
theorem IsPart.choice (h : IsPart d cs L) (hd : d.allowImplicitEmpty = true) :
    IsChoice d cs L := by
  have hrow := isRow_nil.more h
  rw [List.nil_append, one_mul] at hrow
  exact hrow.choice hd

/-- Options with a bar between them are options for either language. -/
theorem IsChoice.bar (h : IsChoice d cs L) (h' : IsChoice d cs' M) :
    IsChoice d (cs ++ '|' :: cs') (L + M) := by
  intro i
  obtain ⟨ended, t, hoptions, rfl⟩ := h i
  obtain ⟨ended', u, hoptions', rfl⟩ := h' (i + cs.length + 1)
  refine ⟨_, u, hoptions.options_append hoptions', ?_⟩
  rw [← Tree.languageOfChoice_append, List.map_append, List.map_cons]
  simp only [List.append_assoc, List.cons_append, List.nil_append]

end Phrases

/-! ## Trees -/

namespace Tree

mutual

/-- Letters are single letters or digits, choices have options, and ranges are spelled in the
shortest way. -/
def Plain : Tree → Prop
  | char l _ => ∃ c, c.isAlphanum = true ∧ l = .ofChar c
  | concat parts _ => AllPlain parts
  | group inner _ => Plain inner
  | either l r _ => Plain l ∧ Plain r
  | anyOf options .. => options ≠ [] ∧ AllPlain options
  | repeated b body spelling _ => spelling = b.text ∧ Plain body

/-- All of some trees are plain. -/
def AllPlain : List Tree → Prop
  | [] => True
  | t :: ts => Plain t ∧ AllPlain ts

end

/-- A tree with the parentheses that it has inside a row or under a repetition. -/
def writePart (t : Tree) : List Char := parenthesizedIf t.needsGroup t.write

/-- A tree is written as options for its language, and as a part for it if it is put in
parentheses where it needs them. -/
structure Reread (d : Dialect) (t : Tree) : Prop where
  isPart : IsPart d t.writePart t.language
  isChoice : IsChoice d t.write t.language

/-- A part needs no parentheses. -/
theorem Reread.of_part {t : Tree} (hd : d.allowImplicitEmpty = true)
    (hplain : t.needsGroup = false) (h : IsPart d t.write t.language) : t.Reread d where
  isPart := by
    rw [writePart, hplain]
    exact h
  isChoice := h.choice hd

/-- A choice is put in parentheses. -/
theorem Reread.of_choice {t : Tree} (hneeds : t.needsGroup = true)
    (h : IsChoice d t.write t.language) : t.Reread d where
  isPart := by
    rw [writePart, hneeds]
    exact h.group
  isChoice := h

/-- Parts that are written after a row make it longer. -/
theorem isRow_append_writeParts {ts : List Tree} (h : ∀ t ∈ ts, t.Reread d)
    {L : Language Label} (hrow : IsRow d cs L) :
    IsRow d (cs ++ writeParts ts) (L * languageOfSequence ts) := by
  induction ts generalizing cs L with
  | nil => rwa [writeParts, List.append_nil, languageOfSequence, mul_one]
  | cons t ts ih =>
    have hpart := (h t List.mem_cons_self).isPart
    have hrest := ih (fun u hu => h u (List.mem_cons_of_mem t hu)) (hrow.more hpart)
    rwa [List.append_assoc, mul_assoc] at hrest

/-- A row of one part is the part; any other row is put in parentheses. -/
theorem reread_concat {ts : List Tree} (hd : d.allowImplicitEmpty = true)
    (h : ∀ t ∈ ts, t.Reread d) (span : Span) : (concat ts span).Reread d := by
  by_cases hone : ts.length = 1
  · obtain ⟨t, rfl⟩ := List.length_eq_one_iff.1 hone
    have hpart := (h t List.mem_cons_self).isPart
    refine .of_part hd (by simp [needsGroup]) ?_
    rwa [write, writeParts, writeParts, List.append_nil, language, languageOfSequence_singleton]
  · refine .of_choice (by simpa [needsGroup] using hone) ?_
    have hrow := (isRow_append_writeParts h isRow_nil).choice hd
    rwa [one_mul] at hrow

/-- Options with bars between them are a choice. -/
theorem isChoice_writeOptions {ts : List Tree} (hts : ts ≠ []) (h : ∀ t ∈ ts, t.Reread d) :
    IsChoice d (writeOptions ts) (languageOfChoice ts) := by
  induction ts with
  | nil => exact absurd rfl hts
  | cons t ts ih =>
    have hfirst := (h t List.mem_cons_self).isChoice
    by_cases hlast : ts = []
    · rwa [hlast, writeOptions, languageOfChoice, languageOfChoice, add_zero]
    · have hrest := ih hlast fun u hu => h u (List.mem_cons_of_mem t hu)
      rw [writeOptions_cons hlast, languageOfChoice]
      exact hfirst.bar hrest

mutual

/-- Whatever shape it has, a plain tree is written as phrases for its language. By induction on the
tree, together with the statement for lists of trees. -/
theorem reread_of_plain (hempty : d.allowImplicitEmpty = true)
    (hbounded : d.boundedRepetition = true) (t : Tree) (h : t.Plain) : t.Reread d := by
  match t with
  | char l place =>
    obtain ⟨c, literal, rfl⟩ : ∃ c, c.isAlphanum = true ∧ l = .ofChar c := by
      simpa only [Plain] using h
    refine .of_part hempty rfl ?_
    have hwrite : (char (.ofChar c) place).write = [c] := String.toList_singleton c
    rw [hwrite]
    exact .letter literal place
  | concat parts span =>
    exact reread_concat hempty (allReread_of_allPlain hempty hbounded parts
      (by simpa only [Plain] using h)) span
  | group inner span =>
    have hinner := reread_of_plain hempty hbounded inner (by simpa only [Plain] using h)
    refine .of_part hempty rfl ?_
    rw [write, language]
    exact hinner.isChoice.group
  | either l r pipe =>
    obtain ⟨hl, hr⟩ : l.Plain ∧ r.Plain := by simpa only [Plain] using h
    -- alternatives are written with a bar, and so read as options of a choice
    refine .of_choice rfl ?_
    rw [write, language]
    exact (reread_of_plain hempty hbounded l hl).isChoice.bar
      (reread_of_plain hempty hbounded r hr).isChoice
  | anyOf options pipes span =>
    obtain ⟨hsome, hall⟩ : options ≠ [] ∧ AllPlain options := by simpa only [Plain] using h
    refine .of_choice rfl ?_
    rw [write, language]
    exact isChoice_writeOptions hsome (allReread_of_allPlain hempty hbounded options hall)
  | repeated b body spelling span =>
    obtain ⟨rfl, hbody⟩ : spelling = b.text ∧ body.Plain := by simpa only [Plain] using h
    refine .of_part hempty rfl ?_
    rw [write, language]
    exact (reread_of_plain hempty hbounded body hbody).isPart.repeated hbounded b

/-- So it is with each of some plain trees. -/
theorem allReread_of_allPlain (hempty : d.allowImplicitEmpty = true)
    (hbounded : d.boundedRepetition = true) (ts : List Tree) (h : AllPlain ts) :
    ∀ t ∈ ts, t.Reread d := by
  match ts with
  | [] => exact fun t ht => absurd ht List.not_mem_nil
  | u :: us =>
    obtain ⟨hu, hus⟩ : u.Plain ∧ AllPlain us := by simpa only [AllPlain] using h
    exact List.forall_mem_cons.2 ⟨reread_of_plain hempty hbounded u hu,
      allReread_of_allPlain hempty hbounded us hus⟩

end

end Tree

/-! ## Whole patterns -/

namespace Parser

/-- What the grammar derives is read under any limit that leaves room for its length. The depth is
no part of what the grammar looks at, so the derivation can be moved to the dialect that allows
`depth`, and there it is read. -/
theorem parse_withDepth {s : String} {t : Tree} (h : Derives d 0 s.toList (.choice t))
    {depth : Int} (hdepth : (3 * s.length + 1 : Nat) ≤ depth) :
    parse { d with maxDepth := depth } s = .ok t :=
  parse_of_derives hdepth (h.withDepth depth)

/-- A plain tree of any shape is written as a pattern, and what the pattern is read as, whenever it
may be nested deep enough, describes the same words as the tree. The tree that is read is found
once, by its derivation, and is the same for all depths. -/
theorem exists_parse_toText {t : Tree} (ht : t.Plain) (d : Dialect)
    (hempty : d.allowImplicitEmpty = true) (hbounded : d.boundedRepetition = true) :
    ∃ u : Tree, u.language = t.language ∧ ∀ depth : Int, (3 * t.toText.length + 1 : Nat) ≤ depth →
      parse { d with maxDepth := depth } t.toText = .ok u := by
  obtain ⟨ended, last, hoptions, hlanguage⟩ :=
    (Tree.reread_of_plain hempty hbounded t ht).isChoice 0
  have htext : t.toText.toList = t.write := by rw [Tree.toText, String.toList_ofList]
  rw [← htext] at hoptions
  refine ⟨_, ?_, fun depth hdepth => parse_withDepth hoptions.choice hdepth⟩
  rw [Tree.language_choice, hlanguage]

/-- A tree of shapes that no pattern is read as: a choice that leans to the left, alone in a row,
and an empty row that is repeated. -/
def unread : Tree :=
  .concat [.concat [.either (.either (.char (.ofChar 'a') none) (.char (.ofChar 'b') none) none)
      (.anyOf [.char (.ofChar 'c') none] [] .unknown) none] .unknown,
    .repeated (.between (Nat.le_succ 2)) (.concat [] .unknown) "\x7b2,3\x7d" .unknown] .unknown

/-- Its letters are letters, its choices have options, and its range is spelled in the shortest
way. -/
theorem plain_unread : unread.Plain := by
  have hletter : ∀ c : Char, c.isAlphanum = true →
      ∃ c', c'.isAlphanum = true ∧ Label.ofChar c = .ofChar c' := fun c hc => ⟨c, hc, rfl⟩
  simp only [unread, Tree.Plain, Tree.AllPlain]
  refine ⟨⟨⟨⟨hletter 'a' rfl, hletter 'b' rfl⟩, List.cons_ne_nil _ _, hletter 'c' rfl, trivial⟩,
    trivial⟩, ⟨?_, trivial⟩, trivial⟩
  with_unfolding_all rfl

/-- It is written as `(a|b|c)(){2,3}`, and that is read as a tree for the same words. -/
theorem exists_parse_unread : unread.toText = "(a|b|c)()\x7b2,3\x7d" ∧
    ∃ u : Tree, u.language = unread.language ∧ ∀ depth : Int,
      (3 * unread.toText.length + 1 : Nat) ≤ depth →
        parse { boundedRepetition := true, maxDepth := depth } unread.toText = .ok u := by
  refine ⟨by with_unfolding_all rfl, ?_⟩
  exact exists_parse_toText plain_unread { boundedRepetition := true } rfl rfl

end Parser

end PatternAutomata
