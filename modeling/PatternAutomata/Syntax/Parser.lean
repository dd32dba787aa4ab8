/-
Reading patterns.

A pattern is read from left to right. What has been read of each group that is still
open, and of the whole text around them, is kept as a `Level`: the options that a bar
has finished and the parts of the option in progress. An opening parenthesis starts a
new level, a closing one finishes the innermost level and makes it a part of the level
around it. A repetition takes the place of the part before it.

Parentheses are paired up before anything else, so a text with a parenthesis that has
no partner is reported as such whatever else is wrong with it. After that, faults are
reported in the order in which reading meets them.
-/
import PatternAutomata.Syntax.Parens
import PatternAutomata.Text.Digit

set_option autoImplicit false

namespace PatternAutomata

/-- What a pattern may contain. -/
structure Dialect where
  /-- Whether an option may be left empty, to stand for the empty text. -/
  allowImplicitEmpty : Bool := true
  /-- Whether options between bars are held side by side, not in a chain. -/
  variadicAlternatives : Bool := false
  /-- Whether ranges of repetition may be written in braces. -/
  boundedRepetition : Bool := false
  /-- How deep groups and repetitions may be nested. -/
  maxDepth : Int := 100

namespace Parser

/-- Letters and digits stand for themselves. -/
def isLiteral (c : Char) : Bool := c.isAlphanum

/-- The range that a single character asks for. -/
def boundsOfChar? (c : Char) : Option Bounds :=
  if c = '+' then some .plus
  else if c = '*' then some .star
  else if c = '?' then some .optional
  else none

/-! ## Ranges in braces -/

/-- The text up to the brace that closes a range, and the text after that brace. There
is none if the group around the range ends first; `nested` counts the parentheses that
were opened inside the range. -/
def splitRange (nested : Nat) : List Char → Option (List Char × List Char)
  | [] => none
  | c :: cs =>
    if c = '\x7d' then some ([], cs)
    else if c = '(' then (splitRange (nested + 1) cs).map fun (body, rest) => (c :: body, rest)
    else if c = ')' then
      match nested with
      | 0 => none
      | n + 1 => (splitRange n cs).map fun (body, rest) => (c :: body, rest)
    else (splitRange nested cs).map fun (body, rest) => (c :: body, rest)

/-- Splitting off a range loses nothing but its closing brace. By the recursion of the splitting
itself, with one case for each kind of character; parentheses only change the count of what is
nested. -/
theorem eq_append_of_splitRange {nested : Nat} {cs body rest : List Char}
    (h : splitRange nested cs = some (body, rest)) : cs = body ++ '\x7d' :: rest := by
  induction cs generalizing nested body with
  | nil => nomatch h
  | cons c cs ih =>
    have keep : ∀ {n : Nat}, (splitRange n cs).map (fun p => (c :: p.1, p.2)) = some (body, rest) →
        c :: cs = body ++ '\x7d' :: rest := fun hn => by
      obtain ⟨⟨b, r⟩, hb, e⟩ := Option.map_eq_some_iff.1 hn
      obtain ⟨rfl, rfl⟩ := Prod.mk.inj e
      rw [ih hb, List.cons_append]
    unfold splitRange at h
    split at h
    · simp_all
    split at h
    · exact keep h
    split at h
    · split at h
      · nomatch h
      · exact keep h
    · exact keep h

/-- What is left after a range is shorter, so that reading comes to an end. -/
theorem length_lt_of_splitRange {nested : Nat} {cs body rest : List Char}
    (h : splitRange nested cs = some (body, rest)) : rest.length < cs.length := by
  rw [eq_append_of_splitRange h, List.length_append, List.length_cons]
  omega

/-- Whether characters have the form of a count. -/
def isCount (cs : List Char) : Bool := !cs.isEmpty && cs.all Text.isDigit

/-- The value of a count. -/
def count (cs : List Char) : Except ParseError Nat :=
  match Text.numeral? cs with
  | some n => .ok n
  | none => .error (.numeral (String.ofList cs))

/-- The counts of a range from the characters between its braces: one count, a count
and a comma, or two counts with a comma between them. -/
def countsOfRange (place : Nat) (body : List Char) : Except ParseError (Nat × Option Nat) :=
  let low := body.takeWhile (· ≠ ',')
  let high := (body.dropWhile (· ≠ ',')).drop 1
  if isCount low && (high.isEmpty || isCount high) then do
    let lo ← count low
    if ',' ∉ body then return (lo, some lo)
    else if high.isEmpty then return (lo, none)
    else return (lo, some (← count high))
  else .error (.malformed ⟨.malformedRange (String.ofList body), place⟩)

/-! ## Levels -/

/-- What has been read of a group, or of the whole text: where it starts, its finished
options with the places of the bars that end them, where the option in progress starts,
and the parts of that option. Options and parts are kept latest first. -/
structure Level where
  start : Nat
  options : List (Tree × Nat)
  optionStart : Nat
  parts : List Tree

/-- A level of which nothing has been read. -/
def Level.begin (start : Nat) : Level := ⟨start, [], start, []⟩

/-- The level with one more part. -/
def Level.push (l : Level) (t : Tree) : Level := { l with parts := t :: l.parts }

/-- The option in progress as a tree, if it ends here. -/
def Level.option (d : Dialect) (l : Level) (stop : Nat) : Except ParseError Tree :=
  match l.parts with
  | [t] => .ok t
  | [] =>
    if d.allowImplicitEmpty then .ok (.concat [] (.between l.optionStart stop))
    else .error (.malformed ⟨.emptySubexpression, l.optionStart⟩)
  | parts => .ok (.concat parts.reverse (.between l.optionStart stop))

/-- The level after a bar. -/
def Level.bar (d : Dialect) (l : Level) (place : Nat) : Except ParseError Level := do
  let t ← l.option d place
  return ⟨l.start, (t, place) :: l.options, place + 1, []⟩

/-- The whole level as a tree, if it ends here. -/
def Level.tree (d : Dialect) (l : Level) (stop : Nat) : Except ParseError Tree := do
  let last ← l.option d stop
  if l.options.isEmpty then return last
  else if d.variadicAlternatives then
    return .anyOf (l.options.reverse.map (·.1) ++ [last])
      (l.options.reverse.map fun o => some (o.2 : Int)) (.between l.start stop)
  else return l.options.foldl (fun right o => .either o.1 right (some o.2)) last

/-! ## Reading -/

/-- Refuses a tree that is deeper than allowed. -/
def checkDepth (d : Dialect) (place : Nat) (t : Tree) : Except ParseError Tree :=
  if (t.depth : Int) > d.maxDepth then
    .error (.malformed ⟨.expressionTooDeep d.maxDepth, place⟩)
  else .ok t

/-- Puts a repetition in place of the latest part of a level. -/
def repeatLast (d : Dialect) (l : Level) (bounds : Except BoundsError Bounds)
    (spelling : List Char) (place : Nat) : Except ParseError Level :=
  match l.parts with
  | [] => .error (.malformed ⟨.danglingQuantifier (String.ofList spelling), place⟩)
  | body :: parts =>
    match bounds with
    | .error e => .error (.range e)
    | .ok b => do
      let t ← checkDepth d place
        (.repeated b body (String.ofList spelling) (.between place (place + spelling.length)))
      return { l with parts := t :: parts }

/-- Reads the rest of a text, whose first character has the given index. `outer` holds
the levels around the innermost one, from the inside out. -/
def readRest (d : Dialect) (index : Nat) (level : Level) (outer : List Level)
    (cs : List Char) : Except ParseError Tree :=
  match cs with
  | [] =>
    match outer with
    | [] => level.tree d index
    | _ :: _ => .error (.malformed ⟨.neverClosed, (level.start : Int) - 1⟩)
  | c :: rest =>
    if c = '(' then
      if (outer.length + 2 : Nat) > d.maxDepth then
        .error (.malformed ⟨.groupsTooDeep d.maxDepth, index⟩)
      else readRest d (index + 1) (.begin (index + 1)) (level :: outer) rest
    else if c = ')' then
      match outer with
      | [] => .error (.malformed ⟨.unmatchedClosing, index⟩)
      | around :: outer => do
        let inner ← level.tree d index
        let t ← checkDepth d (level.start - 1)
          (.group inner (.between (level.start - 1) (index + 1)))
        readRest d (index + 1) (around.push t) outer rest
    else if isLiteral c then
      readRest d (index + 1) (level.push (.char (.ofChar c) (some index))) outer rest
    else if c = '|' then do
      readRest d (index + 1) (← level.bar d index) outer rest
    else if c = '\x7b' ∧ d.boundedRepetition then
      match h : splitRange 0 rest with
      | none => .error (.malformed ⟨.rangeNeverClosed, index⟩)
      | some (body, rest') => do
        have : rest'.length < rest.length := length_lt_of_splitRange h
        let (lo, hi) ← countsOfRange index body
        let spelling := '\x7b' :: body ++ ['\x7d']
        let level ← repeatLast d level (Bounds.ofNats lo hi) spelling index
        readRest d (index + spelling.length) level outer rest'
    else
      match boundsOfChar? c with
      | some b => do
        readRest d (index + 1) (← repeatLast d level (.ok b) [c] index) outer rest
      | none => .error (.malformed ⟨.unknownCharacter c, index⟩)
termination_by cs.length
decreasing_by all_goals simp_all; try omega

/-! ### What a character does -/

section Steps

variable {d : Dialect} {index : Nat} {level around : Level} {outer : List Level} {c : Char}
  {rest : List Char}

/-- At the end of the text the only level that is left becomes the tree. This and the equations
below say what each kind of character does; the proofs about reading use them and never open the
definition. -/
theorem readRest_end : readRest d index level [] [] = level.tree d index := readRest.eq_1 ..

/-- At the end of the text a group that is still open is a fault at its parenthesis. Since
parentheses were paired up before, a pattern never gets here. -/
theorem readRest_unclosed : readRest d index level (around :: outer) [] =
    .error (.malformed ⟨.neverClosed, (level.start : Int) - 1⟩) := readRest.eq_2 ..

/-- An opening parenthesis starts a level, unless groups are nested too deep already. -/
theorem readRest_open : readRest d index level outer ('(' :: rest) =
    if (outer.length + 2 : Nat) > d.maxDepth then
      .error (.malformed ⟨.groupsTooDeep d.maxDepth, index⟩)
    else readRest d (index + 1) (.begin (index + 1)) (level :: outer) rest := by
  rw [readRest.eq_def]
  rfl

/-- A closing parenthesis finishes the innermost level and makes it a group in the level around it.
The span of the group takes in both parentheses. -/
theorem readRest_close : readRest d index level (around :: outer) (')' :: rest) = (do
    let inner ← level.tree d index
    let t ← checkDepth d (level.start - 1) (.group inner (.between (level.start - 1) (index + 1)))
    readRest d (index + 1) (around.push t) outer rest) := by
  rw [readRest.eq_def]
  rfl

/-- A closing parenthesis that closes nothing is a fault. This too was ruled out by pairing up. -/
theorem readRest_stray : readRest d index level [] (')' :: rest) =
    .error (.malformed ⟨.unmatchedClosing, index⟩) := by
  rw [readRest.eq_def]
  rfl

/-- A letter or digit is one more part of the level in progress. -/
theorem readRest_letter (hc : isLiteral c = true) : readRest d index level outer (c :: rest) =
    readRest d (index + 1) (level.push (.char (.ofChar c) (some index))) outer rest := by
  have hopen : c ≠ '(' := by
    rintro rfl
    cases hc
  have hclose : c ≠ ')' := by
    rintro rfl
    cases hc
  rw [readRest.eq_def]
  simp only [if_neg hopen, if_neg hclose, if_pos hc]

theorem readRest_bar : readRest d index level outer ('|' :: rest) = (do
    readRest d (index + 1) (← level.bar d index) outer rest) := by
  rw [readRest.eq_def]
  rfl

theorem readRest_brace (hd : d.boundedRepetition = true) :
    readRest d index level outer ('\x7b' :: rest) =
      match splitRange 0 rest with
      | none => .error (.malformed ⟨.rangeNeverClosed, index⟩)
      | some (body, rest') => (do
        let (lo, hi) ← countsOfRange index body
        let level ← repeatLast d level (Bounds.ofNats lo hi) ('\x7b' :: body ++ ['\x7d']) index
        readRest d (index + ('\x7b' :: body ++ ['\x7d']).length) level outer rest') := by
  rw [readRest.eq_def]
  simp only [hd, isLiteral, show ('\x7b' : Char).isAlphanum = false from rfl, Char.reduceEq,
    Bool.false_eq_true, if_false, and_self, if_true]
  split
  · next hnone => rw [hnone]
  · next hsome => rw [hsome]

/-- A sign for a repetition takes the place of the latest part, if there is one. -/
theorem readRest_quantifier {b : Bounds} (hc : boundsOfChar? c = some b) :
    readRest d index level outer (c :: rest) = (do
      readRest d (index + 1) (← repeatLast d level (.ok b) [c] index) outer rest) := by
  have hother : c ≠ '(' ∧ c ≠ ')' ∧ isLiteral c = false ∧ c ≠ '|' ∧ c ≠ '\x7b' := by
    rw [boundsOfChar?] at hc
    split at hc
    · next h =>
      rw [h]
      decide
    split at hc
    · next h =>
      rw [h]
      decide
    split at hc
    · next h =>
      rw [h]
      decide
    · cases hc
  rw [readRest.eq_def]
  simp only [if_neg hother.1, if_neg hother.2.1, hother.2.2.1, if_neg hother.2.2.2.1,
    Bool.false_eq_true, if_false, hother.2.2.2.2, false_and, hc]

/-- Whatever is none of all these cannot be read. An opening brace is among them unless the dialect
has ranges. -/
theorem readRest_unknown (hopen : c ≠ '(') (hclose : c ≠ ')') (hletter : ¬isLiteral c = true)
    (hbar : c ≠ '|') (hbrace : ¬(c = '\x7b' ∧ d.boundedRepetition = true))
    (hc : boundsOfChar? c = none) : readRest d index level outer (c :: rest) =
      .error (.malformed ⟨.unknownCharacter c, index⟩) := by
  rw [readRest.eq_def]
  simp only [if_neg hopen, if_neg hclose, if_neg hletter, if_neg hbar, if_neg hbrace, hc]

end Steps

/-- The tree of a pattern given as its characters. -/
def parseChars (d : Dialect) (cs : List Char) : Except ParseError Tree := do
  let _ ← (Parens.pair cs).mapError .malformed
  if 1 > d.maxDepth then .error (.malformed ⟨.groupsTooDeep d.maxDepth, -1⟩)
  else readRest d 0 (.begin 0) [] cs

/-- The tree of a pattern. -/
def parse (d : Dialect) (s : String) : Except ParseError Tree := parseChars d s.toList

end Parser

end PatternAutomata
