/-
The grammar of patterns.

A pattern is a choice, `B ('|' B)*`; each option `B` is a row of parts; and a part is a letter,
a digit or a choice in parentheses, followed by any number of quantifiers. `Derives` says that a
row of characters is such a phrase, and with which trees: a quantifier takes in the part before
it, parts make an option, and options make a choice. Where the phrase starts in the whole text
is said along with it, since trees know their places.

`Phrase` holds what is read of a phrase of each kind. Rows of parts and options are derived from
left to right, in the order in which they are written.
-/
import Mathlib.Data.List.Induction
import PatternAutomata.Syntax.Parser

set_option autoImplicit false

namespace PatternAutomata

/-! ## Quantifiers -/

/-- A row of decimal digits writes a number in base ten. -/
inductive Numeral : List Char → Nat → Prop where
  | digit {c : Char} {v : Nat} (value : Text.decimalValue? c = some v) : Numeral [c] v
  | append {cs : List Char} {n : Nat} {c : Char} {v : Nat} (row : Numeral cs n)
      (value : Text.decimalValue? c = some v) : Numeral (cs ++ [c]) (10 * n + v)

namespace Bounds

/-- Without a greatest count no count is too great. -/
theorem le_of_mem_none (n : Nat) : ∀ k ∈ (none : Option Nat), n ≤ k := by simp

/-- A greatest count that is not below the least makes a range. -/
theorem le_of_mem_some {n k : Nat} (le : n ≤ k) : ∀ hi ∈ some k, n ≤ hi := by simpa using le

/-- At least some number of times. -/
def atLeast (n : Nat) : Bounds := ⟨n, none, le_of_mem_none n⟩

/-- At least and at most some number of times. -/
def between {n k : Nat} (le : n ≤ k) : Bounds := ⟨n, some k, le_of_mem_some le⟩

/-- Some number of times. -/
def exactly (n : Nat) : Bounds := between (Nat.le_refl n)

end Bounds

/-- The ways to write a range of repetition. Braces are for some dialects only. -/
inductive Quantifier (d : Dialect) : List Char → Bounds → Prop where
  | star : Quantifier d ['*'] .star
  | plus : Quantifier d ['+'] .plus
  | optional : Quantifier d ['?'] .optional
  | exactly {low : List Char} {n : Nat} (bounded : d.boundedRepetition = true)
      (lo : Numeral low n) : Quantifier d ('\x7b' :: low ++ ['\x7d']) (.exactly n)
  | atLeast {low : List Char} {n : Nat} (bounded : d.boundedRepetition = true)
      (lo : Numeral low n) : Quantifier d ('\x7b' :: (low ++ [',']) ++ ['\x7d']) (.atLeast n)
  | between {low high : List Char} {n k : Nat} (bounded : d.boundedRepetition = true)
      (lo : Numeral low n) (hi : Numeral high k) (le : n ≤ k) :
      Quantifier d ('\x7b' :: (low ++ ',' :: high) ++ ['\x7d']) (.between le)

/-! ## Phrases -/

/-- The tree of an option made of some parts: a single part stands for itself. -/
def Tree.sequence (start stop : Nat) : List Tree → Tree
  | [t] => t
  | ts => .concat ts (.between start stop)

/-- The tree of a choice between some options, each of which is ended by a bar at some place, and
a last one: the last one alone if there are no others, or else all options side by side or in a
chain that leans to the right. -/
def Tree.choice (d : Dialect) (start stop : Nat) (ended : List (Tree × Nat)) (last : Tree) : Tree :=
  if ended = [] then last
  else if d.variadicAlternatives then
    .anyOf (ended.map (·.1) ++ [last]) (ended.map fun o => some (o.2 : Int)) (.between start stop)
  else ended.foldr (fun o right => .either o.1 right (some (o.2 : Int))) last

/-- What is read of a phrase: the tree of an atom with its quantifiers, the trees of a row of
such parts, the tree of an option, the options of a choice with the places of the bars between
them, or the tree of a choice. -/
inductive Phrase where
  | part (t : Tree)
  | parts (ts : List Tree)
  | option (t : Tree)
  | options (ended : List (Tree × Nat)) (last : Tree)
  | choice (t : Tree)

/-- A row of characters that starts at a place of the text is a phrase. -/
inductive Derives (d : Dialect) : Nat → List Char → Phrase → Prop where
  | letter {i : Nat} {c : Char} (literal : c.isAlphanum = true) :
      Derives d i [c] (.part (.char (.ofChar c) (some i)))
  | group {i : Nat} {cs : List Char} {t : Tree} (inner : Derives d (i + 1) cs (.choice t)) :
      Derives d i ('(' :: cs ++ [')']) (.part (.group t (.between i (i + cs.length + 2))))
  | quantified {i : Nat} {cs q : List Char} {t : Tree} {b : Bounds}
      (body : Derives d i cs (.part t)) (quantifier : Quantifier d q b) :
      Derives d i (cs ++ q) (.part (.repeated b t (String.ofList q)
        (.between (i + cs.length) (i + cs.length + q.length))))
  | none {i : Nat} : Derives d i [] (.parts [])
  | more {i : Nat} {cs cs' : List Char} {ts : List Tree} {t : Tree}
      (row : Derives d i cs (.parts ts)) (part : Derives d (i + cs.length) cs' (.part t)) :
      Derives d i (cs ++ cs') (.parts (ts ++ [t]))
  | option {i : Nat} {cs : List Char} {ts : List Tree} (row : Derives d i cs (.parts ts))
      (empty : ts = [] → d.allowImplicitEmpty = true) :
      Derives d i cs (.option (.sequence i (i + cs.length) ts))
  | first {i : Nat} {cs : List Char} {t : Tree} (option : Derives d i cs (.option t)) :
      Derives d i cs (.options [] t)
  | next {i : Nat} {cs cs' : List Char} {ended : List (Tree × Nat)} {t u : Tree}
      (options : Derives d i cs (.options ended t))
      (option : Derives d (i + cs.length + 1) cs' (.option u)) :
      Derives d i (cs ++ '|' :: cs') (.options (ended ++ [(t, i + cs.length)]) u)
  | choice {i : Nat} {cs : List Char} {ended : List (Tree × Nat)} {t : Tree}
      (options : Derives d i cs (.options ended t)) :
      Derives d i cs (.choice (.choice d i (i + cs.length) ended t))

namespace Derives

variable {d : Dialect} {i : Nat} {cs : List Char}

/-- The last of some parts can be told apart from the others, and so can the characters of both. -/
theorem parts_concat {ps ts : List Tree} {t : Tree} (h : Derives d i cs (.parts ps))
    (hps : ps = ts ++ [t]) : ∃ before last, cs = before ++ last ∧
      Derives d i before (.parts ts) ∧ Derives d (i + before.length) last (.part t) := by
  cases h with
  | none => exact absurd hps.symm (List.append_ne_nil_of_right_ne_nil ts (List.cons_ne_nil t []))
  | more row part =>
    obtain ⟨rfl, hlast⟩ := List.append_inj' hps rfl
    obtain rfl := List.singleton_inj.1 hlast
    exact ⟨_, _, rfl, row, part⟩

end Derives

/-! ## What holds of all trees -/

/-- A property of trees that holds of letters and passes from trees to those that the grammar
makes of them. -/
structure Dialect.Keeps (d : Dialect) (P : Tree → Prop) : Prop where
  char (c : Char) (place : Option Int) : P (.char (.ofChar c) place)
  concat {ts : List Tree} {span : Span} (parts : ∀ t ∈ ts, P t) : P (.concat ts span)
  group {t : Tree} {span : Span} (inner : P t) : P (.group t span)
  either {l r : Tree} {pipe : Option Int} (left : P l) (right : P r) : P (.either l r pipe)
  anyOf {ts : List Tree} {pipes : List (Option Int)} {span : Span} (nonempty : ts ≠ [])
    (options : ∀ t ∈ ts, P t) : P (.anyOf ts pipes span)
  repeated {q : List Char} {b : Bounds} {t : Tree} {spelling : String} {span : Span}
    (quantifier : Quantifier d q b) (body : P t) : P (.repeated b t spelling span)

/-- The property holds of all that is read of a phrase. -/
def Phrase.All (P : Tree → Prop) : Phrase → Prop
  | .part t | .option t | .choice t => P t
  | .parts ts => ∀ t ∈ ts, P t
  | .options ended last => (∀ o ∈ ended, P o.1) ∧ P last

namespace Dialect.Keeps

variable {d : Dialect} {P : Tree → Prop} {start stop : Nat}

/-- What parts have the option made of them has. -/
theorem sequence (hP : d.Keeps P) {ts : List Tree} (h : ∀ t ∈ ts, P t) :
    P (.sequence start stop ts) := by
  rw [Tree.sequence.eq_def]
  split
  · exact h _ List.mem_cons_self
  · exact hP.concat h

/-- What options have the choice made of them has, in whichever way it is put together. -/
theorem choice (hP : d.Keeps P) {ended : List (Tree × Nat)} {last : Tree}
    (hended : ∀ o ∈ ended, P o.1) (hlast : P last) :
    P (.choice d start stop ended last) := by
  rw [Tree.choice]
  split
  · exact hlast
  split
  · refine hP.anyOf (List.append_ne_nil_of_right_ne_nil _ (List.cons_ne_nil _ _)) ?_
    intro t ht
    rcases List.mem_append.1 ht with ht | ht
    · obtain ⟨o, ho, rfl⟩ := List.mem_map.1 ht
      exact hended o ho
    · rwa [List.mem_singleton.1 ht]
  · clear * - hP hended hlast
    induction ended with
    | nil => exact hlast
    | cons o ended ih =>
      rw [List.foldr_cons]
      exact hP.either (hended o List.mem_cons_self)
        (ih fun o' ho' => hended o' (List.mem_cons_of_mem o ho'))

end Dialect.Keeps

/-- What the grammar keeps up holds of all trees that it derives. By induction on the derivation, so
this need not be done again for each property. -/
theorem Derives.all {d : Dialect} {P : Tree → Prop} {i : Nat} {cs : List Char} {p : Phrase}
    (h : Derives d i cs p) (hP : d.Keeps P) : p.All P := by
  induction h with
  | letter => exact hP.char _ _
  | group _ ih => exact hP.group ih
  | quantified _ quantifier ih => exact hP.repeated quantifier ih
  | none => exact fun t ht => absurd ht List.not_mem_nil
  | more _ _ ih ih' =>
    intro t ht
    rcases List.mem_append.1 ht with ht | ht
    · exact ih t ht
    · rwa [List.mem_singleton.1 ht]
  | option _ _ ih => exact hP.sequence ih
  | first _ ih => exact ⟨nofun, ih⟩
  | next _ _ ih ih' =>
    refine ⟨?_, ih'⟩
    intro o ho
    rcases List.mem_append.1 ho with ho | ho
    · exact ih.1 o ho
    · rw [List.mem_singleton.1 ho]
      exact ih.2
  | choice _ ih => exact hP.choice ih.1 ih.2

/-! ## Numerals -/

/-- A single digit writes its value. -/
theorem Text.numeral?_singleton (c : Char) : Text.numeral? [c] = Text.decimalValue? c := by
  cases h : Text.decimalValue? c <;> simp [Text.numeral?, h]

/-- One digit more makes the number ten times as great and adds its value. -/
theorem Text.numeral?_append (cs : List Char) (c : Char) : Text.numeral? (cs ++ [c]) =
    (Text.numeral? cs).bind fun n => (Text.decimalValue? c).map fun v => 10 * n + v := by
  rw [Text.numeral?, Text.numeral?, List.mapM_append]
  cases cs.mapM Text.decimalValue? <;> cases h : Text.decimalValue? c <;> simp [h]

/-- A row of digits is a numeral for the number that it is read as. Both are built up digit by digit
from the left. -/
theorem numeral_iff {cs : List Char} {n : Nat} :
    Numeral cs n ↔ cs ≠ [] ∧ Text.numeral? cs = some n := by
  constructor
  · intro h
    induction h with
    | digit value => exact ⟨List.cons_ne_nil _ _, by rw [Text.numeral?_singleton, value]⟩
    | append row value ih =>
      refine ⟨List.append_ne_nil_of_right_ne_nil _ (List.cons_ne_nil _ _), ?_⟩
      rw [Text.numeral?_append, ih.2, value]
      rfl
  · rintro ⟨hne, h⟩
    induction cs using List.reverseRecOn generalizing n with
    | nil => exact absurd rfl hne
    | append_singleton cs c ih =>
      cases cs with
      | nil =>
        rw [List.nil_append, Text.numeral?_singleton] at h
        exact .digit h
      | cons c' cs =>
        rw [Text.numeral?_append, Option.bind_eq_some_iff] at h
        obtain ⟨k, hk, h⟩ := h
        obtain ⟨v, hv, rfl⟩ := Option.map_eq_some_iff.1 h
        exact .append (ih (List.cons_ne_nil _ _) hk) hv

/-- A numeral is made of decimal digits. -/
theorem Numeral.isDecimal {cs : List Char} {n : Nat} (h : Numeral cs n) :
    ∀ c ∈ cs, Text.isDecimal c = true :=
  Text.numeral?_isSome.1 (by rw [(numeral_iff.1 h).2]; rfl)

end PatternAutomata
