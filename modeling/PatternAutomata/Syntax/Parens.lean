/-
Which parentheses belong together.

One pass over a text keeps the indices of the parentheses that are still open, the
latest first; a closing parenthesis belongs to the latest of them.
-/
import PatternAutomata.Syntax.Error

set_option autoImplicit false

namespace PatternAutomata.Parens

/-- Pairs up the parentheses of the rest of a text, whose first character has the given
index, while some parentheses are open. Of each pair both indices lead to the other. -/
def pairRest (index : Nat) (unclosed : List Nat) (pairs : OrdMap Nat Nat) :
    List Char → Except SyntaxError (OrdMap Nat Nat)
  | [] =>
    match unclosed with
    | [] => .ok pairs
    | i :: _ => .error ⟨.neverClosed, i⟩
  | c :: cs =>
    if c = '(' then pairRest (index + 1) (index :: unclosed) pairs cs
    else if c = ')' then
      match unclosed with
      | [] => .error ⟨.unmatchedClosing, index⟩
      | i :: rest => pairRest (index + 1) rest ((pairs.insert i index).insert index i) cs
    else pairRest (index + 1) unclosed pairs cs

/-- The partner of every parenthesis of a text. -/
def pair (cs : List Char) : Except SyntaxError (OrdMap Nat Nat) := pairRest 0 [] ∅ cs

end PatternAutomata.Parens
