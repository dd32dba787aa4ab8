/-
The two ways to show a tree.

`Tree.write` gives a pattern for the tree. It adds parentheses only where a choice, or
a sequence of other than one part, stands inside a sequence or under a repetition:
there the pattern would otherwise be read differently. `Tree.describe` spells the tree
out node by node.
-/
import PatternAutomata.Syntax.Tree

set_option autoImplicit false

namespace PatternAutomata.Tree

/-- Whether a tree has to be put in parentheses inside a sequence or under a
repetition. -/
def needsGroup : Tree → Bool
  | either .. => true
  | anyOf .. => true
  | concat parts _ => parts.length ≠ 1
  | _ => false

/-- Characters in parentheses, if asked for. -/
def parenthesizedIf (wanted : Bool) (cs : List Char) : List Char :=
  if wanted then '(' :: cs ++ [')'] else cs

mutual

/-- The characters of a pattern for the tree. -/
def write : Tree → List Char
  | char label _ => label.text.toList
  | concat parts _ => writeParts parts
  | group inner _ => '(' :: write inner ++ [')']
  | either l r _ => write l ++ '|' :: write r
  | anyOf options .. => writeOptions options
  | repeated _ body spelling _ =>
    parenthesizedIf body.needsGroup (write body) ++ spelling.toList

/-- The parts of a sequence, one after the other. -/
def writeParts : List Tree → List Char
  | [] => []
  | t :: ts => parenthesizedIf t.needsGroup (write t) ++ writeParts ts

/-- Options with a bar between each two. -/
def writeOptions : List Tree → List Char
  | [] => []
  | [t] => write t
  | t :: ts => write t ++ '|' :: writeOptions ts

end

/-- A pattern for the tree. -/
def toText (t : Tree) : String := String.ofList t.write

/-- The numbers of a range, the missing limit as `None`. -/
def describeBounds (b : Bounds) : String :=
  toString b.lo ++ ", " ++ (b.hi.elim "None" toString)

mutual

/-- The tree spelled out node by node. -/
def describe : Tree → String
  | char label _ => "Character(" ++ label.shown ++ ")"
  | concat parts _ => "Concat(" ++ Text.bracketed (describeAll parts) ++ ")"
  | group inner _ => "Paren(" ++ describe inner ++ ")"
  | either l r _ => "Alternation(" ++ describe l ++ ", " ++ describe r ++ ")"
  | anyOf options .. => "VariadicAlternation(" ++ Text.bracketed (describeAll options) ++ ")"
  | repeated b body .. => "Quantifier(" ++ describeBounds b ++ ", " ++ describe body ++ ")"

/-- Each of some trees spelled out. -/
def describeAll : List Tree → List String
  | [] => []
  | t :: ts => describe t :: describeAll ts

end

end PatternAutomata.Tree
