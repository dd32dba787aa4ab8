/-
Why a text is no pattern.

A `SyntaxError` says what is wrong and at which place. Two faults of a repetition range
have no place: its numbers may form no range, and one of its counts may be written in
digits that write no number. `Diagnostic` is the form in which a syntax error is
reported: a message, a place and the text at fault, the last two if they are known.
-/
import PatternAutomata.Syntax.Tree

set_option autoImplicit false

namespace PatternAutomata

/-- A report about a text. -/
structure Diagnostic where
  summary : String
  position : Option Int
  pattern : Option String
  deriving DecidableEq

/-- The report in words: the summary, and the place if it is known. -/
def Diagnostic.message (d : Diagnostic) : String :=
  match d.position with
  | none => d.summary
  | some p => d.summary ++ " at position " ++ toString p

/-- What is wrong with a text. -/
inductive SyntaxError.Cause where
  | unmatchedClosing
  | neverClosed
  | danglingQuantifier (spelling : String)
  | unknownCharacter (c : Char)
  | emptySubexpression
  | groupsTooDeep (limit : Int)
  | expressionTooDeep (limit : Int)
  | rangeNeverClosed
  | malformedRange (body : String)
  deriving DecidableEq

/-- The wording of the fault. -/
def SyntaxError.Cause.summary : SyntaxError.Cause → String
  | unmatchedClosing => "Unmatched closing parenthesis"
  | neverClosed => "Opening parenthesis was never closed"
  | danglingQuantifier spelling =>
    "Quantifier " ++ Text.quoted spelling ++ " is not quantifying over anything"
  | unknownCharacter c => "Unknown character " ++ Text.quoted (String.singleton c)
  | emptySubexpression => "Empty subexpression"
  | groupsTooDeep limit => "Groups nested more than " ++ toString limit ++ " deep"
  | expressionTooDeep limit => "Expression nested more than " ++ toString limit ++ " deep"
  | rangeNeverClosed => "Repetition range was never closed"
  | malformedRange body => "Malformed repetition range \x7b" ++ body ++ "\x7d"

/-- A fault and the index at which it was found. -/
structure SyntaxError where
  cause : SyntaxError.Cause
  position : Int
  deriving DecidableEq

/-- The report of a fault in a given text. -/
def SyntaxError.report (e : SyntaxError) (pattern : String) : Diagnostic :=
  ⟨e.cause.summary, some e.position, some pattern⟩

/-- Every way in which reading a pattern can fail. -/
inductive ParseError where
  | malformed (fault : SyntaxError)
  | range (fault : BoundsError)
  | numeral (digits : String)
  deriving DecidableEq

/-- What is said of a row of digits that writes no number. The row is shown quoted, cut
off after two hundred characters. -/
def ParseError.numeralMessage (digits : String) : String :=
  "invalid literal for int() with base 10: " ++ String.ofList ((Text.quoted digits).toList.take 200)

end PatternAutomata
