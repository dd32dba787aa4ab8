/-
What an edge of an automaton reads.

An edge reads one symbol or nothing. A symbol is any text, so that alphabets are not
tied to single characters; the edge that reads nothing comes first wherever labels
are listed, and symbols follow by their code points.
-/
import PatternAutomata.Ordered.Map
import PatternAutomata.Text.Quoted

set_option autoImplicit false

namespace PatternAutomata

open Std

/-- The label of an edge: nothing to read, or one symbol. -/
inductive Label where
  | epsilon
  | symbol (text : String)
  deriving DecidableEq, Inhabited

namespace Label

/-- The symbol, if there is one. -/
def symbol? : Label → Option String
  | epsilon => none
  | symbol s => some s

/-- A label is fixed by the symbol it reads, the silent one by reading none. The order of labels is
the order of these, and inherits its laws through this. -/
theorem symbol?_injective {a b : Label} (h : a.symbol? = b.symbol?) : a = b := by
  cases a <;> cases b <;> simp_all [symbol?]

instance : Ord Label := ⟨fun a b => compare a.symbol? b.symbol?⟩

theorem compare_def (a b : Label) : compare a b = compare a.symbol? b.symbol? := rfl

instance : TransOrd Label where
  eq_swap {a b} := by
    rw [compare_def, compare_def]
    exact OrientedCmp.eq_swap
  isLE_trans {a b c} := by
    rw [compare_def, compare_def, compare_def]
    exact TransCmp.isLE_trans

instance : LawfulEqOrd Label where
  compare_self {a} := by
    rw [compare_def]
    exact ReflCmp.compare_self
  eq_of_compare {a b} h := by
    rw [compare_def] at h
    exact symbol?_injective (LawfulEqCmp.eq_of_compare h)

/-- The label that reads one character. -/
def ofChar (c : Char) : Label := .symbol (String.singleton c)

/-- The characters read. -/
def text : Label → String
  | epsilon => ""
  | symbol s => s

/-- How a label is shown. -/
def shown : Label → String
  | epsilon => "<EPSILON>"
  | symbol s => Text.quoted s

/-- The labels that read the characters of a text one by one. -/
def ofText (s : String) : List Label := s.toList.map ofChar

end Label

/-- A set of labels. -/
abbrev Alphabet := OrdSet Label

end PatternAutomata
