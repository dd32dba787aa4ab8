/-
Reading.

An automaton reads a symbol by moving from each of the states it may be in along the
edges with that symbol, and then on without reading. A symbol outside the alphabet leads
nowhere, or is refused if the automaton is strict; a refused symbol changes nothing.
-/
import PatternAutomata.Automaton.Basic

set_option autoImplicit false

namespace PatternAutomata

namespace Machine

/-- Goes back to the beginning. -/
def reset (m : Machine) : Machine :=
  m.onAutomaton fun a => { a with run := .begin m.graph (m.graph.closure {a.start}) }

/-- The states that one symbol leads to from the current ones. -/
def after (m : Machine) (l : Label) : VertexSet :=
  if l ∈ m.automaton.alphabet then
    m.graph.closure (m.graph.targets m.automaton.run.current l)
  else ∅

/-- Reads one symbol, whether it is in the alphabet or not. -/
def advance (m : Machine) (l : Label) : Machine :=
  m.onAutomaton fun a =>
    let run := { a.run with current := m.after l, position := a.run.position + 1 }
    { a with run := run.record m.graph }

/-- Whether the automaton may be in an accepting state. -/
def isAccepting (m : Machine) : Bool := m.graph.anyAccepting m.automaton.run.current

end Machine

namespace Edit

/-- Goes back to the beginning. -/
def reset : Edit Unit := do
  live .reset
  modify (·.reset)

/-- Reads one symbol. -/
def readSymbol (l : Label) : Edit Unit := do
  live .readSymbol
  let m ← get
  if l ∉ m.automaton.alphabet ∧ m.automaton.strict then
    throw (.unknownSymbol l m.automaton.alphabet.toList)
  set (m.advance l)

/-- Reads symbols one after the other. -/
def read (ls : List Label) : Edit Unit := ls.forM readSymbol

/-- Reads symbols from the beginning and tells whether they are accepted. -/
def accepts (ls : List Label) : Edit Bool := do
  reset
  read ls
  return (← get).isAccepting

end Edit

/-! ## Listing what is accepted -/

namespace Automaton

/-- The texts of a layer that lead to acceptance. -/
def acceptedTexts (g : Graph) (layer : List (String × VertexSet)) : List String :=
  (layer.filter fun e => g.anyAccepting e.2).map (·.1)

/-- A text and the states it leads to, read on by each symbol of an alphabet that leads
anywhere. -/
def extensions (g : Graph) (alphabet : List Label) (e : String × VertexSet) :
    List (String × VertexSet) :=
  alphabet.filterMap fun l =>
    let targets := g.targets e.2 l
    if targets.isEmpty then none else some (e.1 ++ l.text, g.closure targets)

/-- The accepted texts that start with one in a layer and go on for at most so many
symbols, by length. -/
def acceptedFrom (g : Graph) (alphabet : List Label) :
    Nat → List (String × VertexSet) → List String
  | 0, layer => acceptedTexts g layer
  | n + 1, layer =>
    acceptedTexts g layer ++ acceptedFrom g alphabet n (layer.flatMap (extensions g alphabet))

/-- The accepted texts of at most so many symbols, by length and then in the order of
the alphabet. -/
def acceptedUpTo (g : Graph) (a : Automaton) (longest : Int) : List String :=
  if longest < 0 then []
  else acceptedFrom g a.alphabet.toList longest.toNat [("", g.closure {a.start})]

end Automaton

/-- Lists the accepted texts of at most so many symbols. Nothing is read for that. -/
def Edit.listAccepted (longest : Int) : Edit (List String) := do
  let m ← get
  return m.automaton.acceptedUpTo m.graph longest

end PatternAutomata
