/-
Patterns and the automata that recognise them.

A pattern is read, and each of its automata is made, the first time it is asked for, and
kept from then on: an automaton with edges that read nothing, one without such edges, a
deterministic one and the smallest deterministic one. The second is made from a tree of
its own, the third from the second and the fourth from the third. What could not be made
is not kept, but what was made on the way to it is.
-/
import PatternAutomata.Syntax.Parser
import PatternAutomata.Workspace

set_option autoImplicit false

namespace PatternAutomata

/-- Why a pattern or one of its automata could not be had. -/
inductive PatternFault where
  | unreadable (fault : ParseError)
  | faulty (fault : Fault)

/-- A pattern, how it is to be read, and what has been made of it so far. -/
structure Regex where
  pattern : String
  /-- Whether its automata refuse symbols outside the alphabet. -/
  strict : Bool := false
  dialect : Dialect := {}
  tree : Option Tree := none
  alphabet : Option Alphabet := none
  nfa : Option Handle := none
  epsilonFree : Option Handle := none
  dfa : Option Handle := none
  minimalDfa : Option Handle := none

/-- A pattern and the workspace that holds its automata. -/
structure Regex.Bench where
  regex : Regex
  workspace : Workspace

/-- Access to what can be made of a pattern. -/
abbrev Regex.Access := EStateM PatternFault Regex.Bench

namespace Regex

/-- The pattern in a text. -/
def text (r : Regex) : String := "Regex(" ++ Text.quoted r.pattern ++ ")"

/-- What has been made, by name. -/
def kept (r : Regex) : List String :=
  [("ast", r.tree.isSome), ("alphabet", r.alphabet.isSome), ("nfa", r.nfa.isSome),
    ("epsilon_free", r.epsilonFree.isSome), ("dfa", r.dfa.isSome),
    ("minimal_dfa", r.minimalDfa.isSome)].filterMap fun (name, made) =>
      if made then some name else none

namespace Access

/-- Works in the workspace. -/
def work {α : Type} (x : Work α) : Access α := fun b =>
  match x b.workspace with
  | .ok r w => .ok r { b with workspace := w }
  | .error f w => .error (.faulty f) { b with workspace := w }

/-- What is kept of a pattern, or else what is made now and kept.

This is all that is taken for granted about values that are computed once: the first access makes
the value and stores it with the pattern, every later access reads what is stored and makes nothing,
and a making that fails stores nothing, so that the next access tries again. What was made on the
way to the failure has been stored by its own accesses and stays. Nothing else writes to the place,
and one pattern is accessed by one caller at a time. -/
def keeping {α : Type} (kept : Regex → Option α) (keep : Regex → α → Regex) (make : Access α) :
    Access α := do
  match kept (← get).regex with
  | some a => return a
  | none =>
    let a ← make
    modify fun b => { b with regex := keep b.regex a }
    return a

/-- The tree of the pattern. -/
def tree : Access Tree := keeping (·.tree) (fun r t => { r with tree := some t }) do
  let r := (← get).regex
  match Parser.parse r.dialect r.pattern with
  | .ok t => return t
  | .error e => throw (.unreadable e)

/-- The labels that occur in the pattern. -/
def alphabet : Access Alphabet :=
  keeping (·.alphabet) (fun r a => { r with alphabet := some a }) do return (← tree).letters

/-- Notes that a stage of the pattern was reached. -/
def finish (stage : Stage) (h : Handle) : Access Unit := do
  let b ← get
  work (.note (.finished stage b.regex.pattern (b.workspace.automaton h).states.size))

/-- Builds an automaton of the tree. -/
def build : Access Handle := do
  let t ← tree
  let strict := (← get).regex.strict
  let (h, _) ← work (.build t 0)
  work (.alter h fun a => { a with strict })
  finish .nfa h
  return h

/-- The automaton as it was built. -/
def nfa : Access Handle := keeping (·.nfa) (fun r h => { r with nfa := some h }) build

/-- An automaton without edges that read nothing. -/
def epsilonFree : Access Handle :=
  keeping (·.epsilonFree) (fun r h => { r with epsilonFree := some h }) do
    let h ← build
    work (.on h .removeEpsilons)
    finish .epsilonFree h
    return h

/-- A deterministic automaton. -/
def dfa : Access Handle := keeping (·.dfa) (fun r h => { r with dfa := some h }) do
  let h ← work (.determinize (← epsilonFree))
  finish .dfa h
  return h

/-- The smallest deterministic automaton. -/
def minimalDfa : Access Handle :=
  keeping (·.minimalDfa) (fun r h => { r with minimalDfa := some h }) do
    let h ← work (.minimize (← dfa))
    finish .minimalDfa h
    return h

/-- The automaton of a stage. -/
def stage : Stage → Access Handle
  | .nfa => nfa
  | .epsilonFree => epsilonFree
  | .dfa => dfa
  | .minimalDfa => minimalDfa

/-- Works with the automaton of a stage. What the work does to the run of that automaton stays, for
the automaton is kept; the kept stages themselves are looked up afresh each time. -/
def onStage {α : Type} (s : Stage) (x : Edit α) : Access α := do
  let h ← stage s
  work (.on h x)

/-- Whether a text as a whole is one that the pattern describes. -/
def isMatch (s : String) : Access Bool := do
  let h ← minimalDfa
  work (.on h (.accepts (Label.ofText s)))

/-- The texts that the automaton of a stage accepts, up to a length. They are listed from the edges
alone, so that no run is disturbed. -/
def generate (s : Stage) (longest : Int) : Access (List String) := do
  let h ← stage s
  let w := (← get).workspace
  return (w.automaton h).acceptedUpTo w.graph longest

end Access

end Regex

end PatternAutomata
