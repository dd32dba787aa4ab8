/-
What is logged.

Events are kept as values and put into words only when they are shown. Of a step that
was timed, the duration is filled in by whoever shows the event.

Of the logger it is taken for granted that it takes each event at the moment it is
reported, in that order and whatever its severity, and that reporting an event neither
fails nor changes anything but the log. Which events are shown is left to whoever reads
the log: a reader that is turned off, or that asks for more severe events only, shows
fewer of the same ones.
-/
import PatternAutomata.Graph.Node

set_option autoImplicit false

namespace PatternAutomata

/-- How much detail an event adds. -/
inductive Severity where
  | trace
  | debug
  deriving DecidableEq

/-- The name of a severity. -/
def Severity.text : Severity → String
  | trace => "TRACE"
  | debug => "DEBUG"

/-- The steps from a pattern to its smallest automaton. -/
inductive Stage where
  | nfa
  | epsilonFree
  | dfa
  | minimalDfa
  deriving DecidableEq

/-- Something that happened. An event carries the numbers and names that its message shows, as they
were when it was reported, so that nothing that happens later can change what it says. -/
inductive Event where
  /-- States were given up because no start state leads to them any more, in the order in which they
  were given up. -/
  | collected (states : List Caption)
  /-- Silent edges were removed: how many children were folded in with all their edges, how many
  with their way out only, and how many states are left. -/
  | removedEpsilons (merged absorbed left : Nat)
  | determinized (before after : Nat)
  /-- A pass over the blocks has ended, and left so many of them. -/
  | refined (pass blocks : Nat)
  | minimized (before after passes : Nat)
  /-- A stage of a pattern was reached. -/
  | finished (stage : Stage) (pattern : String) (states : Nat)
  deriving DecidableEq

namespace Event

/-- How much detail an event adds. -/
def severity : Event → Severity
  | collected _ => .trace
  | refined .. => .trace
  | _ => .debug

/-- What was done to reach a stage, with the pattern it was done for. -/
def stageText (pattern : String) : Stage → String
  | .nfa => "Built NFA for " ++ Text.quoted pattern
  | .epsilonFree => "Eliminated epsilons for " ++ Text.quoted pattern
  | .dfa => "Determinized " ++ Text.quoted pattern
  | .minimalDfa => "Minimized " ++ Text.quoted pattern

/-- An event in words; `duration` is the time that a stage took. -/
def message (duration : String) : Event → String
  | collected states => "Removed unreachable states " ++ Caption.textOfAll states
  | removedEpsilons merged absorbed left =>
    s!"Eliminated epsilon transitions ({merged} merged, {absorbed} absorbed), {left} states left"
  | determinized before after => s!"Subset construction turned {before} states into {after}"
  | refined pass blocks => s!"Refinement pass {pass}: {blocks} blocks"
  | minimized before after passes =>
    s!"Minimized {before} states into {after} after {passes} passes"
  | finished stage pattern states =>
    stageText pattern stage ++ s!": {states} states in {duration} s"

end Event

end PatternAutomata
