/-
What can go wrong when an automaton is worked on.

A fault names its cause and carries what its message shows; the message is derived from
it. Two causes have to do with an automaton that was used wrongly (`spent`,
`unknownSymbol`); the others are found only where states were tampered with or where an
operation is applied to an automaton of the wrong kind.
-/
import PatternAutomata.Graph.Node

set_option autoImplicit false

namespace PatternAutomata

/-- The operations that need an automaton which has not been taken over by another. -/
inductive Operation where
  | connect | disconnect | collect | moveStart | merge | absorb | splice | append
  | removeEpsilons | determinize | minimize | addTrap | markTraps | reset | readSymbol
  deriving DecidableEq

/-- The name of an operation in messages. -/
def Operation.text : Operation → String
  | connect => "register_transition"
  | disconnect => "unregister_transition"
  | collect => "cleanup_state"
  | moveStart => "transfer_start_state"
  | merge => "merge_states"
  | absorb => "absorb_state"
  | splice => "splice"
  | append => "append"
  | removeEpsilons => "eliminate_epsilon_transitions"
  | determinize => "determinize"
  | minimize => "minimize"
  | addTrap => "add_trap_state"
  | markTraps => "mark_trap_states"
  | reset => "reset"
  | readSymbol => "read_symbol"

/-- How the structure of an automaton can be broken. -/
inductive Violation where
  /-- The states flagged as start are not just the start state. -/
  | strayStarts (expected : Caption) (found : List Caption)
  | repeatedIds
  /-- A label has an entry with no states in it. -/
  | emptyEntry (state : Caption) (label : Label)
  | leavesAutomaton (source : Caption) (label : Label) (target : Caption)
  | noInverseEntry (source : Caption) (label : Label) (target : Caption)
  | wrongIndegree (state : Caption) (noted : Int) (actual : Nat)
  | emptyInverseEntry (state : Caption) (label : Label)
  | noForwardEdge (source : Caption) (label : Label) (target : Caption)
  deriving DecidableEq

/-- An edge in a text. -/
def Violation.edgeText (source : Caption) (label : Label) (target : Caption) : String :=
  source.text ++ " -" ++ label.shown ++ "-> " ++ target.text

/-- The wording of a violation. -/
def Violation.message : Violation → String
  | strayStarts expected found =>
    "Expected " ++ expected.text ++ " to be the only start state, found " ++
      Caption.textOfAll found
  | repeatedIds => "State IDs are not unique"
  | emptyEntry state label => state.text ++ " has an empty transition set for " ++ label.shown
  | leavesAutomaton s l t => edgeText s l t ++ " leaves the automaton"
  | noInverseEntry s l t => edgeText s l t ++ " has no inverse entry"
  | wrongIndegree state noted actual =>
    state.text ++ " has indegree " ++ toString noted ++ " but " ++ toString actual ++
      " incoming transitions"
  | emptyInverseEntry state label => state.text ++ " has an empty inverse set for " ++ label.shown
  | noForwardEdge s l t => "Inverse entry " ++ edgeText s l t ++ " has no forward transition"

/-- Why an operation failed. -/
inductive Fault where
  /-- The automaton was taken over by another one. -/
  | spent (operation : Operation)
  | unmarkedStart (state : Caption)
  | notCurrentStart (state : Caption)
  | spliceIntoItself
  | notDeterministic
  | broken (violation : Violation)
  | unknownSymbol (symbol : Label) (alphabet : List Label)
  /-- An edge is not noted at its target. -/
  | edgeNotNoted
  /-- A state that had to belong to a block of a partition belongs to none. -/
  | outsidePartition
  | unknownBlock
  /-- A state has more than one way on where one was expected. -/
  | ambiguousStep
  deriving DecidableEq

/-- The wording of a fault. -/
def Fault.message : Fault → String
  | spent operation =>
    operation.text ++ "() called on an automaton that was spliced into another automaton"
  | unmarkedStart state => "Start state " ++ state.text ++ " is not marked as a start state"
  | notCurrentStart state =>
    "Tried to transfer the start state away from " ++ state.text ++
      ", which is not the current start state"
  | spliceIntoItself => "Cannot splice an automaton into itself"
  | notDeterministic => "Minimization requires a deterministic automaton"
  | broken violation => violation.message
  | unknownSymbol symbol alphabet =>
    "Symbol " ++ symbol.shown ++ " is not in the alphabet " ++
      Text.bracketed ((alphabet.mergeSort fun a b => (compare a b).isLE).map Label.shown)
  | edgeNotNoted => "An edge is not noted at its target"
  | outsidePartition => "A state is not in any block of the partition"
  | unknownBlock => "The partition has no such block"
  | ambiguousStep => "too many values to unpack (expected 1)"

end PatternAutomata
