/-
Partitions of states into blocks.

A partition keeps its blocks in the order in which they were first added, and for each
state the block that it was last added with. As long as the blocks are disjoint these
two agree; adding overlapping blocks is allowed, and then the latest one counts.

A partition is refined by looking where each symbol leads: states of one block stay
together only if each symbol leads both into the same block, or neither anywhere.
-/
import PatternAutomata.Automaton.Basic
import Std.Data.TreeMap

set_option autoImplicit false

namespace PatternAutomata

/-- Blocks of states, and the block of each state. -/
structure Partition where
  blocks : List VertexSet
  owner : Std.TreeMap Vertex VertexSet

namespace Partition

/-- The partition without blocks. -/
def empty : Partition := ⟨[], ∅⟩

instance : EmptyCollection Partition := ⟨empty⟩

/-- The block of a state. -/
def blockOf? (p : Partition) (v : Vertex) : Option VertexSet := p.owner[v]?

/-- The partition with one more block. A block that is there keeps its place. -/
def add (p : Partition) (b : VertexSet) : Partition where
  blocks := if b ∈ p.blocks then p.blocks else p.blocks ++ [b]
  owner := b.toList.foldl (fun o v => o.insert v b) p.owner

/-- The partition with several more blocks. -/
def addAll (p : Partition) (bs : List VertexSet) : Partition := bs.foldl add p

/-- The partition without a block, whose members then belong to none. -/
def drop (p : Partition) (b : VertexSet) : Partition where
  blocks := p.blocks.erase b
  owner := b.toList.foldl (fun o v => o.erase v) p.owner

/-- Takes the owner away from states in turn, up to the first that has none. -/
def disown (p : Partition) : List Vertex → EStateM.Result Fault Partition Unit
  | [] => .ok () p
  | v :: vs =>
    if v ∈ p.owner then disown { p with owner := p.owner.erase v } vs
    else .error .outsidePartition p

/-- Takes a block away. Each of its members must belong to some block. -/
def remove (p : Partition) (b : VertexSet) : EStateM.Result Fault Partition Unit :=
  if b ∈ p.blocks then disown { p with blocks := p.blocks.erase b } b.toList
  else .error .unknownBlock p

/-- Whether there are fewer than two blocks. -/
def isTrivial (p : Partition) : Bool := p.blocks.length < 2

/-- How many more states than blocks there are. -/
def slack (p : Partition) : Nat := p.blocks.foldl (fun n b => n + (b.size - 1)) 0

/-- The partition in a text. -/
def text (p : Partition) (g : Graph) : String :=
  "<Partition " ++
    Text.bracketed (p.blocks.map fun b => Text.bracketed ((g.ids b).map toString)) ++ ">"

/-! ## Blocks of states with the same label -/

section Grouping

variable {κ : Type} [DecidableEq κ]

/-- Adds a state to the group with its label. -/
def addToGroup (k : κ) (v : Vertex) : List (κ × VertexSet) → List (κ × VertexSet)
  | [] => [(k, {v})]
  | (j, vs) :: rest => if j = k then (j, vs.insert v) :: rest else (j, vs) :: addToGroup k v rest

/-- The states with each label, in the order in which the labels are first met. -/
def groups (labelled : List (κ × Vertex)) : List VertexSet :=
  (labelled.foldl (fun gs e => addToGroup e.1 e.2 gs) []).map (·.2)

/-- The partition of labelled states by their labels. -/
def ofLabels (labelled : List (κ × Vertex)) : Partition := addAll ∅ (groups labelled)

end Grouping

/-! ## Signatures -/

/-- For each symbol of an alphabet, the block that it leads to from a state. -/
def signature (p : Partition) (g : Graph) (alphabet : List Label) (v : Vertex) :
    List (Option VertexSet) :=
  alphabet.map fun l => (g.destinations v l).toList.head?.bind p.blockOf?

/-- The signature of a state from which no symbol leads to more than one state. -/
def signature? (p : Partition) (g : Graph) (alphabet : List Label) (v : Vertex) :
    Except Fault (List (Option VertexSet)) :=
  if alphabet.any fun l => 1 < (g.destinations v l).size then .error .ambiguousStep
  else .ok (p.signature g alphabet v)

/-- Whether some symbol leads two states into different blocks. -/
def distinguishes? (p : Partition) (g : Graph) (alphabet : List Label) (v w : Vertex) :
    Except Fault Bool := do
  return (← p.signature? g alphabet v) ≠ (← p.signature? g alphabet w)

/-! ## Refinement -/

/-- The members of a block with the same signature, for each signature. -/
def parts (p : Partition) (g : Graph) (alphabet : List Label) (b : VertexSet) :
    List VertexSet :=
  groups ((g.inOrder b).map fun v => (p.signature g alphabet v, v))

/-- The partition with a block split by the signatures of its members. -/
def split (g : Graph) (alphabet : List Label) (p : Partition) (b : VertexSet) : Partition :=
  let parts := p.parts g alphabet b
  if parts.length < 2 then p else (p.drop b).addAll parts

/-- One pass of refinement: every block is split in turn, and later blocks are split by
what the earlier ones have become. -/
def pass (p : Partition) (g : Graph) (alphabet : List Label) : Partition :=
  p.blocks.foldl (split g alphabet) p

/-- Passes until nothing splits, with the number of blocks after each pass. -/
def refineFrom (p : Partition) (g : Graph) (alphabet : List Label) (counts : List Nat) :
    Partition × List Nat :=
  let q := p.pass g alphabet
  let counts := counts ++ [q.blocks.length]
  if q.slack < p.slack then refineFrom q g alphabet counts else (q, counts)
termination_by p.slack

/-- Refinement until nothing splits, with the number of blocks after each pass. -/
def refine (p : Partition) (g : Graph) (alphabet : List Label) : Partition × List Nat :=
  p.refineFrom g alphabet []

end Partition

end PatternAutomata
