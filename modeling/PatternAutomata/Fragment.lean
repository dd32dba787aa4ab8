/-
From trees to automata.

A fragment is the automaton of a part of a tree. Fragments are built from the inside
out: those of the parts first, then whatever joins them. New states take their
identifiers one after the other from a supply that all parts of a tree share, so that
identifiers stay apart when fragments are joined.

A repetition other than an unlimited one is built as the tree that it unfolds to, which
means building its body again for every copy (`build_unfolded`).
-/
import PatternAutomata.Automaton.Merging
import PatternAutomata.Syntax.Tree

set_option autoImplicit false

namespace PatternAutomata

/-- Where new states come from: the graph that they join and the next identifier. -/
structure Supply where
  graph : Graph
  nextId : Int

/-- A construction that draws states from a supply. -/
abbrev Builder := StateM Supply

namespace Builder

/-- Draws a new state. -/
def newState (start accepting : Bool) : Builder Vertex := fun s =>
  let (v, g) := s.graph.add { id := s.nextId, isStart := start, isAccepting := accepting }
  (v, ⟨g, s.nextId + 1⟩)

/-- Changes an automaton over the states of the supply. -/
def edit (a : Automaton) (f : Machine → Machine) : Builder Automaton := fun s =>
  let m := f { graph := s.graph, automaton := a }
  (m.automaton, { s with graph := m.graph })

/-- The fragment that reads nothing. -/
def nothing : Builder Automaton := do
  let v ← newState true true
  return { start := v, states := {v}, alphabet := ∅ }

/-- The fragment that reads one symbol. -/
def letter (l : Label) : Builder Automaton := do
  let start ← newState true false
  let stop ← newState false true
  let a : Automaton := { start := start, states := .ofList [start, stop], alphabet := ∅ }
  edit a (·.connect ⟨start, l, stop⟩)

/-- Fragments one after the other. -/
def sequence : List (Builder Automaton) → Builder Automaton
  | [] => nothing
  | b :: bs => do
    let first ← b
    bs.foldlM (fun a b => do
      let next ← b
      edit a (·.append next)) first

/-- One of several fragments: a new start state leads to each of theirs without
reading. -/
def choice (fragments : List Automaton) : Builder Automaton := do
  let start ← newState true false
  let a : Automaton := { start := start, states := {start}, alphabet := ∅ }
  fragments.foldlM (fun a f =>
    edit a fun m => ((m.takeOver f).flagStart f.start false).connect ⟨start, .epsilon, f.start⟩) a

/-- A choice between two constructions. -/
def either (left right : Builder Automaton) : Builder Automaton := do
  let l ← left
  let r ← right
  choice [l, r]

/-- A chain of choices that leans to the right. -/
def eitherOf : Builder Automaton → List (Builder Automaton) → Builder Automaton
  | b, [] => b
  | b, c :: cs => either b (eitherOf c cs)

/-- Any number of repetitions of a fragment. Every accepting state leads back to the
start. If the fragment can come back to its start without accepting there, it gets a new
start state that accepts. -/
def star (body : Builder Automaton) : Builder Automaton := do
  let a ← body
  let g := (← get).graph
  let start := g.node a.start
  let finals := g.inOrder (a.accepting g)
  let looped ← edit a (·.connectAll (finals.map fun v => ⟨v, .epsilon, a.start⟩))
  if start.indegree > 0 ∧ !start.isAccepting then
    let new ← newState false true
    edit looped fun m => (m.connect ⟨new, .epsilon, a.start⟩).shiftStart a.start new
  else
    edit looped (·.flagAccepting a.start true)

/-- Repetitions of a fragment within a range. -/
def repetition (b : Bounds) (body : Builder Automaton) : Builder Automaton :=
  if b.isStar then star body
  else
    sequence (List.replicate b.lo body ++
      match b.hi with
      | none => [star body]
      | some hi =>
        if b.lo < hi then
          [eitherOf nothing ((List.range' 1 (hi - b.lo)).map fun n =>
            sequence (List.replicate n body))]
        else [])

end Builder

namespace Tree

mutual

/-- The fragment of a tree. -/
def build : Tree → Builder Automaton
  | char l _ => .letter l
  | concat parts _ => .sequence (buildAll parts)
  | group inner _ => build inner
  | either l r _ => .either (build l) (build r)
  | anyOf options .. => do .choice (← buildEach options)
  | repeated b body .. => .repetition b (build body)

/-- The fragments of some trees, as constructions that are still to be done. -/
def buildAll : List Tree → List (Builder Automaton)
  | [] => []
  | t :: ts => build t :: buildAll ts

/-- The fragments of some trees, built one after the other. -/
def buildEach : List Tree → Builder (List Automaton)
  | [] => return []
  | t :: ts => return (← build t) :: (← buildEach ts)

end

/-! ## Repetitions are built as they unfold -/

/-- Trees in two rows are built as the constructions of the first followed by those of the
second. -/
theorem buildAll_append (ts us : List Tree) :
    buildAll (ts ++ us) = buildAll ts ++ buildAll us := by
  induction ts with
  | nil => rfl
  | cons t ts ih => rw [List.cons_append, buildAll, buildAll, ih, List.cons_append]

/-- Trees made from a list are built one for each member. -/
theorem buildAll_map {α : Type} (f : α → Tree) (l : List α) :
    buildAll (l.map f) = l.map fun a => build (f a) := by
  induction l with
  | nil => rfl
  | cons a l ih => rw [List.map_cons, buildAll, ih, List.map_cons]

/-- Copies of a tree are built by doing its construction again each time. Nothing is built once and
copied. -/
theorem buildAll_replicate (n : Nat) (t : Tree) :
    buildAll (List.replicate n t) = List.replicate n (build t) := by
  induction n with
  | zero => rfl
  | succ n ih => rw [List.replicate_succ, buildAll, ih, List.replicate_succ]

/-- A chain that leans to the right is built as a choice between its first option and the rest. -/
theorem build_chainFrom (pipe : Option Int) (t : Tree) (ts : List Tree) :
    build (chainOf?.chainFrom pipe t ts) = .eitherOf (build t) (buildAll ts) := by
  induction ts generalizing t with
  | nil => rfl
  | cons u us ih => rw [chainOf?.chainFrom, build, ih, buildAll, Builder.eitherOf]

theorem build_star (t : Tree) : build (star t) = .star (build t) := by
  rw [star, build, Builder.repetition, if_pos (by decide)]

/-- A single construction in sequence is that construction: no edge is put in front of it or after
it. -/
theorem sequence_singleton (b : Builder Automaton) : Builder.sequence [b] = b := by
  simp [Builder.sequence]

/-- A repetition other than an unlimited one is built as the tree it unfolds to. The construction
does not make that tree, so the two are compared part by part: the required copies, and what stands
for the further ones. -/
theorem build_unfolded {b : Bounds} (hb : b.isStar = false) (body : Tree) :
    build (unfolded b body) = .repetition b (build body) := by
  have hparts : buildAll (unfoldedParts b body) = List.replicate b.lo (build body) ++
      match b.hi with
      | none => [Builder.star (build body)]
      | some hi =>
        if b.lo < hi then
          [Builder.eitherOf Builder.nothing ((List.range' 1 (hi - b.lo)).map fun n =>
            Builder.sequence (List.replicate n (build body)))]
        else [] := by
    rw [unfoldedParts, buildAll_append, buildAll_replicate, furtherParts]
    congr 1
    -- no greatest count: one unlimited repetition stands for all further copies
    cases b.hi with
    | none => simp only [buildAll, build_star]
    | some hi =>
      simp only
      split
      -- the option of no further copies is built from nothing, the others from as many copies each
      · rw [List.range_eq_range', List.range'_succ, List.map_cons, chainOf?, Option.toList,
          buildAll, buildAll, build_chainFrom, buildAll_map]
        simp only [build, buildAll_replicate, List.replicate_zero, buildAll, Builder.sequence]
      · rfl
  have hrep : Builder.repetition b (build body) =
      Builder.sequence (buildAll (unfoldedParts b body)) := by
    rw [hparts, Builder.repetition, if_neg (by simp [hb])]
  rw [hrep, unfolded]
  split
  · next t ht => rw [ht, buildAll, buildAll, sequence_singleton]
  · rw [build]

/-- The automaton of a tree, before it has read anything. -/
def automaton (t : Tree) : Builder Automaton := do
  let a ← t.build
  let g := (← get).graph
  return { a with run := .begin g (g.closure {a.start}) }

end Tree

end PatternAutomata
