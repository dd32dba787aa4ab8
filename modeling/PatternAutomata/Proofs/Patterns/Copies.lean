/-
Trees that are the same pattern, and copies of trees.

Two trees are the same exactly if nothing is left to tell them apart once the places that they
were read from and the spellings of their ranges are taken away (`Tree.bare`). None of what is
taken away has a part in how deep a tree is, in its letters or in its automaton, so trees that
are the same agree in these (`Tree.same_spec`).

Chains of binary alternatives are the case that needs an argument: they are compared option by
option, and copied by taking them apart into options and bars. Nothing is lost by that. The last
option of a chain is no chain, so the options say where a chain ends (`Tree.sameAll_chain`), and
the options and bars of a chain make up the chain again (`Tree.relink_chain`).
-/
import PatternAutomata.Proofs.Renaming.Building

set_option autoImplicit false

namespace PatternAutomata.Tree

/-! ## What makes a pattern

A tree without its places and spellings is still a tree, so what trees have in common can be said by
an equation. -/

mutual

/-- The tree without the places that it was read from and the spellings of its ranges. -/
def bare : Tree → Tree
  | char label _ => char label none
  | concat parts _ => concat (bareAll parts) .unknown
  | group inner _ => group (bare inner) .unknown
  | either l r _ => either (bare l) (bare r) none
  | anyOf options .. => anyOf (bareAll options) [] .unknown
  | repeated b body .. => repeated b (bare body) "" .unknown

/-- Each of some trees without what does not make the pattern. -/
def bareAll : List Tree → List Tree
  | [] => []
  | t :: ts => bare t :: bareAll ts

end

mutual

/-- Trees are the same exactly if they are equal but for places and spellings. By induction on the
first tree; a chain needs no case of its own here, since comparing two chains option by option comes
to comparing both sides of each. -/
theorem same_iff (s t : Tree) : same s t = true ↔ bare s = bare t := by
  -- nodes of two kinds are neither the same nor equal without their places
  cases s <;> cases t <;>
    simp only [↓same_either, same, bare, Bool.false_eq_true, reduceCtorEq, Bool.and_eq_true,
      decide_eq_true_eq, char.injEq, concat.injEq, group.injEq, either.injEq, anyOf.injEq,
      repeated.injEq, and_true]
  case concat.concat ps _ qs _ => exact sameAll_iff ps qs
  case group.group s _ t _ => exact same_iff s t
  case either.either l r _ l' r' _ => rw [same_iff l l', same_iff r r']
  case anyOf.anyOf ps _ _ qs _ _ => exact sameAll_iff ps qs
  case repeated.repeated b s _ _ c t _ _ => rw [same_iff s t]

/-- Rows of trees are the same exactly if they are equal but for places and spellings. -/
theorem sameAll_iff (ss ts : List Tree) : sameAll ss ts = true ↔ bareAll ss = bareAll ts := by
  cases ss <;> cases ts <;> simp only [sameAll, bareAll, Bool.false_eq_true, reduceCtorEq]
  case cons.cons s ss t ts =>
    rw [Bool.and_eq_true, same_iff s t, sameAll_iff ss ts, List.cons.injEq]

end

/-- Every tree is the same as itself. -/
theorem same_refl (t : Tree) : same t t = true := (same_iff t t).2 rfl

/-! ### What does not depend on places and spellings -/

/-- A tree is a binary choice with its places exactly if it is one without them. -/
theorem isEither_bare (t : Tree) : (bare t).isEither = t.isEither := by
  cases t <;> rfl

mutual

/-- How deep a tree is does not depend on places and spellings. -/
theorem depth_bare (t : Tree) : depth (bare t) = depth t := by
  cases t with
  | char => rfl
  | concat parts => rw [bare, depth, depth, greatestDepth_bareAll]
  | group inner => rw [bare, depth, depth, depth_bare inner]
  | either l r => rw [bare, depth, depth, isEither_bare, depth_bare l, depth_bare r]
  | anyOf options => rw [bare, depth, depth, greatestDepth_bareAll]
  | repeated _ body => rw [bare, depth, depth, depth_bare body]

/-- Nor does the depth of the deepest of some trees. -/
theorem greatestDepth_bareAll (ts : List Tree) : greatestDepth (bareAll ts) = greatestDepth ts := by
  cases ts with
  | nil => rfl
  | cons t ts => rw [bareAll, greatestDepth, greatestDepth, depth_bare t, greatestDepth_bareAll ts]

end

mutual

/-- The letters of a tree do not depend on places and spellings. -/
theorem letters_bare (t : Tree) : letters (bare t) = letters t := by
  cases t with
  | char => rfl
  | concat parts => rw [bare, letters, letters, lettersOfAll_bareAll]
  | group inner => rw [bare, letters, letters, letters_bare inner]
  | either l r => rw [bare, letters, letters, letters_bare l, letters_bare r]
  | anyOf options => rw [bare, letters, letters, lettersOfAll_bareAll]
  | repeated _ body => rw [bare, letters, letters, letters_bare body]

/-- Nor do the letters of some trees. -/
theorem lettersOfAll_bareAll (ts : List Tree) : lettersOfAll (bareAll ts) = lettersOfAll ts := by
  cases ts with
  | nil => rfl
  | cons t ts => rw [bareAll, lettersOfAll, lettersOfAll, letters_bare t, lettersOfAll_bareAll ts]

end

mutual

/-- What is built for a tree depends on the pattern alone. The builds are equal as computations, so
they also leave a graph and its identifiers in the same state. -/
theorem build_bare (t : Tree) : build (bare t) = build t := by
  cases t with
  | char => rfl
  | concat parts => rw [bare, build, build, buildAll_bareAll]
  | group inner => rw [bare, build, build, build_bare inner]
  | either l r => rw [bare, build, build, build_bare l, build_bare r]
  | anyOf options => rw [bare, build, build, buildEach_bareAll]
  | repeated b body => rw [bare, build, build, build_bare body]

/-- The same for the builds of some trees, taken one by one. -/
theorem buildAll_bareAll (ts : List Tree) : buildAll (bareAll ts) = buildAll ts := by
  cases ts with
  | nil => rfl
  | cons t ts => rw [bareAll, buildAll, buildAll, build_bare t, buildAll_bareAll ts]

/-- The same for the builds of some trees, taken together. -/
theorem buildEach_bareAll (ts : List Tree) : buildEach (bareAll ts) = buildEach ts := by
  cases ts with
  | nil => rfl
  | cons t ts => rw [bareAll, buildEach, buildEach, build_bare t, buildEach_bareAll ts]

end

/-- The automaton of a tree depends on the pattern alone. -/
theorem automaton_bare (t : Tree) : (bare t).automaton = t.automaton := by
  rw [automaton, automaton, build_bare]

/-! ## Automata beside one another -/

/-- The automaton of a tree, built beside what a graph holds and with identifiers from a number
on, as it is seen. -/
def snapshotFrom (t : Tree) (g : Graph) (nextId : Int) : Snapshot :=
  (t.automaton ⟨g, nextId⟩).1.snapshot (t.automaton ⟨g, nextId⟩).2.graph

/-- Where an automaton is built cannot be seen. In either graph it mirrors the one that is built
where there is nothing else, and a snapshot is taken of identifiers and not of places in the
graph. -/
theorem snapshotFrom_eq (t : Tree) (g h : Graph) (nextId : Int) :
    t.snapshotFrom g nextId = t.snapshotFrom h nextId := by
  have hg := (t.mirrors_automaton g nextId).snapshot_eq
  have hh := (t.mirrors_automaton h nextId).snapshot_eq
  exact hg.trans hh.symm

/-! ## Copies -/

/-- The options and bars of a chain make up the chain. By induction along the chain. -/
theorem relink_chain (t u : Tree) (pipe : Option Int) :
    relink t (chain u) (pipe :: chainPipes u) = either t u pipe := by
  induction u using chain.induct generalizing t pipe with
  | case1 l r pipe' ih => rw [chain, chainPipes, relink, ih]
  | case2 u h => simp only [chain, relink]

mutual

/-- A copy of a tree is equal to it, places and spellings included. The induction is on the number
of nodes, as the definition's is: a chain is copied option by option. -/
theorem clone_eq (t : Tree) : clone t = t := by
  -- the options of a chain have fewer nodes than the chain, but are no parts of the node
  cases t with
  | char => rw [clone]
  | concat parts => rw [clone, cloneAll_eq parts]
  | group inner => rw [clone, clone_eq inner]
  | either l r => rw [clone, clone_eq l, cloneAll_eq (chain r), relink_chain]
  | anyOf options => rw [clone, cloneAll_eq options]
  | repeated _ body => rw [clone, clone_eq body]
termination_by 2 * weight t
decreasing_by all_goals grind

/-- Copies of some trees are equal to them. -/
theorem cloneAll_eq (ts : List Tree) : cloneAll ts = ts := by
  cases ts with
  | nil => rw [cloneAll]
  | cons t ts => rw [cloneAll, clone_eq t, cloneAll_eq ts]
termination_by 2 * weightOfAll ts + 1
decreasing_by all_goals grind

end

/-! ## The main statement -/

/-- Two trees are the same exactly if they are equal but for the places that they were read from
and the spellings of their ranges. Then they are equally deep and have the same letters, and
their automata look the same wherever they are built, if their identifiers start from the same
number. A copy of a tree is the same as the tree, and even equal to it: every node has its
place, bars and spelling, and with these its depth and both ways to show it. -/
theorem same_spec (s t : Tree) :
    (s.same t = true ↔ s.bare = t.bare) ∧
      (s.same t = true → s.depth = t.depth ∧ s.letters = t.letters ∧
        ∀ (g h : Graph) (nextId : Int), s.snapshotFrom g nextId = t.snapshotFrom h nextId) ∧
      t.clone.same t = true ∧ t.clone = t := by
  have hcopy : t.clone = t := clone_eq t
  refine ⟨same_iff s t, ?_, ?_, hcopy⟩
  · intro hsame
    have hbare : s.bare = t.bare := (same_iff s t).1 hsame
    refine ⟨?_, ?_, ?_⟩
    · rw [← depth_bare s, hbare, depth_bare t]
    · rw [← letters_bare s, hbare, letters_bare t]
    · intro g h nextId
      -- the automata are one computation, so only where it is run can make a difference
      have hautomaton : s.automaton = t.automaton := by
        rw [← automaton_bare s, hbare, automaton_bare t]
      rw [snapshotFrom, hautomaton]
      exact t.snapshotFrom_eq g h nextId
  · rw [hcopy]
    exact same_refl t

/-- A chain inside a chain, under a repetition. -/
def nestedChains (place : Nat → Option Int) (spelling : String) : Tree :=
  let inner := either (char (.symbol "b") (place 3)) (char (.symbol "c") (place 5)) (place 4)
  let middle := repeated ⟨1, some 1, by simp⟩ (group inner ⟨place 2, place 7⟩) spelling
    ⟨place 2, place 12⟩
  either (char (.symbol "a") (place 0)) (either middle (char (.symbol "d") (place 13)) (place 12))
    (place 1)

/-- The tree of a text, and the one that is put together by hand with another spelling. -/
theorem same_spec_nestedChains :
    let read := nestedChains (fun n => some n) "\x7b1,1\x7d"
    let made := nestedChains (fun _ => none) "\x7b1\x7d"
    read ≠ made ∧ read.same made = true ∧ read.depth = made.depth ∧ read.letters = made.letters ∧
      read.snapshotFrom (made.automaton ⟨∅, 0⟩).2.graph 7 = made.snapshotFrom ∅ 7 ∧
      read.clone.same read = true ∧ read.clone = read := by
  intro read made
  obtain ⟨hiff, hagree, -, -⟩ := same_spec read made
  obtain ⟨hdepth, hletters, hsnapshot⟩ := hagree (hiff.2 rfl)
  -- one of them has a place for its first letter, the other has none
  have hne : read ≠ made := by
    intro h
    have hplace : (read.span).start = (made.span).start := by rw [h]
    cases hplace
  obtain ⟨-, -, hsame, hcopy⟩ := same_spec made read
  exact ⟨hne, hiff.2 rfl, hdepth, hletters, hsnapshot _ _ 7, hsame, hcopy⟩

end PatternAutomata.Tree
