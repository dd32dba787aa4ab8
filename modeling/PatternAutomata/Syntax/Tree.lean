/-
Syntax trees of patterns.

A tree says how a pattern is put together and, where it was read from a text, which
part of the text each node covers. What a tree means does not depend on the places it
was read from nor on how a repetition was spelled; `Tree.same` compares trees up to
these.

The range of a repetition is a value of its own (`Bounds`): its least count is a
natural number and its greatest count, if there is one, is not below it.
-/
import PatternAutomata.Label

set_option autoImplicit false

namespace PatternAutomata

/-! ## Places in a text -/

/-- Where a node begins and where it ends, as far as that is known: the index of its
first character and the index just after its last. -/
structure Span where
  start : Option Int
  stop : Option Int
  deriving DecidableEq, Inhabited

namespace Span

/-- The span of a node that was read from no text. -/
def unknown : Span := ⟨none, none⟩

/-- The span of a single character. -/
def one (place : Option Int) : Span := ⟨place, place.map (· + 1)⟩

/-- The span between two known places. -/
def between (start stop : Nat) : Span := ⟨some start, some stop⟩

end Span

/-! ## Ranges of repetition -/

/-- How often something may be repeated: at least `lo` times, and at most `hi` times
if there is such a limit. -/
structure Bounds where
  lo : Nat
  hi : Option Nat
  lo_le_hi : ∀ n ∈ hi, lo ≤ n := by simp

/-- Why two numbers are no range of repetition. -/
inductive BoundsError where
  | negative (lo : Int)
  | inverted (lo hi : Int)
  deriving DecidableEq

/-- The wording of the fault. -/
def BoundsError.message : BoundsError → String
  | negative lo => s!"Negative repetition count {lo}"
  | inverted lo hi => s!"Quantifier maximum {hi} is less than minimum {lo}"

namespace Bounds

/-- Any number of times. -/
def star : Bounds := ⟨0, none, by simp⟩

/-- At least once. -/
def plus : Bounds := ⟨1, none, by simp⟩

/-- At most once. -/
def optional : Bounds := ⟨0, some 1, by simp⟩

/-- The range of two natural numbers, the second of which may be missing. -/
def ofNats (lo : Nat) : Option Nat → Except BoundsError Bounds
  | none => .ok ⟨lo, none, by simp⟩
  | some hi =>
    if h : lo ≤ hi then .ok ⟨lo, some hi, by simpa using h⟩ else .error (.inverted lo hi)

/-- The range of two numbers, the second of which may be missing. A negative least
count is reported before an inverted range. -/
def ofInts (lo : Int) (hi : Option Int) : Except BoundsError Bounds :=
  if lo < 0 then .error (.negative lo)
  else
    match hi with
    | none => .ok ⟨lo.toNat, none, by simp⟩
    | some hi =>
      if h : lo ≤ hi then
        .ok ⟨lo.toNat, some hi.toNat, by simpa using Int.toNat_le_toNat h⟩
      else .error (.inverted lo hi)

/-- Whether any number of repetitions is allowed. -/
def isStar (b : Bounds) : Bool := b.lo = 0 ∧ b.hi = none

instance : DecidableEq Bounds := fun a b =>
  if h : a.lo = b.lo ∧ a.hi = b.hi then
    .isTrue (by cases a; cases b; simp_all)
  else .isFalse (fun e => h (e ▸ ⟨rfl, rfl⟩))

/-- The shortest way to write a range. -/
def text (b : Bounds) : String :=
  match b.lo, b.hi with
  | 0, none => "*"
  | 1, none => "+"
  | 0, some 1 => "?"
  | lo, none => "\x7b" ++ toString lo ++ ",\x7d"
  | lo, some hi =>
    if lo = hi then "\x7b" ++ toString lo ++ "\x7d"
    else "\x7b" ++ toString lo ++ "," ++ toString hi ++ "\x7d"

end Bounds

/-! ## Trees -/

/-- A pattern. Binary alternatives that follow one another lean to the right; an
alternative of any number of options holds them side by side. A repetition keeps the
spelling of its range. -/
inductive Tree where
  | char (label : Label) (place : Option Int)
  | concat (parts : List Tree) (span : Span)
  | group (inner : Tree) (span : Span)
  | either (left right : Tree) (pipe : Option Int)
  | anyOf (options : List Tree) (pipes : List (Option Int)) (span : Span)
  | repeated (bounds : Bounds) (body : Tree) (spelling : String) (span : Span)
  deriving Inhabited

namespace Tree

/-- The part of the text that a node was read from. A binary alternative stands where
its bar stands. -/
def span : Tree → Span
  | char _ place => .one place
  | concat _ s => s
  | group _ s => s
  | either _ _ pipe => .one pipe
  | anyOf _ _ s => s
  | repeated _ _ _ s => s

/-- Any number of repetitions of a tree. -/
def star (body : Tree) : Tree := repeated .star body Bounds.star.text .unknown

/-- The nodes directly below a node. -/
def children : Tree → List Tree
  | char .. => []
  | concat parts _ => parts
  | group inner _ => [inner]
  | either l r _ => [l, r]
  | anyOf options .. => options
  | repeated _ body .. => [body]

/-- Whether a node is a binary alternative. -/
def isEither : Tree → Bool
  | either .. => true
  | _ => false

/-- The options of a chain of binary alternatives, from left to right; of any other
tree, the tree itself. -/
def chain : Tree → List Tree
  | either l r _ => l :: chain r
  | t => [t]

/-- The places of the bars in a chain of binary alternatives. -/
def chainPipes : Tree → List (Option Int)
  | either _ r pipe => pipe :: chainPipes r
  | _ => []

mutual

/-- How deep a tree is. A chain of binary alternatives counts as one level, and a
repetition as three: itself and the two levels that it may be unfolded into. -/
def depth : Tree → Nat
  | char .. => 1
  | concat parts _ => 1 + greatestDepth parts
  | group inner _ => depth inner + 1
  | either l r _ =>
    if r.isEither then max (depth l + 1) (depth r) else max (depth l) (depth r) + 1
  | anyOf options .. => 1 + greatestDepth options
  | repeated _ body .. => depth body + 3

/-- The depth of the deepest of some trees. -/
def greatestDepth : List Tree → Nat
  | [] => 0
  | t :: ts => max (depth t) (greatestDepth ts)

end

mutual

/-- The labels that occur in a tree. -/
def letters : Tree → Alphabet
  | char label _ => {label}
  | concat parts _ => lettersOfAll parts
  | group inner _ => letters inner
  | either l r _ => letters l ∪ letters r
  | anyOf options .. => lettersOfAll options
  | repeated _ body .. => letters body

/-- The labels that occur in any of some trees. -/
def lettersOfAll : List Tree → Alphabet
  | [] => ∅
  | t :: ts => letters t ∪ lettersOfAll ts

end

mutual

/-- The number of nodes of a tree. -/
def weight : Tree → Nat
  | char .. => 1
  | concat parts _ => weightOfAll parts + 1
  | group inner _ => weight inner + 1
  | either l r _ => weight l + weight r + 1
  | anyOf options .. => weightOfAll options + 1
  | repeated _ body .. => weight body + 1

/-- The number of nodes of some trees together. -/
def weightOfAll : List Tree → Nat
  | [] => 0
  | t :: ts => weight t + weightOfAll ts

end

attribute [grind =] weight weightOfAll

@[grind! .] theorem weight_pos (t : Tree) : 0 < weight t := by
  cases t <;> exact Nat.succ_pos _

/-- The options of a chain have no more nodes than the chain. Trees are compared and copied option
by option, and this is why that recursion ends. -/
@[grind! .] theorem weightOfAll_chain_le (t : Tree) : weightOfAll (chain t) ≤ weight t := by
  induction t using chain.induct with
  | case1 l r pipe ih =>
    rw [chain, weightOfAll, weight]
    omega
  | case2 t h =>
    simp only [chain, weightOfAll, Nat.add_zero, Nat.le_refl]

mutual

/-- Whether two trees are the same pattern, wherever they were read from and however
their ranges were spelled. Chains are compared option by option. -/
def same : Tree → Tree → Bool
  | char a _, char b _ => a = b
  | concat ps _, concat qs _ => sameAll ps qs
  | group s _, group t _ => same s t
  | either l r _, either l' r' _ => sameAll (l :: chain r) (l' :: chain r')
  | anyOf ps .., anyOf qs .. => sameAll ps qs
  | repeated b s .., repeated c t .. => b = c && same s t
  | _, _ => false
termination_by s => 2 * weight s
decreasing_by all_goals grind

/-- Whether two lists hold the same patterns one by one. -/
def sameAll : List Tree → List Tree → Bool
  | [], [] => true
  | s :: ss, t :: ts => same s t && sameAll ss ts
  | _, _ => false
termination_by ss => 2 * weightOfAll ss + 1
decreasing_by all_goals grind

end

theorem sameAll_chain_nil (t : Tree) : sameAll (chain t) [] = false := by
  cases t <;> simp only [chain, sameAll]

theorem sameAll_nil_chain (t : Tree) : sameAll [] (chain t) = false := by
  cases t <;> simp only [chain, sameAll]

/-- Trees are the same if their options are, one by one. -/
theorem sameAll_chain (s t : Tree) : sameAll (chain s) (chain t) = same s t := by
  cases s <;> cases t <;>
    simp only [chain, sameAll, same, sameAll_chain_nil, sameAll_nil_chain, Bool.and_true,
      Bool.and_false]

/-- Binary alternatives are the same if both sides are, however long the chains. The comparison goes
option by option; this equation gives back the two sides for proofs that follow the tree. -/
theorem same_either (l r l' r' : Tree) (pipe pipe' : Option Int) :
    same (either l r pipe) (either l' r' pipe') = (same l l' && same r r') := by
  rw [same, sameAll, sameAll_chain]

/-! ## Copies -/

/-- An option and those that follow it as a chain of binary alternatives that leans to
the right, with the places of the bars between them. -/
def relink : Tree → List Tree → List (Option Int) → Tree
  | t, u :: us, pipe :: pipes => either t (relink u us pipes) pipe
  | t, _, _ => t

mutual

/-- A copy of a tree. A chain is taken apart, and put together again from the copies of
its options. -/
def clone : Tree → Tree
  | char label place => char label place
  | concat parts s => concat (cloneAll parts) s
  | group inner s => group (clone inner) s
  | either l r pipe => relink (clone l) (cloneAll (chain r)) (pipe :: chainPipes r)
  | anyOf options pipes s => anyOf (cloneAll options) pipes s
  | repeated b body spelling s => repeated b (clone body) spelling s
termination_by t => 2 * weight t
decreasing_by all_goals grind

/-- A copy of each of some trees. -/
def cloneAll : List Tree → List Tree
  | [] => []
  | t :: ts => clone t :: cloneAll ts
termination_by ts => 2 * weightOfAll ts + 1
decreasing_by all_goals grind

end

/-! ## Chains -/

/-- Options as a chain of binary alternatives that leans to the right, each with the
same place for its bar; no options make no chain. -/
def chainOf? (pipe : Option Int) : List Tree → Option Tree
  | [] => none
  | t :: ts => some (chainFrom t ts)
where
  /-- The chain of an option and those that follow it. -/
  chainFrom : Tree → List Tree → Tree
    | t, [] => t
    | t, u :: us => .either t (chainFrom u us) pipe

/-- What is said of an attempt to make a chain of no options. -/
def emptyChainMessage : String := "Called make_right_tree with empty list"

/-! ## Unfolding a repetition -/

/-- What stands for the copies of a body beyond the required ones: any number of them, or
a choice between all the numbers that the range allows; nothing if no more are allowed. -/
def furtherParts (b : Bounds) (body : Tree) : List Tree :=
  match b.hi with
  | none => [star body]
  | some hi =>
    if b.lo < hi then
      (chainOf? none ((List.range (hi - b.lo + 1)).map fun n =>
        concat (List.replicate n body) .unknown)).toList
    else []

/-- The trees that stand for a repetition when they follow one another: the required
copies of the body, and what stands for further copies. -/
def unfoldedParts (b : Bounds) (body : Tree) : List Tree :=
  List.replicate b.lo body ++ furtherParts b body

/-- A repetition written with concatenation, choice and unlimited repetition only. -/
def unfolded (b : Bounds) (body : Tree) : Tree :=
  match unfoldedParts b body with
  | [t] => t
  | parts => concat parts .unknown

end Tree

end PatternAutomata
