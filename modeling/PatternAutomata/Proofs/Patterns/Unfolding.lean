/-
Unfolding all repetitions.

A repetition other than an unlimited one can be replaced by the tree that it unfolds to. That tree
holds many copies of the body, and with them every repetition inside it once for each copy, so a
tree may get larger and may have more repetitions than before. From the outside in it comes to an
end nevertheless: how many repetitions will have to be unfolded can be foretold
(`Tree.unfoldings`), since a repetition calls for one unfolding of its own and then for those of
as many bodies as its range asks for (`Bounds.copies`), and each step takes one away
(`Tree.Unfolds.unfoldings_eq`).

A step does not change what the tree describes (`Tree.Unfolds.language_eq`), and where there is no
further step only unlimited repetitions are left (`Tree.not_exists_unfolds_iff`). The tree that is
left does not depend on which of several repetitions is unfolded first: the same tree is made from
the inside out (`Tree.settled`), and no step changes that (`Tree.Unfolds.settled_eq`).
-/
import Mathlib.Algebra.GroupWithZero.Nat
import Mathlib.Logic.Relation
import PatternAutomata.Proofs.Grammar.DepthLimit
import PatternAutomata.Syntax.Language

set_option autoImplicit false

namespace PatternAutomata

/-- How many copies of the body the tree holds that a repetition unfolds to. -/
def Bounds.copies (b : Bounds) : Nat :=
  b.lo + match b.hi with
    | none => 1
    | some hi => (List.range (hi - b.lo + 1)).sum

namespace Tree

/-! ## Steps -/

/-- One repetition that is not unlimited, and inside of no other such one, is replaced by what it
unfolds to. -/
inductive Unfolds : Tree → Tree → Prop where
  | repetition {b : Bounds} {body : Tree} {spelling : String} {span : Span}
      (limited : b.isStar = false) : Unfolds (repeated b body spelling span) (unfolded b body)
  | part {before after : List Tree} {t u : Tree} {span : Span} (step : Unfolds t u) :
      Unfolds (concat (before ++ t :: after) span) (concat (before ++ u :: after) span)
  | inner {t u : Tree} {span : Span} (step : Unfolds t u) :
      Unfolds (group t span) (group u span)
  | left {l l' r : Tree} {pipe : Option Int} (step : Unfolds l l') :
      Unfolds (either l r pipe) (either l' r pipe)
  | right {l r r' : Tree} {pipe : Option Int} (step : Unfolds r r') :
      Unfolds (either l r pipe) (either l r' pipe)
  | option {before after : List Tree} {t u : Tree} {pipes : List (Option Int)} {span : Span}
      (step : Unfolds t u) :
      Unfolds (anyOf (before ++ t :: after) pipes span) (anyOf (before ++ u :: after) pipes span)
  | body {b : Bounds} {t u : Tree} {spelling : String} {span : Span} (unlimited : b.isStar = true)
      (step : Unfolds t u) : Unfolds (repeated b t spelling span) (repeated b u spelling span)

/-- Whether a tree is a repetition other than an unlimited one. -/
def isLimited : Tree → Bool
  | repeated b .. => !b.isStar
  | _ => false

/-- The only repetitions in a tree are unlimited ones. -/
def OnlyStars (t : Tree) : Prop := ∀ u, t.HasNode u → u.isLimited = false

/-- Only unlimited repetitions are in a tree exactly if it is itself none of the others and none of
them is in its children. -/
theorem onlyStars_iff_children {t : Tree} :
    t.OnlyStars ↔ t.isLimited = false ∧ ∀ c ∈ t.children, c.OnlyStars :=
  forall_hasNode_iff

/-! ## What a tree describes -/

/-- A step does not change what a tree describes. By induction on the place of the step: what the
repetition describes there is not changed by unfolding it, and around it nothing else is. -/
theorem Unfolds.language_eq {t u : Tree} (h : Unfolds t u) : language u = language t := by
  induction h with
  | @repetition b body => rw [language_unfolded, language]
  | part _ ih =>
    rw [language, language, languageOfSequence_append, languageOfSequence_append,
      languageOfSequence, languageOfSequence, ih]
  | inner _ ih => rw [language, language, ih]
  | left _ ih | right _ ih => rw [language, language, ih]
  | option _ ih =>
    rw [language, language, languageOfChoice_append, languageOfChoice_append, languageOfChoice,
      languageOfChoice, ih]
  | body _ _ ih => rw [language, language, ih]

/-! ## How many steps there are -/

mutual

/-- How many repetitions are unfolded, one after the other, until only unlimited ones are left.
Those inside a repetition are copied before they are unfolded, so they count once for each copy. -/
def unfoldings : Tree → Nat
  | char .. => 0
  | concat parts _ => unfoldingsOfAll parts
  | group inner _ => unfoldings inner
  | either l r _ => unfoldings l + unfoldings r
  | anyOf options .. => unfoldingsOfAll options
  | repeated b body .. =>
    if b.isStar then unfoldings body else b.copies * unfoldings body + 1

/-- How many repetitions are unfolded in some trees together. -/
def unfoldingsOfAll : List Tree → Nat
  | [] => 0
  | t :: ts => unfoldings t + unfoldingsOfAll ts

end

/-- The numbers for two rows of trees add up. -/
theorem unfoldingsOfAll_append (ts us : List Tree) :
    unfoldingsOfAll (ts ++ us) = unfoldingsOfAll ts + unfoldingsOfAll us := by
  induction ts with
  | nil => rw [List.nil_append, unfoldingsOfAll, Nat.zero_add]
  | cons t ts ih => rw [List.cons_append, unfoldingsOfAll, unfoldingsOfAll, ih, Nat.add_assoc]

/-- The number for one tree alone is that of the tree. -/
theorem unfoldingsOfAll_singleton (t : Tree) : unfoldingsOfAll [t] = unfoldings t := by
  rw [unfoldingsOfAll, unfoldingsOfAll, Nat.add_zero]

/-- For copies of one tree it is a multiple of that of the tree. -/
theorem unfoldingsOfAll_replicate (n : Nat) (t : Tree) :
    unfoldingsOfAll (List.replicate n t) = n * unfoldings t := by
  induction n with
  | zero => rw [List.replicate_zero, unfoldingsOfAll, Nat.zero_mul]
  | succ n ih =>
    rw [List.replicate_succ, unfoldingsOfAll, ih, Nat.succ_mul, Nat.add_comm]

/-- For rows of copies, the copies in all the rows count. -/
theorem unfoldingsOfAll_rows (ns : List Nat) (t : Tree) :
    unfoldingsOfAll (ns.map fun n => concat (List.replicate n t) .unknown) =
      ns.sum * unfoldings t := by
  induction ns with
  | nil => rw [List.map_nil, unfoldingsOfAll, List.sum_nil, Nat.zero_mul]
  | cons n ns ih =>
    rw [List.map_cons, unfoldingsOfAll, unfoldings, unfoldingsOfAll_replicate, ih, List.sum_cons,
      Nat.add_mul]

/-- A chain of alternatives adds nothing to its options. -/
theorem unfoldings_chainFrom (pipe : Option Int) (t : Tree) (ts : List Tree) :
    unfoldings (chainOf?.chainFrom pipe t ts) = unfoldingsOfAll (t :: ts) := by
  induction ts generalizing t with
  | nil => rw [chainOf?.chainFrom, unfoldingsOfAll_singleton]
  | cons u us ih => rw [chainOf?.chainFrom, unfoldings, ih, unfoldingsOfAll.eq_2 t]

/-- Nor does a chain that may be missing because there are no options. -/
theorem unfoldingsOfAll_chainOf? (pipe : Option Int) (ts : List Tree) :
    unfoldingsOfAll (chainOf? pipe ts).toList = unfoldingsOfAll ts := by
  cases ts with
  | nil => rfl
  | cons t ts =>
    rw [chainOf?, Option.toList, unfoldingsOfAll_singleton, unfoldings_chainFrom]

/-- A single part counts for itself, and a row for its parts. -/
theorem unfoldings_unfolded_eq (b : Bounds) (body : Tree) :
    unfoldings (unfolded b body) = unfoldingsOfAll (unfoldedParts b body) := by
  rw [unfolded]
  split
  · next t ht => rw [ht, unfoldingsOfAll_singleton]
  · rw [unfoldings]

/-- What a repetition unfolds to calls for the unfoldings of all the copies of its body: those that
are required, and behind them an unlimited repetition or one row for each number of further
copies. -/
theorem unfoldings_unfolded (b : Bounds) (body : Tree) :
    unfoldings (unfolded b body) = b.copies * unfoldings body := by
  rw [unfoldings_unfolded_eq, unfoldedParts, unfoldingsOfAll_append, unfoldingsOfAll_replicate,
    Bounds.copies, Nat.add_mul, Nat.add_left_cancel_iff, furtherParts]
  have hle := b.lo_le_hi
  cases b.hi with
  | none =>
    -- the rest is an unlimited repetition, which holds one more copy
    have hstar : Bounds.star.isStar = true := rfl
    rw [unfoldingsOfAll_singleton, star, unfoldings, if_pos hstar, Nat.one_mul]
  | some hi =>
    simp only
    by_cases hlt : b.lo < hi
    · rw [if_pos hlt, unfoldingsOfAll_chainOf?, unfoldingsOfAll_rows]
    · have hzero : hi - b.lo = 0 := by omega
      rw [if_neg hlt, unfoldingsOfAll, hzero]
      exact (Nat.zero_mul _).symm

/-- Each step is one of those that were foretold. The repetition itself counted for one, and the
copies of its body that take its place for the rest. -/
theorem Unfolds.unfoldings_eq {t u : Tree} (h : Unfolds t u) :
    unfoldings t = unfoldings u + 1 := by
  induction h with
  | repetition limited => rw [unfoldings, limited, if_neg Bool.false_ne_true, unfoldings_unfolded]
  | part _ ih | option _ ih =>
    rw [unfoldings, unfoldings, unfoldingsOfAll_append, unfoldingsOfAll_append, unfoldingsOfAll,
      unfoldingsOfAll, ih]
    omega
  | inner _ ih => rw [unfoldings, unfoldings, ih]
  | left _ ih | right _ ih =>
    rw [unfoldings, unfoldings, ih]
    omega
  | body unlimited _ ih =>
    rw [unfoldings, unfoldings, if_pos unlimited, if_pos unlimited, ih]

/-- There is no run of steps that goes on forever. -/
theorem acc_unfolds (t : Tree) : Acc (fun u v => Unfolds v u) t := by
  -- the number foretold goes down with each step
  have hless : Subrelation (fun u v => Unfolds v u) (measure unfoldings).rel := by
    intro u v h
    show unfoldings u < unfoldings v
    rw [h.unfoldings_eq]
    exact Nat.lt_succ_self _
  exact (hless.wf (measure unfoldings).wf).apply t

/-! ## Where no step is left -/

mutual

/-- No step is foretold exactly where only unlimited repetitions are in the tree. -/
theorem onlyStars_iff_unfoldings (t : Tree) : t.OnlyStars ↔ unfoldings t = 0 := by
  rw [onlyStars_iff_children]
  cases t with
  | char =>
    rw [unfoldings]
    exact iff_of_true ⟨rfl, nofun⟩ rfl
  | concat parts =>
    rw [unfoldings, ← forall_onlyStars_iff parts]
    exact and_iff_right rfl
  | group inner =>
    rw [unfoldings, ← onlyStars_iff_unfoldings inner, children, List.forall_mem_singleton]
    exact and_iff_right rfl
  | either l r =>
    rw [unfoldings, Nat.add_eq_zero_iff, ← onlyStars_iff_unfoldings l,
      ← onlyStars_iff_unfoldings r, children, List.forall_mem_cons, List.forall_mem_singleton]
    exact and_iff_right rfl
  | anyOf options =>
    rw [unfoldings, ← forall_onlyStars_iff options]
    exact and_iff_right rfl
  | repeated b body =>
    rw [unfoldings, children, List.forall_mem_singleton, onlyStars_iff_unfoldings body, isLimited]
    cases b.isStar with
    | true => exact and_iff_right rfl
    | false => exact iff_of_false (fun h => nomatch h.1) (Nat.succ_ne_zero _)

/-- The same for some trees. -/
theorem forall_onlyStars_iff (ts : List Tree) :
    (∀ t ∈ ts, t.OnlyStars) ↔ unfoldingsOfAll ts = 0 := by
  cases ts with
  | nil => exact iff_of_true (List.forall_mem_nil _) rfl
  | cons t ts =>
    rw [List.forall_mem_cons, unfoldingsOfAll, Nat.add_eq_zero_iff, onlyStars_iff_unfoldings t,
      forall_onlyStars_iff ts]

end

mutual

/-- As long as steps are foretold there is one. It is taken at the outermost repetition on some way
down the tree, below unlimited ones only. -/
theorem exists_unfolds {t : Tree} (h : unfoldings t ≠ 0) : ∃ u, Unfolds t u := by
  cases t with
  | char => exact absurd rfl h
  | concat parts =>
    rw [unfoldings] at h
    obtain ⟨before, t, after, u, rfl, hstep⟩ := exists_unfolds_mem h
    exact ⟨_, .part hstep⟩
  | group inner =>
    rw [unfoldings] at h
    obtain ⟨u, hstep⟩ := exists_unfolds h
    exact ⟨_, .inner hstep⟩
  | either l r =>
    rw [unfoldings] at h
    -- whichever side has a step foretold, the left one first
    by_cases hl : unfoldings l = 0
    · have hr : unfoldings r ≠ 0 := by omega
      obtain ⟨u, hstep⟩ := exists_unfolds hr
      exact ⟨_, .right hstep⟩
    · obtain ⟨u, hstep⟩ := exists_unfolds hl
      exact ⟨_, .left hstep⟩
  | anyOf options =>
    rw [unfoldings] at h
    obtain ⟨before, t, after, u, rfl, hstep⟩ := exists_unfolds_mem h
    exact ⟨_, .option hstep⟩
  | repeated b body =>
    rw [unfoldings] at h
    cases hstar : b.isStar with
    | true =>
      rw [if_pos hstar] at h
      obtain ⟨u, hstep⟩ := exists_unfolds h
      exact ⟨_, .body hstar hstep⟩
    | false => exact ⟨_, .repetition hstar⟩

/-- The same for some trees, one of which has a step. -/
theorem exists_unfolds_mem {ts : List Tree} (h : unfoldingsOfAll ts ≠ 0) :
    ∃ before t after u, ts = before ++ t :: after ∧ Unfolds t u := by
  cases ts with
  | nil => exact absurd rfl h
  | cons t ts =>
    rw [unfoldingsOfAll] at h
    -- the first tree that has a step
    by_cases ht : unfoldings t = 0
    · have hts : unfoldingsOfAll ts ≠ 0 := by omega
      obtain ⟨before, s, after, u, rfl, hstep⟩ := exists_unfolds_mem hts
      exact ⟨t :: before, s, after, u, rfl, hstep⟩
    · obtain ⟨u, hstep⟩ := exists_unfolds ht
      exact ⟨[], t, ts, u, rfl, hstep⟩

end

/-- Steps end exactly where only unlimited repetitions are left. -/
theorem not_exists_unfolds_iff {t : Tree} : (∀ u, ¬Unfolds t u) ↔ t.OnlyStars := by
  rw [onlyStars_iff_unfoldings]
  constructor
  · intro h
    by_contra hne
    obtain ⟨u, hstep⟩ := exists_unfolds hne
    exact h u hstep
  · intro h u hstep
    rw [hstep.unfoldings_eq] at h
    exact Nat.succ_ne_zero _ h

/-- Some run of steps leads to where only unlimited repetitions are left. -/
theorem exists_onlyStars (t : Tree) : ∃ u, Relation.ReflTransGen Unfolds t u ∧ u.OnlyStars := by
  -- each step leads to a tree from which fewer are left
  induction acc_unfolds t with
  | intro t _ ih =>
    by_cases hstep : ∃ u, Unfolds t u
    · obtain ⟨u, hstep⟩ := hstep
      obtain ⟨v, hrun, hv⟩ := ih u hstep
      exact ⟨v, .head hstep hrun, hv⟩
    · exact ⟨t, .refl, not_exists_unfolds_iff.1 (not_exists.1 hstep)⟩

/-! ## The tree that is left -/

mutual

/-- The tree with all repetitions unfolded but the unlimited ones, from the inside out. Unfolding a
body before it is copied spares unfolding each of its copies. -/
def settled : Tree → Tree
  | char label place => char label place
  | concat parts span => concat (settledAll parts) span
  | group inner span => group (settled inner) span
  | either l r pipe => either (settled l) (settled r) pipe
  | anyOf options pipes span => anyOf (settledAll options) pipes span
  | repeated b body spelling span =>
    if b.isStar then repeated b (settled body) spelling span else unfolded b (settled body)

/-- Some trees with all repetitions unfolded but the unlimited ones. -/
def settledAll : List Tree → List Tree
  | [] => []
  | t :: ts => settled t :: settledAll ts

end

/-- Settling some trees is settling each of them. -/
theorem settledAll_eq_map (ts : List Tree) : settledAll ts = ts.map settled := by
  induction ts with
  | nil => rfl
  | cons t ts ih => rw [settledAll, ih, List.map_cons]

/-- Settling a chain of alternatives is settling its options. -/
theorem settled_chainFrom (pipe : Option Int) (t : Tree) (ts : List Tree) :
    settled (chainOf?.chainFrom pipe t ts) =
      chainOf?.chainFrom pipe (settled t) (ts.map settled) := by
  induction ts generalizing t with
  | nil => rfl
  | cons u us ih => rw [chainOf?.chainFrom, settled, ih, List.map_cons, chainOf?.chainFrom]

/-- Settling the parts that a repetition unfolds to is unfolding it with its body settled. -/
theorem map_settled_unfoldedParts (b : Bounds) (body : Tree) :
    (unfoldedParts b body).map settled = unfoldedParts b (settled body) := by
  -- a row of copies is settled copy by copy
  have hrow : ∀ n, settled (concat (List.replicate n body) .unknown) =
      concat (List.replicate n (settled body)) .unknown := by
    intro n
    rw [settled, settledAll_eq_map, List.map_replicate]
  rw [unfoldedParts, List.map_append, List.map_replicate, unfoldedParts, furtherParts,
    furtherParts]
  congr 1
  cases b.hi with
  | none =>
    have hstar : Bounds.star.isStar = true := rfl
    simp only [List.map_cons, List.map_nil, star, settled, if_pos hstar]
  | some hi =>
    simp only
    split
    · rw [List.range_succ_eq_map, List.map_cons, List.map_cons, chainOf?, chainOf?, Option.toList,
        Option.toList, List.map_cons, List.map_nil, settled_chainFrom, hrow, List.map_map]
      simp only [Function.comp_def, hrow]
    · rfl

/-- It makes no difference whether the body is settled before a repetition is unfolded or its
copies are afterwards. -/
theorem settled_unfolded (b : Bounds) (body : Tree) :
    settled (unfolded b body) = unfolded b (settled body) := by
  have hparts := map_settled_unfoldedParts b body
  rw [unfolded, unfolded, ← hparts]
  generalize unfoldedParts b body = parts
  obtain _ | ⟨t, _ | ⟨u, rest⟩⟩ := parts
  · rfl
  · rfl
  · show settled (concat (t :: u :: rest) .unknown) = _
    rw [settled, settledAll_eq_map]
    rfl

/-- No step changes the tree that is left. By induction on the place of the step; the repetition
that is unfolded there is one that settling unfolds as well. -/
theorem Unfolds.settled_eq {t u : Tree} (h : Unfolds t u) : settled t = settled u := by
  induction h with
  | repetition limited => rw [settled, limited, if_neg Bool.false_ne_true, settled_unfolded]
  | part _ ih | option _ ih =>
    rw [settled, settled, settledAll_eq_map, settledAll_eq_map, List.map_append, List.map_append,
      List.map_cons, List.map_cons, ih]
  | inner _ ih | left _ ih | right _ ih => rw [settled, settled, ih]
  | body unlimited _ ih => rw [settled, settled, if_pos unlimited, if_pos unlimited, ih]

mutual

/-- Settling leaves a tree with unlimited repetitions only as it is. -/
theorem settled_eq_self {t : Tree} (h : t.OnlyStars) : settled t = t := by
  obtain ⟨hself, hchildren⟩ := onlyStars_iff_children.1 h
  cases t with
  | char => rw [settled]
  | concat parts =>
    have hparts : ∀ t ∈ parts, t.OnlyStars := hchildren
    rw [settled, settledAll_eq_self hparts]
  | group inner => rw [settled, settled_eq_self (hchildren inner List.mem_cons_self)]
  | either l r =>
    obtain ⟨hl, hr⟩ := List.forall_mem_cons.1 hchildren
    rw [settled, settled_eq_self hl, settled_eq_self (hr r List.mem_cons_self)]
  | anyOf options =>
    have hoptions : ∀ t ∈ options, t.OnlyStars := hchildren
    rw [settled, settledAll_eq_self hoptions]
  | repeated b body =>
    rw [isLimited, Bool.not_eq_false'] at hself
    rw [settled, if_pos hself, settled_eq_self (hchildren body List.mem_cons_self)]

/-- The same for some trees. -/
theorem settledAll_eq_self {ts : List Tree} (h : ∀ t ∈ ts, t.OnlyStars) : settledAll ts = ts := by
  cases ts with
  | nil => rfl
  | cons t ts =>
    obtain ⟨ht, hts⟩ := List.forall_mem_cons.1 h
    rw [settledAll, settled_eq_self ht, settledAll_eq_self hts]

end

/-! ## The main statement -/

/-- A repetition describes what the tree describes that it unfolds to. If the repetitions of a tree
other than the unlimited ones are unfolded from the outside in, in whatever order those that are
side by side, that comes to an end; all along the tree describes the same words; it ends exactly
when only unlimited repetitions are left, and always with one and the same tree. -/
theorem unfolding_settles (t : Tree) :
    (∀ (b : Bounds) (body : Tree) (spelling : String) (span : Span),
      language (unfolded b body) = language (repeated b body spelling span)) ∧
      Acc (fun u v => Unfolds v u) t ∧
      (∀ u, Relation.ReflTransGen Unfolds t u →
        language u = language t ∧ ((∀ v, ¬Unfolds u v) ↔ u.OnlyStars)) ∧
      ∀ u, Relation.ReflTransGen Unfolds t u ∧ u.OnlyStars ↔ u = settled t := by
  -- each step keeps the tree that is left, and at the end that tree is the one at hand
  have hleft : ∀ u, Relation.ReflTransGen Unfolds t u → u.OnlyStars → u = settled t := by
    intro u hrun hu
    have hsettled : settled t = settled u := by
      clear hu
      induction hrun with
      | refl => rfl
      | tail _ hstep ih => exact ih.trans hstep.settled_eq
    rw [hsettled, settled_eq_self hu]
  refine ⟨?_, acc_unfolds t, ?_, ?_⟩
  · intro b body spelling span
    rw [language_unfolded, language]
  · intro u hrun
    refine ⟨?_, not_exists_unfolds_iff⟩
    induction hrun with
    | refl => rfl
    | tail _ hstep ih => exact hstep.language_eq.trans ih
  · intro u
    constructor
    · exact fun h => hleft u h.1 h.2
    · rintro rfl
      obtain ⟨v, hrun, hv⟩ := exists_onlyStars t
      rw [← hleft v hrun hv]
      exact ⟨hrun, hv⟩

end Tree

end PatternAutomata
