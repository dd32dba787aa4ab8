/-
How deeply building a tree nests.

The build of a tree calls for the builds of other trees: its parts, its options, its body, or the
tree that a repetition unfolds to (`Tree.calls`), and is put together from these alone
(`Tree.build_eq_joined`). So at one time the builds of a row of trees are under way, each called
for by the one before (`Tree.UnderWay`). The longest such row is counted by `Tree.nesting`, and a
build that may not nest more deeply than some room allows comes out exactly if the room is enough
(`Tree.buildWithin_eq`).

The depth of a tree is meant to count this too. It allows three levels for a repetition, which is
enough for all ranges but those that require some copies and allow a limited number more
(`Bounds.isMixed`): these nest four levels. Hence building nests no more deeply than the depth and
the number of mixed ranges one inside another together (`Tree.nesting_spec`), and more deeply than
the depth if there is a mixed range around all else (`Tree.not_underWay_le_depth`).
-/
import PatternAutomata.Fragment

set_option autoImplicit false

namespace PatternAutomata

/-! ## What a build calls for

A build runs as a computation in which the builds that it calls for run one after the other. Which
those are, and what is done with their results, is kept apart here. -/

namespace Tree

/-- The trees whose builds the build of a tree calls for. -/
def calls : Tree → List Tree
  | char .. => []
  | concat parts _ => parts
  | group inner _ => [inner]
  | either l r _ => l :: r.chain
  | anyOf options .. => options
  | repeated b body .. => [if b.isStar then body else unfolded b body]

/-- What the build of a tree does with the builds that it calls for. It is given these in the order
in which the tree calls for them; a letter calls for none. -/
def joined : Tree → List (Builder Automaton) → Builder Automaton
  | char l _, _ => .letter l
  | concat .., bs => .sequence bs
  | group .., bs => bs.headD .nothing
  | either .., bs => .eitherOf (bs.headD .nothing) bs.tail
  | anyOf .., bs => do .choice (← bs.mapM id)
  | repeated b .., bs => if b.isStar then .star (bs.headD .nothing) else bs.headD .nothing

/-- A tree that is no binary choice is a chain of one option. -/
theorem chain_eq_singleton {t : Tree} (h : t.isEither = false) : t.chain = [t] := by
  cases t with
  | either => cases h
  | _ => rfl

/-- A tree of any other kind is no binary choice. -/
theorem isEither_eq_false {t : Tree} (h : ∀ l r pipe, t ≠ either l r pipe) :
    t.isEither = false := by
  cases t with
  | either l r pipe => exact absurd rfl (h l r pipe)
  | _ => rfl

/-- A chain of alternatives is built from the builds of its options. By induction along the
chain. -/
theorem build_either (l r : Tree) (pipe : Option Int) :
    build (either l r pipe) = .eitherOf (build l) (buildAll r.chain) := by
  induction r using chain.induct generalizing l pipe with
  | case1 l' r' pipe' ih => rw [build, ih, chain, buildAll, Builder.eitherOf]
  | case2 r h =>
    rw [build, chain_eq_singleton (isEither_eq_false h), buildAll, buildAll, Builder.eitherOf,
      Builder.eitherOf]

/-- Building each of some trees is running their builds one after the other. -/
theorem buildEach_eq (ts : List Tree) : buildEach ts = (buildAll ts).mapM id := by
  induction ts with
  | nil => rfl
  | cons t ts ih =>
    rw [buildEach, ih, buildAll, List.mapM_cons]
    rfl

/-- The build of a tree is put together from the builds that it calls for. -/
theorem build_eq_joined (t : Tree) : t.build = t.joined (buildAll t.calls) := by
  cases t with
  | char => rfl
  | concat => rw [build, calls, joined]
  | group => rfl
  | either l r pipe => rw [build_either, calls, joined, buildAll, List.headD_cons, List.tail_cons]
  | anyOf options pipes span => rw [build, calls, joined, buildEach_eq]
  | repeated b body spelling span =>
    rw [build, calls, joined, buildAll, List.headD_cons]
    cases hb : b.isStar with
    | true => rw [Builder.repetition, hb, if_pos rfl, if_pos rfl, if_pos rfl]
    | false =>
      rw [if_neg Bool.false_ne_true, if_neg Bool.false_ne_true, build_unfolded hb]

/-- Builds that are under way at one time: the first one is that of a tree, and each one was
called for by the one before. -/
inductive UnderWay : Tree → List Tree → Prop
  | last (t : Tree) : UnderWay t [t]
  | call {t u : Tree} {stack : List Tree} (called : u ∈ t.calls) (rest : UnderWay u stack) :
      UnderWay t (t :: stack)

/-- The build of a tree, if at most so many builds may be under way at one time. With no room left
nothing can be built, not even a letter. -/
def buildWithin : Nat → Tree → Option (Builder Automaton)
  | 0, _ => none
  | room + 1, t => (t.calls.mapM (buildWithin room)).map t.joined

end Tree

/-! ## Counting -/

/-- Whether a range requires some copies and allows a limited number more. -/
def Bounds.isMixed (b : Bounds) : Bool :=
  match b.hi with
  | none => false
  | some hi => 0 < b.lo && b.lo < hi

/-- How deeply the build of a repetition nests if that of its body nests so deeply. -/
def Bounds.nesting (b : Bounds) (n : Nat) : Nat :=
  if b.isStar then 1 + n
  else
    match b.hi with
    | none => n + 3
    | some hi =>
      if b.lo < hi then if b.lo = 0 then n + 3 else n + 4
      else
        match b.lo with
        | 0 => 2
        | 1 => n + 1
        | _ + 2 => n + 2

namespace Tree

mutual

/-- How many builds are under way at one time at most while a tree is built. -/
def nesting : Tree → Nat
  | char .. => 1
  | concat parts _ => 1 + greatestNesting parts
  | group inner _ => 1 + nesting inner
  | either l r _ =>
    max (1 + nesting l) (if r.isEither then nesting r else 1 + nesting r)
  | anyOf options .. => 1 + greatestNesting options
  | repeated b body .. => b.nesting (nesting body)

/-- The greatest such number for any of some trees. -/
def greatestNesting : List Tree → Nat
  | [] => 0
  | t :: ts => max (nesting t) (greatestNesting ts)

end

mutual

/-- How many mixed ranges there are one inside another at most. -/
def mixedRanges : Tree → Nat
  | char .. => 0
  | concat parts _ => mostMixedRanges parts
  | group inner _ => mixedRanges inner
  | either l r _ => max (mixedRanges l) (mixedRanges r)
  | anyOf options .. => mostMixedRanges options
  | repeated b body .. => mixedRanges body + if b.isMixed then 1 else 0

/-- The greatest such number for any of some trees. -/
def mostMixedRanges : List Tree → Nat
  | [] => 0
  | t :: ts => max (mixedRanges t) (mostMixedRanges ts)

end

/-! ## Greatest numbers

The greatest number for a row of trees is put together from those for its pieces. -/

/-- For two rows it is the greater of the two. -/
theorem greatestNesting_append (ts us : List Tree) :
    greatestNesting (ts ++ us) = max (greatestNesting ts) (greatestNesting us) := by
  induction ts with
  | nil => rw [List.nil_append, greatestNesting, Nat.zero_max]
  | cons t ts ih => rw [List.cons_append, greatestNesting, ih, greatestNesting, Nat.max_assoc]

/-- For copies of one tree it is the number of the tree, unless there are no copies. -/
theorem greatestNesting_replicate (n : Nat) (t : Tree) :
    greatestNesting (List.replicate n t) = if n = 0 then 0 else nesting t := by
  induction n with
  | zero => rfl
  | succ n ih =>
    rw [List.replicate_succ, greatestNesting, ih, if_neg n.succ_ne_zero]
    split
    · exact Nat.max_zero _
    · exact Nat.max_self _

/-- It is no greater than a bound exactly if none of the trees exceeds the bound. -/
theorem greatestNesting_le_iff {ts : List Tree} {n : Nat} :
    greatestNesting ts ≤ n ↔ ∀ t ∈ ts, nesting t ≤ n := by
  induction ts with
  | nil => exact iff_of_true (Nat.zero_le n) fun t ht => absurd ht List.not_mem_nil
  | cons t ts ih => rw [greatestNesting, Nat.max_le, ih, List.forall_mem_cons]

/-- The greatest number is that of some tree. Only where there are no trees is it that of none. -/
theorem exists_greatestNesting {ts : List Tree} (h : ts ≠ []) :
    ∃ t ∈ ts, nesting t = greatestNesting ts := by
  induction ts with
  | nil => exact absurd rfl h
  | cons t ts ih =>
    rw [greatestNesting]
    rcases Nat.le_total (greatestNesting ts) (nesting t) with hle | hle
    · exact ⟨t, List.mem_cons_self, (Nat.max_eq_left hle).symm⟩
    · cases ts with
      | nil =>
        rw [greatestNesting, Nat.max_zero]
        exact ⟨t, List.mem_cons_self, rfl⟩
      | cons u us =>
        obtain ⟨v, hv, heq⟩ := ih (List.cons_ne_nil u us)
        exact ⟨v, List.mem_cons_of_mem t hv, heq.trans (Nat.max_eq_right hle).symm⟩

/-! ## Chains and repetitions -/

/-- A chain of alternatives nests one level around its options. The choices inside the chain add no
level, as the fold over the options builds none of them. -/
theorem nesting_either (l r : Tree) (pipe : Option Int) :
    nesting (either l r pipe) = 1 + greatestNesting (l :: r.chain) := by
  induction r using chain.induct generalizing l pipe with
  | case1 l' r' pipe' ih =>
    rw [nesting, isEither, if_pos rfl, ih, chain, Nat.add_max_add_left, greatestNesting.eq_2 l]
  | case2 r h =>
    have hplain := isEither_eq_false h
    rw [nesting, hplain, if_neg Bool.false_ne_true, chain_eq_singleton hplain, greatestNesting,
      greatestNesting, greatestNesting, Nat.max_zero, Nat.add_max_add_left]

/-- The chain of alternatives that is made of some trees falls apart into these, if none of them is
a chain. -/
theorem chain_chainFrom (pipe : Option Int) {t : Tree} {ts : List Tree}
    (h : ∀ u ∈ t :: ts, u.isEither = false) : (chainOf?.chainFrom pipe t ts).chain = t :: ts := by
  induction ts generalizing t with
  | nil => exact chain_eq_singleton (h t List.mem_cons_self)
  | cons u us ih => rw [chainOf?.chainFrom, chain, ih fun v hv => h v (List.mem_cons_of_mem t hv)]

/-- A row of copies nests one level around the body, if there are any. -/
theorem nesting_copies (n : Nat) (body : Tree) :
    nesting (concat (List.replicate n body) .unknown) = 1 + if n = 0 then 0 else nesting body := by
  rw [nesting, greatestNesting_replicate]

/-- The choice between the numbers of copies up to a limit nests one level around the longest row of
copies. There are at least two numbers, so it is a choice, and one of them is a single copy, so the
row is not empty. -/
theorem nesting_choice_copies (n : Nat) (body : Tree) :
    greatestNesting (chainOf? none ((List.range (n + 2)).map fun k =>
      concat (List.replicate k body) .unknown)).toList = nesting body + 2 := by
  have hplain : ∀ u ∈ (List.range (n + 2)).map fun k => concat (List.replicate k body) .unknown,
      u.isEither = false := by
    intro u hu
    obtain ⟨k, _, rfl⟩ := List.mem_map.1 hu
    rfl
  have hgreatest : greatestNesting ((List.range (n + 2)).map fun k =>
      concat (List.replicate k body) .unknown) = 1 + nesting body := by
    apply Nat.le_antisymm
    · rw [greatestNesting_le_iff]
      intro u hu
      obtain ⟨k, _, rfl⟩ := List.mem_map.1 hu
      rw [nesting_copies]
      split
      · exact Nat.le_add_right 1 _
      · exact Nat.le_refl _
    · -- a row of one copy is among them
      have hone := greatestNesting_le_iff.1 (Nat.le_refl (greatestNesting
        ((List.range (n + 2)).map fun k => concat (List.replicate k body) .unknown))) _
        (List.mem_map_of_mem (List.mem_range.2 (Nat.lt_add_left n Nat.one_lt_two)))
      rwa [nesting_copies, if_neg Nat.one_ne_zero] at hone
  -- for the rest it only counts that there are two rows or more and that none is a chain
  generalize hrows : (List.range (n + 2)).map (fun k => concat (List.replicate k body) .unknown) =
    rows at hplain hgreatest
  have hlen : rows.length = n + 2 := by rw [← hrows, List.length_map, List.length_range]
  obtain _ | ⟨t, _ | ⟨u, us⟩⟩ := rows
  · cases hlen
  · cases hlen
  · rw [chainOf?, Option.toList, greatestNesting, greatestNesting, Nat.max_zero,
      chainOf?.chainFrom, nesting_either, chain_chainFrom none fun v hv =>
        hplain v (List.mem_cons_of_mem t hv), hgreatest]
    omega

/-- Parts in a row nest one level around the deepest of them, unless there is one only: a single
part takes the place of the row. -/
theorem nesting_unfolded_eq (b : Bounds) (body : Tree) :
    nesting (unfolded b body) = greatestNesting (unfoldedParts b body) +
      if (unfoldedParts b body).length = 1 then 0 else 1 := by
  rw [unfolded]
  generalize unfoldedParts b body = parts
  obtain _ | ⟨t, _ | ⟨u, us⟩⟩ := parts
  · rfl
  · rw [greatestNesting, greatestNesting, Nat.max_zero]
    rfl
  · rw [nesting, Nat.add_comm]
    rfl

/-- A repetition that is not unlimited nests one level around the tree that it unfolds to. The cases
are those of the range: without a limit, with room for more copies than it requires, and exact. -/
theorem nesting_unfolded {b : Bounds} (hb : b.isStar = false) (body : Tree) :
    1 + nesting (unfolded b body) = b.nesting (nesting body) := by
  rw [nesting_unfolded_eq, unfoldedParts, greatestNesting_append, greatestNesting_replicate,
    List.length_append, List.length_replicate, furtherParts]
  simp only [Bounds.nesting, hb, Bool.false_eq_true, if_false]
  obtain ⟨lo, hi, hle⟩ := b
  cases hi with
  | none =>
    -- a range without a limit that requires nothing would be unlimited
    have hlo : lo ≠ 0 := by
      rintro rfl
      cases hb
    have hstar : nesting (star body) = 1 + nesting body := by
      rw [star, nesting, Bounds.nesting]
      rfl
    simp only [greatestNesting, hstar, List.length_singleton, hlo, if_false, Nat.max_zero]
    rw [if_neg (by omega)]
    omega
  | some hi =>
    have hle' : lo ≤ hi := hle hi rfl
    by_cases hlt : lo < hi
    -- there is one further part, a choice between the numbers of copies that may be added
    · obtain ⟨n, rfl⟩ : ∃ n, hi = lo + n + 1 := ⟨hi - lo - 1, by omega⟩
      have hrows : lo + n + 1 - lo + 1 = n + 2 := by omega
      simp only [if_pos hlt, hrows, nesting_choice_copies]
      have hlen : (chainOf? none ((List.range (n + 2)).map fun k =>
          concat (List.replicate k body) .unknown)).toList.length = 1 := by
        rw [List.range_succ_eq_map, List.map_cons, chainOf?]
        rfl
      rw [hlen]
      by_cases hlo : lo = 0
      · simp only [hlo, if_true]
        omega
      · simp only [hlo, if_false]
        rw [if_neg (by omega)]
        omega
    · simp only [if_neg hlt, greatestNesting, List.length_nil, Nat.max_zero, Nat.add_zero]
      -- no copies are the empty row, one copy is the body itself, and only more make a row around
      -- it
      obtain _ | _ | k := lo
      · rfl
      · simp only [Nat.zero_add, Nat.one_ne_zero, if_false, if_true]
        omega
      · simp only [Nat.succ_ne_zero, if_false]
        rw [if_neg (by omega)]
        omega

/-- A build nests one level around the deepest of those that it calls for. This is what the number
is for; that it counts the builds under way follows from it by induction. -/
theorem nesting_eq (t : Tree) : t.nesting = 1 + greatestNesting t.calls := by
  cases t with
  | char => rfl
  | concat => rw [nesting, calls]
  | group => rw [nesting, calls, greatestNesting, greatestNesting, Nat.max_zero]
  | either l r pipe => rw [nesting_either, calls]
  | anyOf => rw [nesting, calls]
  | repeated b body spelling span =>
    rw [nesting, calls, greatestNesting, greatestNesting, Nat.max_zero]
    cases hb : b.isStar with
    | true => rw [Bounds.nesting, hb, if_pos rfl, if_pos rfl]
    | false => rw [if_neg Bool.false_ne_true, nesting_unfolded hb]

/-- A build nests more deeply than each of those that it calls for. -/
theorem nesting_lt_of_mem_calls {t u : Tree} (h : u ∈ t.calls) : u.nesting < t.nesting := by
  have hle := greatestNesting_le_iff.1 (Nat.le_refl (greatestNesting t.calls)) u h
  rw [nesting_eq t]
  omega

/-! ## What the number counts -/

/-- No more builds are under way at one time. By induction on the row of builds, each of which takes
one level away. -/
theorem UnderWay.length_le {t : Tree} {stack : List Tree} (h : t.UnderWay stack) :
    stack.length ≤ t.nesting := by
  induction h with
  | last t =>
    rw [nesting_eq]
    exact Nat.le_add_right 1 _
  | call called _ ih => exact Nat.lt_of_le_of_lt ih (nesting_lt_of_mem_calls called)

/-- So many builds are under way at some time. By strong induction on the number: at each level the
deepest of the builds that are called for is followed. -/
theorem exists_underWay (t : Tree) : ∃ stack, t.UnderWay stack ∧ stack.length = t.nesting := by
  induction hn : t.nesting using Nat.strongRecOn generalizing t with
  | _ n ih =>
    rw [nesting_eq] at hn
    by_cases hnone : t.calls = []
    · rw [hnone, greatestNesting] at hn
      exact ⟨[t], .last t, hn⟩
    · obtain ⟨u, hu, hgreatest⟩ := exists_greatestNesting hnone
      obtain ⟨stack, hstack, hlen⟩ := ih u.nesting (by omega) u rfl
      refine ⟨t :: stack, .call hu hstack, ?_⟩
      rw [List.length_cons, hlen]
      omega

/-- Room for so many builds under way at one time is what a build needs. By induction on the room,
and for each room over the trees that are called for. -/
theorem buildWithin_eq (room : Nat) (t : Tree) :
    t.buildWithin room = if t.nesting ≤ room then some t.build else none := by
  induction room generalizing t with
  | zero =>
    rw [buildWithin, nesting_eq, if_neg (by omega)]
  | succ room ih =>
    -- the same for all trees that are called for: the first one without room makes the whole build
    -- fail
    have hall : ∀ ts : List Tree, ts.mapM (buildWithin room) =
        if greatestNesting ts ≤ room then some (buildAll ts) else none := by
      intro ts
      induction ts with
      | nil => rfl
      | cons u us ihu =>
        rw [List.mapM_cons, ihu, ih, greatestNesting, buildAll]
        by_cases hu : u.nesting ≤ room
        · by_cases hus : greatestNesting us ≤ room
          · rw [if_pos hu, if_pos hus, if_pos (Nat.max_le.2 ⟨hu, hus⟩)]
            rfl
          · rw [if_pos hu, if_neg hus, if_neg fun h => hus (Nat.max_le.1 h).2]
            rfl
        · rw [if_neg hu, if_neg fun h => hu (Nat.max_le.1 h).1]
          rfl
    rw [buildWithin, hall, nesting_eq, build_eq_joined]
    by_cases h : greatestNesting t.calls ≤ room
    · rw [if_pos h, if_pos (by omega)]
      rfl
    · rw [if_neg h, if_neg (by omega)]
      rfl

/-! ## The depth

What is left is arithmetic: each kind of node adds so many levels to the nesting and so many to the
depth. -/

/-- A repetition nests three levels around its body at most, and four if its range is mixed. Being
mixed is the one case in which a choice stands inside a row inside the repetition. -/
theorem nesting_bounds_le (b : Bounds) (n : Nat) :
    b.nesting n ≤ n + 3 + if b.isMixed then 1 else 0 := by
  obtain ⟨lo, hi, _⟩ := b
  rw [Bounds.nesting, Bounds.isMixed]
  split
  · omega
  · cases hi with
    | none => exact Nat.le_add_right _ _
    | some hi =>
      simp only [Bool.and_eq_true, decide_eq_true_eq]
      split
      · split
        · omega
        · -- some copies are required here, so the range is mixed
          split <;> omega
      · split <;> omega

/-- A repetition with a mixed range nests four levels around its body: itself, the row of its
copies, the choice between further ones, and the row of these. -/
theorem nesting_of_isMixed {b : Bounds} (hb : b.isMixed = true) (body : Tree) (spelling : String)
    (span : Span) : nesting (repeated b body spelling span) = nesting body + 4 := by
  obtain ⟨lo, _ | hi, _⟩ := b
  · cases hb
  · simp only [Bounds.isMixed, Bool.and_eq_true, decide_eq_true_eq] at hb
    have hlo : lo ≠ 0 := Nat.pos_iff_ne_zero.1 hb.1
    simp only [nesting, Bounds.nesting, Bounds.isStar, hlo, hb.2, reduceCtorEq, and_self,
      decide_false, Bool.false_eq_true, if_false, if_true]

mutual

/-- A tree nests no more deeply than it is deep, but for its mixed ranges. By induction on the tree:
each mixed range on the way down adds one level at most that the depth does not count. -/
theorem nesting_le_depth_add (t : Tree) : nesting t ≤ depth t + mixedRanges t := by
  match t with
  | char .. => exact Nat.le_refl 1
  | concat parts _ =>
    have hparts := greatestNesting_le_depth_add parts
    rw [nesting, depth, mixedRanges]
    omega
  | group inner _ =>
    have hinner := nesting_le_depth_add inner
    rw [nesting, depth, mixedRanges]
    omega
  | either l r _ =>
    have hl := nesting_le_depth_add l
    have hr := nesting_le_depth_add r
    rw [nesting, depth, mixedRanges]
    cases r.isEither with
    | true =>
      rw [if_pos rfl, if_pos rfl]
      omega
    | false =>
      rw [if_neg Bool.false_ne_true, if_neg Bool.false_ne_true]
      omega
  | anyOf options .. =>
    have hoptions := greatestNesting_le_depth_add options
    rw [nesting, depth, mixedRanges]
    omega
  | repeated b body .. =>
    have hbody := nesting_le_depth_add body
    have hrange := nesting_bounds_le b (nesting body)
    rw [nesting, depth, mixedRanges]
    omega

/-- The same for the deepest of some trees. -/
theorem greatestNesting_le_depth_add (ts : List Tree) :
    greatestNesting ts ≤ greatestDepth ts + mostMixedRanges ts := by
  match ts with
  | [] => exact Nat.le_refl 0
  | t :: ts =>
    have ht := nesting_le_depth_add t
    have hts := greatestNesting_le_depth_add ts
    rw [greatestNesting, greatestDepth, mostMixedRanges]
    omega

end

mutual

/-- Every mixed range counts for three levels of the depth, and there is one level more at the
bottom. -/
theorem mixedRanges_lt_depth (t : Tree) : 3 * mixedRanges t < depth t := by
  match t with
  | char .. => exact Nat.zero_lt_one
  | concat parts _ =>
    have hparts := mostMixedRanges_le_depth parts
    rw [depth, mixedRanges]
    omega
  | group inner _ =>
    have hinner := mixedRanges_lt_depth inner
    rw [depth, mixedRanges]
    omega
  | either l r _ =>
    have hl := mixedRanges_lt_depth l
    have hr := mixedRanges_lt_depth r
    rw [depth, mixedRanges]
    split <;> omega
  | anyOf options .. =>
    have hoptions := mostMixedRanges_le_depth options
    rw [depth, mixedRanges]
    omega
  | repeated b body .. =>
    have hbody := mixedRanges_lt_depth body
    rw [depth, mixedRanges]
    split <;> omega

/-- The same for some trees, without the level at the bottom, as there may be none. -/
theorem mostMixedRanges_le_depth (ts : List Tree) : 3 * mostMixedRanges ts ≤ greatestDepth ts := by
  match ts with
  | [] => exact Nat.le_refl 0
  | t :: ts =>
    have ht := mixedRanges_lt_depth t
    have hts := mostMixedRanges_le_depth ts
    rw [greatestDepth, mostMixedRanges]
    omega

end

/-- While a tree is built, so many builds are under way at some time as its nesting says and never
more, and this much room is what its build needs. It is at most the depth and the number of mixed
ranges one inside another together, hence less than four thirds of the depth. -/
theorem nesting_spec (t : Tree) :
    (∃ stack, t.UnderWay stack ∧ stack.length = t.nesting) ∧
      (∀ stack, t.UnderWay stack → stack.length ≤ t.nesting) ∧
      (∀ room, t.buildWithin room = if t.nesting ≤ room then some t.build else none) ∧
      t.nesting ≤ t.depth + t.mixedRanges ∧ 3 * t.nesting < 4 * t.depth := by
  have hle := nesting_le_depth_add t
  have hlt := mixedRanges_lt_depth t
  exact ⟨exists_underWay t, fun _ h => h.length_le, fun room => buildWithin_eq room t, hle,
    by omega⟩

/-- There are trees of any number of mixed ranges one inside another that nest as deeply as this
allows: a letter with one to two copies, again with one to two copies, and so on. -/
theorem exists_nesting_eq (k : Nat) : ∃ t : Tree, t.depth = 3 * k + 1 ∧ t.nesting = 4 * k + 1 := by
  induction k with
  | zero => exact ⟨char .epsilon none, rfl, rfl⟩
  | succ k ih =>
    obtain ⟨body, hdepth, hnesting⟩ := ih
    refine ⟨repeated ⟨1, some 2, by simp⟩ body "" .unknown, ?_, ?_⟩
    · rw [depth, hdepth]
      omega
    · rw [nesting_of_isMixed rfl, hnesting]
      omega

/-- The depth is no bound: one or two copies of a letter have the depth four, but the repetition,
the row of its copies, the choice between nothing and another copy, the row of that one copy and
the letter are under way at one time. -/
theorem not_underWay_le_depth :
    ¬ ∀ (t : Tree) (stack : List Tree), t.UnderWay stack → stack.length ≤ t.depth := by
  intro h
  let a : Tree := char (.ofChar 'a') none
  let row : Tree := concat [a] .unknown
  let further : Tree := either (concat [] .unknown) row none
  let copies : Tree := concat [a, further] .unknown
  let t : Tree := repeated ⟨1, some 2, by simp⟩ a "" .unknown
  have hcopies : copies ∈ t.calls := List.mem_singleton.2 rfl
  have hfurther : further ∈ copies.calls := List.mem_cons_of_mem _ List.mem_cons_self
  have hrow : row ∈ further.calls := List.mem_cons_of_mem _ List.mem_cons_self
  have ha : a ∈ row.calls := List.mem_cons_self
  -- the row of builds, from the repetition down to the letter
  have hstack : t.UnderWay [t, copies, further, row, a] :=
    .call hcopies (.call hfurther (.call hrow (.call ha (.last a))))
  exact absurd (h t _ hstack) (by decide)

end Tree

end PatternAutomata
