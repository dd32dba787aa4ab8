/-
How much nesting the depth limit lets pass.

Reading checks the nesting of a pattern twice. When a group is opened, the groups that are open
are counted; when a group or a repetition is finished, its depth is looked at. Only the second
check decides: the groups around a group are deeper than it by one each, so if there are too many
of them, the outermost is found to be too deep when it is closed, if not before
(`Parser.allFit_of_readRest`). So a pattern that is read under some limit is read under any other
one, as the same tree, exactly if none of the groups and repetitions of the tree is deeper than
that limit, and otherwise it is refused as nested too deeply (`Parser.maxDepth_exact`).

The depth of the whole tree is not checked. Two more levels than the limit allows are all that it
can have: the parts of an option and the options of a choice.
-/
import PatternAutomata.Proofs.Grammar.Completeness

set_option autoImplicit false

namespace PatternAutomata

variable {d : Dialect} {limit : Int}

/-! ## Trees within a limit -/

namespace Tree

/-- Whether a tree is a group or a repetition, the depth of which is limited. -/
def isNested : Tree → Bool
  | group .. | repeated .. => true
  | _ => false

/-- A node of a tree is the tree itself or a node of one of its children. -/
inductive HasNode : Tree → Tree → Prop where
  | self (t : Tree) : HasNode t t
  | child {t u v : Tree} (mem : u ∈ t.children) (node : HasNode u v) : HasNode t v

/-- What holds of all nodes of a tree holds of the tree and of all nodes of its children. -/
theorem forall_hasNode_iff {P : Tree → Prop} {t : Tree} :
    (∀ u, t.HasNode u → P u) ↔ P t ∧ ∀ c ∈ t.children, ∀ u, c.HasNode u → P u := by
  constructor
  · intro h
    exact ⟨h t (.self t), fun c hc u hu => h u (.child hc hu)⟩
  · rintro ⟨hself, hchildren⟩ u hu
    cases hu with
    | self => exact hself
    | child hc hu => exact hchildren _ hc u hu

/-- No group and no repetition in a tree is deeper than a limit. -/
def Fits (limit : Int) (t : Tree) : Prop :=
  ∀ u, t.HasNode u → u.isNested = true → (u.depth : Int) ≤ limit

/-- A tree fits if it is not too deep itself, in case that matters, and its children fit. -/
theorem fits_iff {t : Tree} : t.Fits limit ↔
    (t.isNested = true → (t.depth : Int) ≤ limit) ∧ ∀ u ∈ t.children, u.Fits limit :=
  forall_hasNode_iff

/-- A letter is neither a group nor a repetition. -/
theorem fits_char (label : Label) (place : Option Int) : (char label place).Fits limit :=
  fits_iff.2 ⟨fun h => absurd h Bool.false_ne_true, fun _ h => absurd h List.not_mem_nil⟩

/-- A row of parts fits if each part does. -/
theorem fits_concat_iff {ts : List Tree} {span : Span} :
    (concat ts span).Fits limit ↔ ∀ t ∈ ts, t.Fits limit := by
  rw [fits_iff]
  exact and_iff_right fun h => absurd h Bool.false_ne_true

/-- A group fits if it is not too deep and what is in it fits. -/
theorem fits_group_iff {t : Tree} {span : Span} : (group t span).Fits limit ↔
    ((t.depth + 1 : Nat) : Int) ≤ limit ∧ t.Fits limit := by
  rw [fits_iff, forall_prop_of_true (p := (group t span).isNested = true) rfl, depth, children,
    List.forall_mem_singleton]

/-- A binary choice fits if both its options do. -/
theorem fits_either_iff {l r : Tree} {pipe : Option Int} : (either l r pipe).Fits limit ↔
    l.Fits limit ∧ r.Fits limit := by
  rw [fits_iff, children, List.forall_mem_cons, List.forall_mem_singleton]
  exact and_iff_right fun h => absurd h Bool.false_ne_true

/-- A choice fits if each of its options does. -/
theorem fits_anyOf_iff {ts : List Tree} {pipes : List (Option Int)} {span : Span} :
    (anyOf ts pipes span).Fits limit ↔ ∀ t ∈ ts, t.Fits limit := by
  rw [fits_iff]
  exact and_iff_right fun h => absurd h Bool.false_ne_true

/-- A repetition, which counts for three levels, fits if it is not too deep and its body fits. -/
theorem fits_repeated_iff {b : Bounds} {t : Tree} {spelling : String} {span : Span} :
    (repeated b t spelling span).Fits limit ↔
      ((t.depth + 3 : Nat) : Int) ≤ limit ∧ t.Fits limit := by
  rw [fits_iff, forall_prop_of_true (p := (repeated b t spelling span).isNested = true) rfl, depth,
    children, List.forall_mem_singleton]

/-! ### Options and choices -/

variable {start stop : Nat}

/-- So it is with an option, whether it is a row or a part by itself. -/
theorem fits_sequence_iff {ts : List Tree} :
    (sequence start stop ts).Fits limit ↔ ∀ t ∈ ts, t.Fits limit := by
  rw [sequence.eq_def]
  split
  · rw [List.forall_mem_singleton]
  · exact fits_concat_iff

/-- And so with a choice, whether it is a chain, side by side or an option by itself. -/
theorem fits_choice_iff {ended : List (Tree × Nat)} {last : Tree} :
    (choice d start stop ended last).Fits limit ↔
      (∀ o ∈ ended, o.1.Fits limit) ∧ last.Fits limit := by
  rw [choice]
  split
  · next hnone =>
    rw [hnone]
    exact (and_iff_right fun o ho => absurd ho List.not_mem_nil).symm
  split
  · rw [fits_anyOf_iff, List.forall_mem_append, List.forall_mem_map, List.forall_mem_singleton]
  · clear * -
    induction ended with
    | nil => exact (and_iff_right fun o ho => absurd ho List.not_mem_nil).symm
    | cons o ended ih =>
      rw [List.foldr_cons, fits_either_iff, ih, List.forall_mem_cons, and_assoc]

/-- Every tree has a level. -/
theorem one_le_depth (t : Tree) : 1 ≤ t.depth := by
  cases t with
  | char => rw [depth]
  | concat | anyOf => rw [depth]; exact Nat.le_add_right ..
  | group | repeated => rw [depth]; exact Nat.le_add_left ..
  | either => rw [depth]; split <;> omega

/-- No tree is deeper than the deepest. -/
theorem le_greatestDepth {ts : List Tree} {t : Tree} (ht : t ∈ ts) :
    t.depth ≤ greatestDepth ts := by
  induction ts with
  | nil => exact absurd ht List.not_mem_nil
  | cons u ts ih =>
    rw [greatestDepth]
    rcases List.mem_cons.1 ht with rfl | ht
    · exact Nat.le_max_left ..
    · exact Nat.le_trans (ih ht) (Nat.le_max_right ..)

/-- No option is deeper than the choice. -/
theorem le_depth_either (l r : Tree) (pipe : Option Int) :
    l.depth ≤ (either l r pipe).depth ∧ r.depth ≤ (either l r pipe).depth := by
  rw [depth]
  split <;> omega

/-- No part is deeper than the option. -/
theorem le_depth_sequence {ts : List Tree} {t : Tree} (ht : t ∈ ts) :
    t.depth ≤ (sequence start stop ts).depth := by
  rw [sequence.eq_def]
  split
  · rw [List.mem_singleton.1 ht]
  · rw [depth]
    exact Nat.le_trans (le_greatestDepth ht) (Nat.le_add_left ..)

/-- No option is deeper than the choice, in whichever way it is put together. -/
theorem le_depth_choice {ended : List (Tree × Nat)} {last t : Tree}
    (ht : t = last ∨ ∃ o ∈ ended, t = o.1) :
    t.depth ≤ (choice d start stop ended last).depth := by
  rw [choice]
  split
  · next hnone =>
    rcases ht with rfl | ⟨o, ho, _⟩
    · exact Nat.le_refl _
    · rw [hnone] at ho
      exact absurd ho List.not_mem_nil
  split
  · have hmem : t ∈ ended.map (·.1) ++ [last] := by
      rcases ht with rfl | ⟨o, ho, rfl⟩
      · exact List.mem_append_right _ List.mem_cons_self
      · exact List.mem_append_left _ (List.mem_map_of_mem ho)
    rw [depth]
    exact Nat.le_trans (le_greatestDepth hmem) (Nat.le_add_left ..)
  -- a chain is as deep as its first option, or as the rest of the chain, and one level more
  · clear * - ht
    induction ended with
    | nil =>
      rcases ht with rfl | ⟨o, ho, _⟩
      · exact Nat.le_refl _
      · exact absurd ho List.not_mem_nil
    | cons o ended ih =>
      obtain ⟨hleft, hright⟩ := le_depth_either o.1
        (ended.foldr (fun o right => either o.1 right (some (o.2 : Int))) last) (some (o.2 : Int))
      rw [List.foldr_cons]
      rcases ht with rfl | ⟨o', ho', rfl⟩
      · exact Nat.le_trans (ih (Or.inl rfl)) hright
      · rcases List.mem_cons.1 ho' with rfl | ho'
        · exact hleft
        · exact Nat.le_trans (ih (Or.inr ⟨o', ho', rfl⟩)) hright

/-! ### Trees within open groups -/

/-- A tree fits inside some groups that are still open: it fits, and each of the groups, which is
deeper than all that is inside it, is not too deep for holding it. -/
def FitsWithin (limit : Int) (around : Nat) (t : Tree) : Prop :=
  t.Fits limit ∧ (0 < around → ((t.depth + around : Nat) : Int) ≤ limit)

variable {around : Nat}

/-- Outside all groups nothing but the tree itself matters. -/
theorem fitsWithin_zero {t : Tree} : t.FitsWithin limit 0 ↔ t.Fits limit :=
  and_iff_left fun h => absurd h (Nat.lt_irrefl 0)

/-- What is inside of a group that fits fits inside one group more. -/
theorem FitsWithin.of_group {t : Tree} {span : Span}
    (h : (group t span).FitsWithin limit around) : t.FitsWithin limit (around + 1) := by
  obtain ⟨hfits, haround⟩ := h
  obtain ⟨hdepth, hinner⟩ := fits_group_iff.1 hfits
  refine ⟨hinner, fun _ => ?_⟩
  rw [depth] at haround
  -- the outermost of the groups around is the tree's own one if there are no others
  by_cases hnone : around = 0
  · rw [hnone]
    exact hdepth
  · have hroom := haround (Nat.pos_of_ne_zero hnone)
    omega

/-- What is no deeper and fits by itself fits where a tree does. -/
theorem FitsWithin.mono {t u : Tree} (h : t.FitsWithin limit around) (hu : u.Fits limit)
    (hdepth : u.depth ≤ t.depth) : u.FitsWithin limit around := by
  refine ⟨hu, fun haround => ?_⟩
  have hroom := h.2 haround
  omega

/-- The body of a repetition fits where the repetition does. -/
theorem FitsWithin.of_repeated {b : Bounds} {t : Tree} {spelling : String} {span : Span}
    (h : (repeated b t spelling span).FitsWithin limit around) : t.FitsWithin limit around := by
  refine h.mono (fits_repeated_iff.1 h.1).2 ?_
  rw [depth]
  exact Nat.le_add_right ..

/-- The parts of an option fit where the option does. -/
theorem FitsWithin.of_sequence {ts : List Tree}
    (h : (sequence start stop ts).FitsWithin limit around) :
    ∀ t ∈ ts, t.FitsWithin limit around :=
  fun t ht => h.mono (fits_sequence_iff.1 h.1 t ht) (le_depth_sequence ht)

/-- The options of a choice fit where the choice does. -/
theorem FitsWithin.of_choice {ended : List (Tree × Nat)} {last : Tree}
    (h : (choice d start stop ended last).FitsWithin limit around) :
    (∀ o ∈ ended, o.1.FitsWithin limit around) ∧ last.FitsWithin limit around := by
  obtain ⟨hended, hlast⟩ := fits_choice_iff.1 h.1
  exact ⟨fun o ho => h.mono (hended o ho) (le_depth_choice (Or.inr ⟨o, ho, rfl⟩)),
    h.mono hlast (le_depth_choice (Or.inl rfl))⟩

end Tree

/-! ## The depth of a pattern that fits -/

/-- The trees of a phrase that fit are not much deeper than the limit. -/
def Phrase.Capped (limit : Nat) : Phrase → Prop
  | .part t => t.isEither = false ∧ (t.Fits limit → t.depth ≤ limit)
  | .parts ts => (∀ t ∈ ts, t.isEither = false) ∧
      ((∀ t ∈ ts, t.Fits limit) → Tree.greatestDepth ts ≤ limit)
  | .option t => t.isEither = false ∧ (t.Fits limit → t.depth ≤ limit + 1)
  | .options ended last => last.isEither = false ∧
      ((∀ o ∈ ended, o.1.Fits limit) ∧ last.Fits limit →
        Tree.greatestDepth (ended.map (·.1) ++ [last]) ≤ limit + 1)
  | .choice t => t.Fits limit → t.depth ≤ limit + 2

/-- A row of parts none of which is a binary choice is none. -/
theorem Tree.isEither_sequence {start stop : Nat} {ts : List Tree}
    (h : ∀ t ∈ ts, t.isEither = false) : (sequence start stop ts).isEither = false := by
  rw [sequence.eq_def]
  split
  · exact h _ (List.mem_singleton_self _)
  · rfl

/-- The trees of a phrase that fit are not much deeper than the limit. By induction on the
derivation. Groups and repetitions are no deeper than the limit, because they fit; a row of them
adds one level at most, and a choice between rows one more. Along with that no part of a row is a
choice, so a chain of options adds one level only. -/
theorem Derives.capped {i n : Nat} {cs : List Char} {p : Phrase} (h : Derives d i cs p)
    (hn : 1 ≤ n) : p.Capped n := by
  induction h with
  | letter => exact ⟨rfl, fun _ => hn⟩
  | group => exact ⟨rfl, fun hfits => Int.ofNat_le.1 (Tree.fits_group_iff.1 hfits).1⟩
  | quantified => exact ⟨rfl, fun hfits => Int.ofNat_le.1 (Tree.fits_repeated_iff.1 hfits).1⟩
  | none => exact ⟨fun _ ht => absurd ht List.not_mem_nil, fun _ => Nat.zero_le n⟩
  | @more _ _ _ ts t _ _ ih ih' =>
    obtain ⟨hrow, hdepths⟩ := ih
    obtain ⟨hpart, hdepth⟩ := ih'
    constructor
    · rw [List.forall_mem_append, List.forall_mem_singleton]
      exact ⟨hrow, hpart⟩
    -- no part is deeper than the limit, so the deepest is not
    · intro hfits
      rw [List.forall_mem_append, List.forall_mem_singleton] at hfits
      rw [Tree.greatestDepth_append]
      refine Nat.max_le.2 ⟨hdepths hfits.1, Tree.greatestDepth_le ?_⟩
      rw [List.forall_mem_singleton]
      exact hdepth hfits.2
  | @option i cs ts _ _ ih =>
    obtain ⟨hrow, hdepths⟩ := ih
    refine ⟨Tree.isEither_sequence hrow, fun hfits => ?_⟩
    -- a row is one level deeper than its parts at most
    have hgreatest := hdepths (Tree.fits_sequence_iff.1 hfits)
    have hdepth := Tree.depth_sequence_le i (i + cs.length) ts
    omega
  | first _ ih =>
    refine ⟨ih.1, fun hfits => Tree.greatestDepth_le ?_⟩
    rw [List.map_nil, List.nil_append, List.forall_mem_singleton]
    exact ih.2 hfits.2
  | next _ _ ih ih' =>
    refine ⟨ih'.1, fun hfits => ?_⟩
    rw [List.forall_mem_append, List.forall_mem_singleton] at hfits
    obtain ⟨⟨hended, hlast⟩, hnext⟩ := hfits
    rw [List.map_append, List.map_singleton, Tree.greatestDepth_append]
    refine Nat.max_le.2 ⟨ih.2 ⟨hended, hlast⟩, Tree.greatestDepth_le ?_⟩
    rw [List.forall_mem_singleton]
    exact ih'.2 hnext
  | @choice i cs ended t _ ih =>
    intro hfits
    have hgreatest := ih.2 (Tree.fits_choice_iff.1 hfits)
    by_cases hnone : ended = []
    -- without a bar there is no choice but its only option
    · subst hnone
      have hlast := Tree.le_greatestDepth (List.mem_singleton_self t)
      rw [Tree.choice, if_pos rfl]
      rw [List.map_nil, List.nil_append] at hgreatest
      omega
    · rw [Tree.depth_choice hnone ih.1]
      omega

/-- Whatever is not too deep inside a pattern, the pattern is at most two levels deeper. -/
theorem Parser.depth_le_of_fits {s : String} {t : Tree} (h : parse d s = .ok t) (hone : 1 ≤ limit)
    (hfits : t.Fits limit) : (t.depth : Int) ≤ limit + 2 := by
  obtain ⟨n, rfl⟩ := Int.eq_ofNat_of_zero_le (Int.le_trans (by decide) hone)
  have hdepth := (derives_of_parse h).capped (Int.ofNat_le.1 hone) hfits
  omega

/-- A text is reported as nested more deeply than a limit allows. -/
inductive ParseError.IsTooDeep (limit : Int) : ParseError → Prop where
  | groups (place : Int) : IsTooDeep limit (.malformed ⟨.groupsTooDeep limit, place⟩)
  | expression (place : Int) : IsTooDeep limit (.malformed ⟨.expressionTooDeep limit, place⟩)

namespace Parser

/-! ## Levels within a limit -/

/-- What is on a level fits, and there is room for it inside the groups that are open. -/
structure Level.FitsWithin (limit : Int) (around : Nat) (l : Level) : Prop where
  room : 0 < around → ((1 + around : Nat) : Int) ≤ limit
  options : ∀ o ∈ l.options, o.1.FitsWithin limit around
  parts : ∀ t ∈ l.parts, t.FitsWithin limit around

/-- Nothing is on a level that has just been opened. -/
theorem Level.FitsWithin.begin (start : Nat) : (Level.begin start).FitsWithin limit 0 :=
  ⟨fun h => absurd h (Nat.lt_irrefl 0), List.forall_mem_nil _, List.forall_mem_nil _⟩

/-- Each level fits inside the groups around it. -/
def AllFit (limit : Int) : List Level → Prop
  | [] => True
  | l :: outer => l.FitsWithin limit outer.length ∧ AllFit limit outer

variable {around place stop : Nat} {l l' : Level} {t : Tree}

/-- If a level fits with one more part, it fits without. -/
theorem Level.FitsWithin.of_push (h : (l.push t).FitsWithin limit around) :
    l.FitsWithin limit around :=
  ⟨h.room, h.options, fun u hu => h.parts u (List.mem_cons_of_mem t hu)⟩

/-- The option in progress is the row of its parts. -/
theorem Level.eq_sequence_of_option (h : l.option d stop = .ok t) :
    t = .sequence l.optionStart stop l.parts.reverse := by
  have hempty : l.parts.reverse = [] → d.allowImplicitEmpty = true := by
    intro hnil
    rw [Level.option, List.reverse_eq_nil_iff.1 hnil] at h
    by_contra hnot
    rw [if_neg hnot] at h
    cases h
  exact Except.ok.inj (h.symm.trans (Level.option_eq_ok (List.reverse_reverse _).symm hempty stop))

/-- The parts of an option fit where it does. -/
theorem Level.fitsWithin_parts (h : l.option d stop = .ok t) (ht : t.FitsWithin limit around) :
    ∀ u ∈ l.parts, u.FitsWithin limit around := by
  rw [Level.eq_sequence_of_option h] at ht
  exact fun u hu => ht.of_sequence u (List.mem_reverse.2 hu)

/-- An option fits if all on its level does. -/
theorem Level.fits_of_option (h : l.option d stop = .ok t) (hl : l.FitsWithin limit 0) :
    t.Fits limit := by
  rw [Level.eq_sequence_of_option h, Tree.fits_sequence_iff]
  exact fun u hu => (hl.parts u (List.mem_reverse.1 hu)).1

/-- A level fits where the tree does that it ends as. -/
theorem Level.fitsWithin_of_tree (h : l.tree d stop = .ok t) (ht : t.FitsWithin limit around) :
    l.FitsWithin limit around := by
  have hroom : 0 < around → ((1 + around : Nat) : Int) ≤ limit := by
    intro haround
    have hdepth := ht.2 haround
    have hone := t.one_le_depth
    omega
  obtain ⟨last, hlast, rfl⟩ := exists_option_of_tree h
  obtain ⟨hended, hfits⟩ := ht.of_choice
  exact ⟨hroom, fun o ho => hended o (List.mem_reverse.2 ho), Level.fitsWithin_parts hlast hfits⟩

/-- A tree fits if all on the level does that it is made of. -/
theorem Level.fits_of_tree (h : l.tree d stop = .ok t) (hl : l.FitsWithin limit 0) :
    t.Fits limit := by
  obtain ⟨last, hlast, rfl⟩ := exists_option_of_tree h
  rw [Tree.fits_choice_iff]
  exact ⟨fun o ho => (hl.options o (List.mem_reverse.1 ho)).1, Level.fits_of_option hlast hl⟩

/-- A bar only moves what is on a level. -/
theorem Level.fitsWithin_of_bar (h : l.bar d place = .ok l') (hl : l'.FitsWithin limit around) :
    l.FitsWithin limit around := by
  obtain ⟨last, hlast, h⟩ := exists_of_bind_eq_ok h
  obtain rfl := Except.ok.inj h
  exact ⟨hl.room, fun o ho => hl.options o (List.mem_cons_of_mem _ ho),
    Level.fitsWithin_parts hlast (hl.options _ List.mem_cons_self)⟩

/-- So it neither helps nor hinders that the level fits. -/
theorem Level.fits_of_bar (h : l.bar d place = .ok l') (hl : l.FitsWithin limit 0) :
    l'.FitsWithin limit 0 := by
  obtain ⟨last, hlast, h⟩ := exists_of_bind_eq_ok h
  obtain rfl := Except.ok.inj h
  refine ⟨hl.room, ?_, fun _ hu => absurd hu List.not_mem_nil⟩
  rw [List.forall_mem_cons]
  exact ⟨Tree.fitsWithin_zero.2 (Level.fits_of_option hlast hl), hl.options⟩

/-- What is repeated fits where the repetition does. -/
theorem Level.fitsWithin_of_repeatLast {bounds : Except BoundsError Bounds} {q : List Char}
    (h : repeatLast d l bounds q place = .ok l') (hl : l'.FitsWithin limit around) :
    l.FitsWithin limit around := by
  obtain ⟨b, body, parts, -, hparts, rfl⟩ := exists_of_repeatLast h
  refine ⟨hl.room, hl.options, ?_⟩
  rw [hparts, List.forall_mem_cons]
  exact ⟨(hl.parts _ List.mem_cons_self).of_repeated,
    fun u hu => hl.parts u (List.mem_cons_of_mem _ hu)⟩

/-- If the tree that is read in the end fits, then all that is on the levels fits while it is read:
the rest of the text can only make it deeper. By induction on the calls, from the end of the
text. -/
theorem allFit_of_readRest {index : Nat} {outer : List Level} {cs : List Char}
    (h : readRest d index l outer cs = .ok t) (ht : t.Fits limit) : AllFit limit (l :: outer) := by
  fun_induction readRest d index l outer cs with
  | case1 => exact ⟨Level.fitsWithin_of_tree h (Tree.fitsWithin_zero.2 ht), trivial⟩
  | case2 | case3 | case5 | case9 | case12 => cases h
  | case4 index l outer rest _ ih => exact (ih h).2
  -- the group that is closed here is a part of the level around it, one group less deep
  | case6 index l rest around outer _ ih =>
    obtain ⟨inner, hinner, h⟩ := exists_of_bind_eq_ok h
    obtain ⟨u, hu, h⟩ := exists_of_bind_eq_ok h
    obtain rfl := eq_of_checkDepth hu
    obtain ⟨haround, houter⟩ := ih _ h
    have hgroup := haround.parts _ List.mem_cons_self
    exact ⟨Level.fitsWithin_of_tree hinner hgroup.of_group, haround.of_push, houter⟩
  | case7 index l outer c rest _ _ _ ih =>
    obtain ⟨hl, houter⟩ := ih h
    exact ⟨hl.of_push, houter⟩
  | case8 index l outer rest _ _ _ ih =>
    obtain ⟨l', hbar, h⟩ := exists_of_bind_eq_ok h
    obtain ⟨hl, houter⟩ := ih l' h
    exact ⟨Level.fitsWithin_of_bar hbar hl, houter⟩
  | case10 index l outer c rest _ _ _ _ _ body rest' _ _ ih =>
    obtain ⟨⟨lo, hi⟩, _, h⟩ := exists_of_bind_eq_ok h
    obtain ⟨l', hrepeat, h⟩ := exists_of_bind_eq_ok h
    obtain ⟨hl, houter⟩ := ih l' h
    exact ⟨Level.fitsWithin_of_repeatLast hrepeat hl, houter⟩
  | case11 index l outer c rest _ _ _ _ _ b _ ih =>
    obtain ⟨l', hrepeat, h⟩ := exists_of_bind_eq_ok h
    obtain ⟨hl, houter⟩ := ih l' h
    exact ⟨Level.fitsWithin_of_repeatLast hrepeat hl, houter⟩

/-! ## Reading under another limit -/

/-- A result under a limit is the tree that is read otherwise if that one fits, and a report of
the depth if it does not. -/
structure Limited (limit : Int) (t : Tree) (r : Except ParseError Tree) : Prop where
  eq_ok : t.Fits limit → r = .ok t
  too_deep : ¬t.Fits limit → ∃ e, e.IsTooDeep limit ∧ r = .error e

/-- A tree that fits is the one to be read. -/
theorem Limited.ok (h : t.Fits limit) : Limited limit t (.ok t) :=
  ⟨fun _ => rfl, fun hnot => absurd h hnot⟩

/-- A tree that does not fit is to be refused for its depth. -/
theorem Limited.error {e : ParseError} (h : ¬t.Fits limit) (he : e.IsTooDeep limit) :
    Limited limit t (.error e) :=
  ⟨fun ht => absurd ht h, fun _ => ⟨e, he, rfl⟩⟩

/-- A group or a repetition is refused only if the tree that it ends up in does not fit. And if it
passes, reading goes on as under the other limit. -/
theorem Limited.checkDepth {u : Tree} {f : Tree → Except ParseError Tree}
    (hinner : t.Fits limit → u.Fits limit) (hu : u.isNested = true)
    (h : (u.depth : Int) ≤ limit → Limited limit t (f u)) :
    Limited limit t (Parser.checkDepth { d with maxDepth := limit } place u >>= f) := by
  rw [Parser.checkDepth]
  split
  · next hdeep =>
    refine .error (fun ht => ?_) (.expression _)
    exact Int.not_lt.2 (hinner ht u (.self u) hu) hdeep
  · next hroom => exact h (Int.not_lt.1 hroom)

/-- So it is when the last part is repeated. Whether there is one, and whether the range is one,
does not depend on the limit. -/
theorem Limited.repeatLast {bounds : Except BoundsError Bounds} {q : List Char}
    {f : Level → Except ParseError Tree} (hrepeat : repeatLast d l bounds q place = .ok l')
    (hinner : t.Fits limit → l'.FitsWithin limit around) (hl : l.FitsWithin limit 0)
    (h : l'.FitsWithin limit 0 → Limited limit t (f l')) :
    Limited limit t (Parser.repeatLast { d with maxDepth := limit } l bounds q place >>= f) := by
  obtain ⟨b, body, parts, rfl, hparts, rfl⟩ := exists_of_repeatLast hrepeat
  rw [Parser.repeatLast, hparts]
  dsimp only
  rw [bind_assoc]
  refine Limited.checkDepth (fun ht => ((hinner ht).parts _ List.mem_cons_self).1) rfl ?_
  intro hroom
  have hfits := hl.parts
  rw [hparts, List.forall_mem_cons] at hfits
  refine h ⟨hl.room, hl.options, ?_⟩
  rw [List.forall_mem_cons]
  exact ⟨Tree.fitsWithin_zero.2 (Tree.fits_repeated_iff.2 ⟨hroom, hfits.1.1⟩), hfits.2⟩

/-- What is read under one limit is read under another one if it fits, and refused if not. By
induction on the calls. The levels hold only what has passed the other limit, so what has been read
so far is no reason to refuse; whether the rest is, is seen at each check. -/
theorem limited_readRest {index : Nat} {outer : List Level} {cs : List Char}
    (h : readRest d index l outer cs = .ok t) (hl : l.FitsWithin limit 0)
    (houter : ∀ around ∈ outer, around.FitsWithin limit 0) :
    Limited limit t (readRest { d with maxDepth := limit } index l outer cs) := by
  fun_induction readRest d index l outer cs with
  | case1 index l =>
    have htree : l.tree { d with maxDepth := limit } index = .ok t := h
    rw [readRest_end, htree]
    exact .ok (Level.fits_of_tree h hl)
  | case2 | case3 | case5 | case9 | case12 => cases h
  | case4 index l outer rest _ ih =>
    rw [readRest_open]
    split
    · next hdeep =>
      replace hdeep : ((outer.length + 2 : Nat) : Int) > limit := hdeep
      -- so many open groups could not all be shallow enough
      refine .error (fun ht => ?_) (.groups _)
      have hroom := (allFit_of_readRest h ht).1.room (Nat.succ_pos _)
      rw [List.length_cons] at hroom
      omega
    · exact ih h (.begin _) (List.forall_mem_cons.2 ⟨hl, houter⟩)
  | case6 index l rest around outer _ ih =>
    obtain ⟨inner, hinner, h⟩ := exists_of_bind_eq_ok h
    obtain ⟨u, hu, h⟩ := exists_of_bind_eq_ok h
    obtain rfl := eq_of_checkDepth hu
    obtain ⟨haround, houter⟩ := List.forall_mem_cons.1 houter
    have htree : l.tree { d with maxDepth := limit } index = .ok inner := hinner
    rw [readRest_close, htree]
    -- if the whole tree fits, the group that is closed here does
    refine Limited.checkDepth (fun ht => ?_) rfl fun hroom =>
      ih _ h ⟨haround.room, haround.options, ?_⟩ houter
    · exact ((allFit_of_readRest h ht).1.parts _ List.mem_cons_self).1
    · rw [Level.push, List.forall_mem_cons]
      exact ⟨Tree.fitsWithin_zero.2 (Tree.fits_group_iff.2 ⟨hroom, Level.fits_of_tree hinner hl⟩),
        haround.parts⟩
  | case7 index l outer c rest _ _ hletter ih =>
    rw [readRest_letter hletter]
    refine ih h ⟨hl.room, hl.options, ?_⟩ houter
    rw [Level.push, List.forall_mem_cons]
    exact ⟨Tree.fitsWithin_zero.2 (Tree.fits_char _ _), hl.parts⟩
  | case8 index l outer rest _ _ _ ih =>
    obtain ⟨l', hbar, h⟩ := exists_of_bind_eq_ok h
    have hbar' : l.bar { d with maxDepth := limit } index = .ok l' := hbar
    rw [readRest_bar, hbar']
    exact ih l' h (Level.fits_of_bar hbar hl) houter
  | case10 index l outer c rest _ _ _ _ hbrace body rest' hsplit _ ih =>
    obtain ⟨rfl, bounded⟩ := hbrace
    obtain ⟨⟨lo, hi⟩, hcounts, h⟩ := exists_of_bind_eq_ok h
    obtain ⟨l', hrepeat, h⟩ := exists_of_bind_eq_ok h
    rw [readRest_brace (d := { d with maxDepth := limit }) bounded, hsplit]
    dsimp only
    rw [hcounts]
    exact Limited.repeatLast hrepeat (fun ht => (allFit_of_readRest h ht).1) hl
      fun hl' => ih l' h hl' houter
  | case11 index l outer c rest _ _ _ _ _ b hb ih =>
    obtain ⟨l', hrepeat, h⟩ := exists_of_bind_eq_ok h
    rw [readRest_quantifier hb]
    exact Limited.repeatLast hrepeat (fun ht => (allFit_of_readRest h ht).1) hl
      fun hl' => ih l' h hl' houter

/-- The limit on the depth is exact: a text that is read at all is read under any other limit, as
the same tree, if the limit is positive and no group and no repetition of the tree is deeper, and
is refused as nested too deeply otherwise. The tree itself is at most two levels deeper. -/
theorem maxDepth_exact {s : String} (h : parse d s = .ok t) (limit : Int) :
    (1 ≤ limit ∧ t.Fits limit →
      parse { d with maxDepth := limit } s = .ok t ∧ (t.depth : Int) ≤ limit + 2) ∧
    (¬(1 ≤ limit ∧ t.Fits limit) →
      ∃ e, e.IsTooDeep limit ∧ parse { d with maxDepth := limit } s = .error e) := by
  have hdepth : 1 ≤ limit → t.Fits limit → (t.depth : Int) ≤ limit + 2 := depth_le_of_fits h
  rw [parse, parseChars] at h
  obtain ⟨pairs, hpaired, h⟩ := exists_of_bind_eq_ok h
  split at h
  · cases h
  have hlimited : Limited limit t
      (readRest { d with maxDepth := limit } 0 (.begin 0) [] s.toList) :=
    limited_readRest h (.begin 0) (List.forall_mem_nil _)
  rw [parse, parseChars, hpaired]
  show (_ → (if 1 > limit then _ else _) = _ ∧ _) ∧ (_ → ∃ e, _ ∧ (if 1 > limit then _ else _) = _)
  by_cases hone : 1 ≤ limit
  · rw [if_neg (Int.not_lt.2 hone)]
    exact ⟨fun hfits => ⟨hlimited.eq_ok hfits.2, hdepth hone hfits.2⟩,
      fun hnot => hlimited.too_deep fun hfits => hnot ⟨hone, hfits⟩⟩
  · rw [if_pos (Int.not_le.1 hone)]
    exact ⟨fun hfits => absurd hfits.1 hone, fun _ => ⟨_, .groups _, rfl⟩⟩

/-- The tree of a repeated group in a repeated group. -/
def repeatedTwice : Tree :=
  .repeated .star (.group (.repeated .plus (.group (.char (.ofChar 'a') (some 2)) (.between 1 4))
    "+" (.between 4 5)) (.between 0 6)) "*" (.between 6 7)

/-- It is read under a limit of 9, and refused under one of 8. -/
theorem maxDepth_exact_repeatedTwice : parse {} "((a)+)*" = .ok repeatedTwice ∧
    ((1 : Int) ≤ 9 ∧ repeatedTwice.Fits 9) ∧
      parse { maxDepth := 9 } "((a)+)*" = .ok repeatedTwice ∧
    ¬((1 : Int) ≤ 8 ∧ repeatedTwice.Fits 8) ∧
      ∃ e, e.IsTooDeep 8 ∧ parse { maxDepth := 8 } "((a)+)*" = .error e := by
  have hread : parse {} "((a)+)*" = .ok repeatedTwice := by with_unfolding_all rfl
  have hfits : (1 : Int) ≤ 9 ∧ repeatedTwice.Fits 9 := by
    simp [repeatedTwice, Tree.fits_repeated_iff, Tree.fits_group_iff, Tree.fits_char, Tree.depth]
  have hdeep : ¬((1 : Int) ≤ 8 ∧ repeatedTwice.Fits 8) := by
    simp [repeatedTwice, Tree.fits_repeated_iff, Tree.depth]
  exact ⟨hread, hfits, ((maxDepth_exact hread 9).1 hfits).1, hdeep,
    (maxDepth_exact hread 8).2 hdeep⟩

end Parser

end PatternAutomata
